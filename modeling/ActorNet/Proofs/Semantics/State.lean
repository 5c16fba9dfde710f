import ActorNet.Proofs.Semantics.Eval

/-!
# What a running procedure sees

A `State` holds the values of the locals, the state variables and the trace of entered procedures.
It says which value an expression, a loaded element, a converted variable or a phi has, if it has
one; `Matches` ties it to a way to read variables of the machine, and every value of the machine is
a value of the state and the other way round.
-/

namespace ActorNet

variable {b : Bool} {e : Expr} {indexes : List Expr} {s t : State} {x y : Value} {source : VarRef}

/-! ## States -/

/-- What outlives a call: the state variables and the trace of entered procedures, the latest
first. -/
@[ext] structure World where
  globals : List (Option Value)
  trace : List ProcId

/-- What a running procedure sees. -/
@[ext] structure State extends World where
  locals : LocalId → Option Value

/-- A phi of a join. -/
structure Phi where
  target : LocalId
  arms : List PhiArm

/-- The operand that a phi of a join picks on an edge. -/
def armOn (arms : List PhiArm) (edge : Edge) : Option PhiArm :=
  (arms.find? (·.edge = edge)).or arms[edge.index]?

namespace State

/-- The value of a variable. -/
def read (s : State) : VarRef → Option Value
  | .loc id => s.locals id
  | .glob id => s.globals[id.index]?.join

def reader (s : State) : Reader :=
  { proc := ""
    read := fun v => match s.read v with
      | some x => .ok x
      | none => .error (.unbound "" "") }

/-- The value of an expression. -/
def eval (s : State) (e : Expr) : Option Value :=
  (e.eval s.reader).toOption

/-- The values of expressions. -/
def evalAll (s : State) (es : List Expr) : Option (List Value) :=
  (Expr.evalAll s.reader es).toOption

/-- The truth value of a condition. -/
def test (s : State) (e : Expr) : Option Bool :=
  (e.evalBool s.reader).toOption

def load (s : State) (source : VarRef) (indexes : List Expr) : Option Value :=
  (s.reader.read source >>= fun v => Context.select s.reader v indexes).toOption

/-- The integers that index expressions denote. -/
def path (s : State) (indexes : List Expr) : Option (List Int64) :=
  (Context.path s.reader indexes).toOption

/-- What a variable holds after a value is stored to it or to an element of it. -/
def stored (s : State) (target : VarRef) (indexes : List Expr) (x : Value) : Option Value :=
  match s.path indexes with
  | none => none
  | some [] => some x
  | some path => (s.read target).bind fun whole => (whole.storeAt "" path x).toOption

def converted (s : State) (source : VarRef) (ty : Ty) : Option Value :=
  (s.read source).bind fun v => (v.convert "" ty).toOption

/-- The first operand whose guard holds. -/
def picks (s : State) : List PhiArm → Option PhiArm
  | [] => none
  | arm :: rest =>
    match arm.guard with
    | none => s.picks rest
    | some guard =>
      match s.test guard with
      | some true => some arm
      | some false => s.picks rest
      | none => none

/-- Bind a local. -/
def set (s : State) (id : LocalId) (x : Value) : State :=
  { s with locals := fun i => if i = id then some x else s.locals i }

/-- Bind a state variable, if there is one. -/
def setGlobal (s : State) (id : GlobalId) (x : Value) : State :=
  { s with globals := s.globals.set id.index (some x) }

def write (s : State) (v : VarRef) (x : Value) : State :=
  match v with
  | .loc id => s.set id x
  | .glob id => s.setGlobal id x

def bindResult (s : State) (target : Option LocalId) (result : Option Value) : State :=
  match target, result with
  | some id, some x => s.set id x
  | _, _ => s

/-- Bind locals one after the other. -/
def setAll (s : State) (bindings : List (LocalId × Value)) : State :=
  bindings.foldl (fun s b => s.set b.1 b.2) s

def phiValues (s : State) (edge : Edge) : List Phi → Option (List (LocalId × Value))
  | [] => some []
  | phi :: rest =>
    match (armOn phi.arms edge).bind fun arm => s.read arm.var, s.phiValues edge rest with
    | some x, some values => some ((phi.target, x) :: values)
    | _, _ => none

/-- The state after the phis of a join that is entered on an edge: all operands are read before any
target is bound. -/
def join (s : State) (edge : Edge) (phis : List Phi) : Option State :=
  (s.phiValues edge phis).map s.setAll

/-! ## Reading -/

@[simp] lemma set_globals (s : State) (id : LocalId) (x : Value) : (s.set id x).globals = s.globals := rfl

lemma set_locals (s : State) (id i : LocalId) (x : Value) :
    (s.set id x).locals i = if i = id then some x else s.locals i := rfl

@[simp] lemma set_locals_self (s : State) (id : LocalId) (x : Value) : (s.set id x).locals id = some x :=
  if_pos rfl

lemma set_locals_ne (s : State) {id i : LocalId} (x : Value) (h : i ≠ id) : (s.set id x).locals i = s.locals i :=
  if_neg h

@[simp] lemma read_loc (s : State) (id : LocalId) : s.read (.loc id) = s.locals id := rfl

lemma reader_read_ok {v : VarRef} : s.reader.read v = .ok x ↔ s.read v = some x := by
  simp only [reader]
  cases s.read v <;> simp

lemma toOption_eq_some {ε α : Type} {r : Except ε α} {x : α} : r.toOption = some x ↔ r = .ok x := by
  cases r <;> simp [Except.toOption]

lemma eval_eq_some : s.eval e = some y ↔ e.eval s.reader = .ok y :=
  toOption_eq_some

lemma test_eq_some : s.test e = some b ↔ s.eval e = some (.bool b) := by
  rw [test, toOption_eq_some, Expr.evalBool_ok, eval_eq_some]

@[simp] lemma eval_var (s : State) (v : VarRef) : s.eval (.var v) = s.read v := by
  refine Option.ext fun x => ?_
  rw [eval_eq_some, Expr.eval, reader_read_ok]

lemma reader_mono {vars : List VarRef} (h : ∀ v ∈ vars, ∀ x, s.read v = some x →
    t.read v = some x) : ∀ v ∈ vars, ∀ x, s.reader.read v = .ok x → t.reader.read v = .ok x := by
  simpa only [reader_read_ok] using h

lemma eval_mono (h : ∀ v ∈ e.uses, ∀ x, s.read v = some x → t.read v = some x)
    (hy : s.eval e = some y) : t.eval e = some y := by
  rw [eval_eq_some] at hy ⊢
  exact Expr.eval_mono e (reader_mono h) hy

lemma eval_congr (h : ∀ v ∈ e.uses, s.read v = t.read v) : s.eval e = t.eval e := by
  refine Option.ext fun y => ⟨eval_mono fun v hv x hx => ?_, eval_mono fun v hv x hx => ?_⟩
  · rw [← h v hv]
    exact hx
  · rw [h v hv]
    exact hx

lemma test_mono (h : ∀ v ∈ e.uses, ∀ x, s.read v = some x → t.read v = some x)
    (hb : s.test e = some b) : t.test e = some b := by
  rw [test_eq_some] at hb ⊢
  exact eval_mono h hb

lemma test_congr (h : ∀ v ∈ e.uses, s.read v = t.read v) : s.test e = t.test e := by
  refine Option.ext fun b => ?_
  rw [test_eq_some, test_eq_some, eval_congr h]

lemma evalAll_mono {es : List Expr} {ys : List Value}
    (h : ∀ v ∈ Expr.usesOf es, ∀ x, s.read v = some x → t.read v = some x)
    (hy : s.evalAll es = some ys) : t.evalAll es = some ys := by
  rw [evalAll, toOption_eq_some] at hy ⊢
  exact Expr.evalAll_mono es (reader_mono h) hy

lemma path_mono {ns : List Int64} (h : ∀ v ∈ Expr.usesOf indexes, ∀ x, s.read v = some x →
    t.read v = some x) (hy : s.path indexes = some ns) : t.path indexes = some ns := by
  rw [path, toOption_eq_some] at hy ⊢
  exact Context.path_mono (reader_mono h) hy

lemma load_eq_some : s.load source indexes = some y ↔
    ∃ v, s.read source = some v ∧ Context.select s.reader v indexes = .ok y := by
  rw [load, toOption_eq_some, bind_eq_ok]
  simp only [reader_read_ok]

@[simp] lemma load_nil (s : State) (source : VarRef) : s.load source [] = s.read source := by
  refine Option.ext fun y => ?_
  simp [load_eq_some, Context.select]

lemma load_mono (h : ∀ v ∈ source :: Expr.usesOf indexes, ∀ x, s.read v = some x →
    t.read v = some x) (hy : s.load source indexes = some y) : t.load source indexes = some y := by
  rw [load_eq_some] at hy ⊢
  obtain ⟨v, hv, hy⟩ := hy
  have hindexes := reader_mono fun u hu => h u (List.mem_cons_of_mem _ hu)
  exact ⟨v, h source List.mem_cons_self v hv, Context.select_mono hindexes hy⟩

@[simp] lemma stored_nil (s : State) (target : VarRef) (x : Value) : s.stored target [] x = some x := rfl

lemma stored_mono {target : VarRef} (h : ∀ v ∈ Expr.usesOf indexes, ∀ x, s.read v = some x → t.read v = some x)
    (htarget : indexes ≠ [] → ∀ x, s.read target = some x → t.read target = some x)
    (hy : s.stored target indexes x = some y) : t.stored target indexes x = some y := by
  unfold stored at hy ⊢
  cases hp : s.path indexes with
  | none =>
    rw [hp] at hy
    cases hy
  | some ns =>
    rw [hp] at hy
    rw [path_mono h hp]
    cases ns with
    | nil => exact hy
    | cons n rest =>
      obtain ⟨whole, hw, hy⟩ := bind_eq_some_iff.mp hy
      refine bind_eq_some_iff.mpr ⟨whole, htarget ?_ whole hw, hy⟩
      intro hnil
      subst hnil
      cases hp

lemma converted_eq_some {ty : Ty} :
    s.converted source ty = some y ↔ ∃ v, s.read source = some v ∧ v.convert "" ty = .ok y := by
  rw [converted, bind_eq_some_iff]
  simp only [toOption_eq_some]

end State

end ActorNet
