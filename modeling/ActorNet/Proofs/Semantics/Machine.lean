import ActorNet.Proofs.Semantics.Cost
import ActorNet.Proofs.Structure.Tree

/-!
# The machine and the meaning of code

The machine counts steps, limits the depth of calls and walks through tables of handles; `Code.step`
does none of this. The two agree on runs that succeed: what the machine does is what the code means
(`Matches.follows`), and what the code means the machine does, if the limits are not reached
(`Matches.performs`). `Actor.calls` lifts the meaning of code to calls that nest to a number of
levels, and `calls_of_call` and `call_of_calls` are the two directions for calls of the machine.
-/

namespace ActorNet

open Code Env List Procedure State Tree

variable {edge : Edge} {env' : Env} {after : Env → Run (Flow × Env)} {condition e : Expr} {f : Flow}
  {indexes : List Expr} {params : List LocalId} {arms : List PhiArm} {args : List Value} {id target : LocalId}
  {a b : Step} {x y : Value} {source v : VarRef}

/-- The value that a procedure returns when its body ends so. -/
def Flow.result : Flow → Option Value
  | .next => none
  | .ret value => value

/-- What outlives a call on a machine. -/
def Machine.world (m : Machine) : World := ⟨m.globals, m.trace⟩

def Env.on (env : Env) (m : Machine) : State := ⟨m.world, env.get?⟩

@[simp] lemma Env.on_globals (env : Env) (m : Machine) : (env.on m).globals = m.globals := rfl

@[simp] lemma Env.on_locals (env : Env) (m : Machine) : (env.on m).locals = env.get? := rfl

lemma Env.get?_set (env : Env) (id i : LocalId) (x : Value) :
    (env.set id x).get? i = if i = id then some x else env.get? i := by
  unfold get?
  induction env with
  | nil => grind [Env.set]
  | cons b rest ih => grind [Env.set]

lemma Env.set_on (env : Env) (m : Machine) (id : LocalId) (x : Value) : (env.set id x).on m = (env.on m).set id x := by
  refine State.ext rfl rfl ?_
  funext i
  exact env.get?_set id i x

lemma Env.foldl_set_on (env : Env) (m : Machine) (bindings : List (LocalId × Value)) :
    (bindings.foldl (fun env b => env.set b.1 b.2) env).on m = (env.on m).setAll bindings := by
  unfold setAll
  induction bindings generalizing env with
  | nil => rfl
  | cons b rest ih => rw [foldl_cons, foldl_cons, ih, env.set_on m]

def Env.bindResult (env : Env) (target : Option LocalId) (result : Option Value) : Env :=
  match target, result with
  | some id, some x => env.set id x
  | _, _ => env

lemma Env.bindResult_on (env : Env) (m : Machine) (target : Option LocalId) (y : Option Value) :
    (env.bindResult target y).on m = State.bindResult ⟨m.world, env.get?⟩ target y := by
  rcases target with _ | id
  · rfl
  · rcases y with _ | x
    · rfl
    · exact env.set_on m id x

lemma Env.mem_zip_of_ofArgs_get? (h : (ofArgs params args).get? id = some x) : (id, x) ∈ params.zip args := by
  have hfold : ∀ (bindings : List (LocalId × Value)) (env : Env),
      (bindings.foldl (fun env b => env.set b.1 b.2) env).get? id = some x →
        (id, x) ∈ bindings ∨ env.get? id = some x := by
    intro bindings
    induction bindings with
    | nil => exact fun env h => .inr h
    | cons b rest ih =>
      intro env h
      rcases ih _ h with hmem | hset
      · exact .inl (mem_cons_of_mem b hmem)
      · rw [get?_set] at hset
        split at hset
        · rename_i hid
          cases hset
          exact .inl (hid ▸ mem_cons_self)
        · exact .inr hset
  exact (hfold _ [] h).resolve_right fun hnil => by cases hnil

lemma Env.ofArgs_get?_of_not_mem (h : id ∉ params) : (ofArgs params args).get? id = none := by
  refine Option.eq_none_iff_forall_ne_some.mpr fun x hx => h ?_
  exact (of_mem_zip (mem_zip_of_ofArgs_get? hx)).1

/-- One of the instructions is a call. -/
def Procedure.HasCall (p : Procedure) (ids : List InstId) : Prop :=
  ∃ i ∈ ids, ∃ d, p.inst? i = some d ∧ d.inst.isCall = true

lemma Procedure.HasCall.mono {p : Procedure} {ids ids' : List InstId} (h : p.HasCall ids)
    (hsub : ids ⊆ ids') : p.HasCall ids' := by
  obtain ⟨i, hi, hcall⟩ := h
  exact ⟨i, hsub hi, hcall⟩

namespace Context

variable {c : Context} {env : Env} {m m' : Machine}

/-! ## Reading -/

lemma reader_read_ok : (c.reader env m).read v = .ok x ↔ (env.on m).read v = some x := by
  cases v with
  | loc id =>
    simp only [reader, read_loc, on_locals]
    cases env.get? id <;> simp
  | glob id =>
    simp only [reader, State.read, on_globals, Machine.global?]
    cases m.globals[id.index]?.join <;> simp

lemma reader_read_iff : (c.reader env m).read v = .ok x ↔ (env.on m).reader.read v = .ok x := by
  rw [reader_read_ok, State.reader_read_ok]

lemma eval_reader_ok : e.eval (c.reader env m) = .ok y ↔ (env.on m).eval e = some y := by
  rw [eval_eq_some]
  exact ⟨Expr.eval_mono e fun _ _ _ => reader_read_iff.mp, Expr.eval_mono e fun _ _ _ => reader_read_iff.mpr⟩

lemma evalBool_reader_ok {b : Bool} : e.evalBool (c.reader env m) = .ok b ↔ (env.on m).test e = some b := by
  rw [test_eq_some, Expr.evalBool_ok, eval_reader_ok]

variable {es : List Expr}

lemma evalAll_reader_ok {ys : List Value} :
    Expr.evalAll (c.reader env m) es = .ok ys ↔ (env.on m).evalAll es = some ys := by
  rw [evalAll, toOption_eq_some]
  exact ⟨Expr.evalAll_mono es fun _ _ _ => reader_read_iff.mp, Expr.evalAll_mono es fun _ _ _ => reader_read_iff.mpr⟩

lemma path_reader_ok {ns : List Int64} :
    path (c.reader env m) indexes = .ok ns ↔ (env.on m).path indexes = some ns := by
  rw [State.path, State.toOption_eq_some]
  exact ⟨path_mono fun _ _ _ => reader_read_iff.mp, path_mono fun _ _ _ => reader_read_iff.mpr⟩

lemma load_reader_ok : ((c.reader env m).read source >>= fun v => select (c.reader env m) v indexes) = .ok y ↔
      (env.on m).load source indexes = some y := by
  rw [load_eq_some, bind_eq_ok]
  refine exists_congr fun v => and_congr reader_read_ok ?_
  exact ⟨select_mono fun _ _ _ => reader_read_iff.mp, select_mono fun _ _ _ => reader_read_iff.mpr⟩

lemma convert_reader_ok {ty : Ty} :
    ((c.reader env m).read source >>= fun v => v.convert (c.reader env m).proc ty) = .ok y ↔
      (env.on m).converted source ty = some y := by
  rw [converted_eq_some, bind_eq_ok]
  exact exists_congr fun v => and_congr reader_read_ok ⟨Value.convert_rename _ _ v ty, Value.convert_rename _ _ v ty⟩

lemma storeAt_reader_ok {path : List Int64} :
    ((c.reader env m).read v >>= fun whole => whole.storeAt (c.reader env m).proc path x) = .ok y ↔
      (((env.on m).read v).bind fun whole => (whole.storeAt "" path x).toOption) = some y := by
  rw [bind_eq_ok, bind_eq_some_iff]
  refine exists_congr fun whole => and_congr reader_read_ok ?_
  rw [toOption_eq_some]
  exact ⟨Value.storeAt_rename _ _, Value.storeAt_rename _ _⟩

@[simp] lemma yields_eval {α : Type} {f : Reader → Except Fault α} {x : α} :
    Yields (c.eval env f) m x m' ↔ f (c.reader env m) = .ok x ∧ m' = m := by
  unfold Context.eval
  rw [yields_get_bind, yields_lift]

lemma yields_write : Yields (write env v x) m env' m' →
      env'.on m' = (env.on m).write v x ∧ m'.depth = m.depth ∧ m'.steps = m.steps := by
  intro h
  cases v with
  | loc id =>
    rw [write, yields_pure] at h
    rw [h.1, h.2]
    exact ⟨env.set_on m id x, rfl, rfl⟩
  | glob id =>
    simp only [write, yields_bind, yields_modify, yields_pure] at h
    obtain ⟨_, _, hm, henv, hm'⟩ := h
    rw [hm', hm, henv]
    exact ⟨rfl, rfl, rfl⟩

lemma write_yields (env : Env) (m : Machine) (v : VarRef) (x : Value) :
    ∃ env' m', Yields (write env v x) m env' m' := by
  cases v with
  | loc id => exact ⟨_, _, yields_pure.mpr ⟨rfl, rfl⟩⟩
  | glob id =>
    refine ⟨env, m.setGlobal id x, ?_⟩
    simp [write]

/-! ## Phis -/

lemma yields_firstHolding {arm : PhiArm} : Yields (selectArm.firstHolding c env arms) m
    (some arm) m' ↔ (env.on m).picks arms = some arm ∧ m' = m := by
  induction arms with
  | nil => simp [selectArm.firstHolding, picks]
  | cons first rest ih =>
    rw [selectArm.firstHolding, picks]
    cases first.guard with
    | none => exact ih
    | some guard =>
      simp only [yields_bind, yields_eval, evalBool_reader_ok, and_assoc, exists_and_left, exists_eq_left]
      cases (env.on m).test guard with
      | none => simp
      | some b =>
        cases b with
        | true => simp [eq_comm]
        | false => simpa using ih

lemma yields_phiValue_guarded : Yields (c.phiValue env none target arms) m x m' ↔
      (∃ arm, (env.on m).picks arms = some arm ∧ (env.on m).read arm.var = some x) ∧ m' = m := by
  simp only [phiValue, selectArm, yields_bind]
  constructor
  · rintro ⟨arm?, m1, hsel, h⟩
    cases arm? with
    | none =>
      rw [yields_throw] at h
      exact h.elim
    | some arm =>
      obtain ⟨hpick, rfl⟩ := yields_firstHolding.mp hsel
      rw [yields_eval, reader_read_ok] at h
      exact ⟨⟨arm, hpick, h.1⟩, h.2⟩
  · rintro ⟨⟨arm, hpick, hx⟩, hm⟩
    exact ⟨some arm, m, yields_firstHolding.mpr ⟨hpick, rfl⟩, yields_eval.mpr ⟨reader_read_ok.mpr hx, hm⟩⟩

lemma yields_phiValue_edge : Yields (c.phiValue env (some edge) target arms) m x m' ↔
      ((armOn arms edge).bind fun arm => (env.on m).read arm.var) = some x ∧ m' = m := by
  simp only [phiValue, selectArm, yields_bind, yields_pure]
  rw [← armOn]
  cases armOn arms edge with
  | none => simp
  | some arm => simp [reader_read_ok]

lemma yields_joinValues {insts : List InstId} {values : List (LocalId × Value)}
    (hphis : ∀ i ∈ insts, ∃ phi, c.proc.phi? i = some phi) : Yields (c.joinValues env edge insts) m values m' ↔
      (env.on m).phiValues edge (insts.filterMap c.proc.phi?) = some values ∧ m' = m := by
  induction insts generalizing values m' with
  | nil => simp [joinValues, phiValues, eq_comm]
  | cons i rest ih =>
    obtain ⟨phi, hphi⟩ := hphis i mem_cons_self
    have ih : ∀ v m1, Yields (c.joinValues env edge rest) m v m1 ↔
        (env.on m).phiValues edge (rest.filterMap c.proc.phi?) = some v ∧ m1 = m :=
      fun _ _ => ih fun j hj => hphis j (mem_cons_of_mem i hj)
    obtain ⟨block, predicate, hinst⟩ := phi?_eq_some.mp hphi
    rw [filterMap_cons, hphi, joinValues, hinst, phiValues]
    simp only [yields_bind, yields_phiValue_edge, yields_pure, and_assoc, exists_and_left, exists_eq_left, ih]
    cases (armOn phi.arms edge).bind fun arm => (env.on m).read arm.var with
    | none => simp
    | some x => cases (env.on m).phiValues edge (rest.filterMap c.proc.phi?) <;> simp [eq_comm]

/-! ## What the machine does is what the code means -/

lemma yields_andThen {first : Run (Flow × Env)} : Yields (andThen first after) m (f, env') m' ↔
      (∃ env1 m1, Yields first m (.next, env1) m1 ∧ Yields (after env1) m1 (f, env') m') ∨
      (∃ v, f = .ret v ∧ Yields first m (.ret v, env') m') := by
  unfold andThen
  rw [yields_bind]
  constructor
  · rintro ⟨⟨f1, env1⟩, m1, hfirst, h⟩
    cases f1 with
    | next => exact .inl ⟨env1, m1, hfirst, h⟩
    | ret v =>
      obtain ⟨h, rfl⟩ := yields_pure.mp h
      cases h
      exact .inr ⟨v, rfl, hfirst⟩
  · rintro (⟨env1, m1, hfirst, h⟩ | ⟨v, rfl, hfirst⟩)
    · exact ⟨(.next, env1), m1, hfirst, h⟩
    · exact ⟨(.ret v, env'), m', hfirst, yields_pure.mpr ⟨rfl, rfl⟩⟩

/-- A join that is entered on an edge binds its phis and runs nothing else. -/
lemma yields_execBlock_edge {id : NodeId} (hphis : ∀ i ∈ c.proc.blockInsts id, ∃ phi, c.proc.phi? i = some phi) :
    Yields (c.execBlock (some edge) env id) m (f, env') m' ↔
      ∃ values, (env.on m).phiValues edge ((c.proc.blockInsts id).filterMap c.proc.phi?) = some values ∧ f = .next ∧
        env' = values.foldl (fun env b => env.set b.1 b.2) env ∧ m' = m := by
  have hskip : ∀ (insts : List InstId) (env : Env) (m : Machine), (∀ i ∈ insts, ∃ phi, c.proc.phi? i = some phi) →
      (Yields (c.execInsts true env insts) m (f, env') m' ↔ f = .next ∧ env' = env ∧ m' = m) := by
    intro insts env m
    induction insts with
    | nil => simp [execInsts, and_assoc]
    | cons i rest ih =>
      intro hall
      obtain ⟨phi, hphi⟩ := hall i mem_cons_self
      obtain ⟨block, predicate, hinst⟩ := phi?_eq_some.mp hphi
      rw [execInsts, hinst]
      simp only [Inst.isPhi, Bool.and_self, if_true]
      exact ih fun j hj => hall j (mem_cons_of_mem i hj)
  simp only [execBlock, yields_bind, yields_joinValues hphis, hskip _ _ _ hphis, and_assoc,
    exists_and_left, exists_eq_left]

/-- The limits leave room for a number of steps, and that many are taken, at the same depth of
calls. -/
structure Spent (limits : Limits) (n : Nat) (m m' : Machine) : Prop where
  room : n = 0 ∨ m.steps + n ≤ limits.maxSteps
  depth : m'.depth = m.depth
  steps : m'.steps = m.steps + n

lemma Spent.trans {limits : Limits} {k l : Nat} {m1 : Machine} (h1 : Spent limits k m m1)
    (h2 : Spent limits l m1 m') : Spent limits (k + l) m m' := by
  have := h1.room
  have := h2.room
  have := h1.steps
  have := h2.steps
  exact ⟨by omega, h2.depth.trans h1.depth, by omega⟩

lemma Spent.tick {limits : Limits} {n : Nat} (h : Spent limits n { m with steps := m.steps + 1 } m')
    (hroom : m.steps + 1 ≤ limits.maxSteps) : Spent limits (n + 1) m m' := by
  obtain ⟨hleft, hdepth, hsteps⟩ := h
  simp only at hleft hsteps
  exact ⟨by omega, hdepth, by omega⟩

/-- A part of a procedure does on the machine what it means, at a depth of calls: what the machine
does, in as many steps as it takes, is allowed if `H` holds, and what is allowed the machine does if
the limits leave room for the steps. -/
structure Matches (H : Prop) (limits : Limits) (d : Nat) (act : Env → Run (Flow × Env)) (a : Costed) : Prop where
  follows {env : Env} {m : Machine} {f : Flow} {env' : Env} {m' : Machine} : H → m.depth = d →
    Yields (act env) m (f, env') m' → ∃ n, a n (env.on m) f (env'.on m') ∧ Spent limits n m m'
  performs {env : Env} {m : Machine} {f : Flow} {u : State} {n : Nat} : m.depth = d → a n (env.on m) f u →
    (n = 0 ∨ m.steps + n ≤ limits.maxSteps) →
    ∃ env' m', Yields (act env) m (f, env') m' ∧ env'.on m' = u ∧ Spent limits n m m'

/-- Calls do on the machine what they mean, at a depth of calls. -/
structure CallsMatch (H : Prop) (limits : Limits) (d : Nat)
    (call : ProcId → List Value → Run (Option Value)) (costs : Nat → CallStep) : Prop where
  follows {id : ProcId} {args : List Value} {m : Machine} {v : Option Value} {m' : Machine} : H → m.depth = d →
    Yields (call id args) m v m' → ∃ n, costs n id args m.world v m'.world ∧ Spent limits n m m'
  performs {id : ProcId} {args : List Value} {m : Machine} {v : Option Value} {w : World} {n : Nat} : m.depth = d →
    costs n id args m.world v w → (n = 0 ∨ m.steps + n ≤ limits.maxSteps) →
    ∃ m', Yields (call id args) m v m' ∧ m'.world = w ∧ Spent limits n m m'

variable {H : Prop} {limits : Limits} {d : Nat} {costs : Nat → CallStep} {a b : Costed}

lemma Matches.andThen {first : Env → Run (Flow × Env)} (ha : Matches H limits d first a)
    (hb : Matches H limits d after b) : Matches H limits d (fun env => andThen (first env) after) (a.seq b) where
  follows hH hd h := by
    rcases yields_andThen.mp h with ⟨env1, m1, hfirst, h⟩ | ⟨v, hf, hfirst⟩
    · obtain ⟨k, h1, hs1⟩ := ha.follows hH hd hfirst
      obtain ⟨l, h2, hs2⟩ := hb.follows hH (hs1.depth.trans hd) h
      exact ⟨k + l, .inl ⟨k, l, _, rfl, h1, h2⟩, hs1.trans hs2⟩
    · subst hf
      obtain ⟨k, h1, hs1⟩ := ha.follows hH hd hfirst
      exact ⟨k, .inr ⟨v, rfl, h1⟩, hs1⟩
  performs hd h hroom := by
    rcases h with ⟨k, l, t, rfl, h1, h2⟩ | ⟨v, rfl, h1⟩
    · obtain ⟨env1, m1, hyield1, rfl, hs1⟩ := ha.performs hd h1 (by omega)
      have hsteps := hs1.steps
      obtain ⟨env2, m2, hyield2, hon2, hs2⟩ := hb.performs (hs1.depth.trans hd) h2 (by omega)
      exact ⟨env2, m2, yields_andThen.mpr (.inl ⟨env1, m1, hyield1, hyield2⟩), hon2, hs1.trans hs2⟩
    · obtain ⟨env1, m1, hyield1, hon1, hs1⟩ := ha.performs hd h1 hroom
      exact ⟨env1, m1, yields_andThen.mpr (.inr ⟨v, rfl, hyield1⟩), hon1, hs1⟩

variable {act : Env → Run (Flow × Env)}

/-- What counts no step. -/
lemma matches_free {a : Step}
    (hfollows : ∀ env m f env' m', Yields (act env) m (f, env') m' →
      a (env.on m) f (env'.on m') ∧ m'.depth = m.depth ∧ m'.steps = m.steps)
    (hperforms : ∀ env m f u, a (env.on m) f u → ∃ env' m', Yields (act env) m (f, env') m' ∧
    env'.on m' = u) : Matches H limits d act (.free a) where
  follows _ _ h := by
    obtain ⟨ha, hdepth, hsteps⟩ := hfollows _ _ _ _ _ h
    exact ⟨0, ⟨rfl, ha⟩, .inl rfl, hdepth, hsteps⟩
  performs _ h _ := by
    obtain ⟨rfl, h⟩ := h
    obtain ⟨env', m', hyield, hon⟩ := hperforms _ _ _ _ h
    obtain ⟨_, hdepth, hsteps⟩ := hfollows _ _ _ _ _ hyield
    exact ⟨env', m', hyield, hon, .inl rfl, hdepth, hsteps⟩

/-- What only reads a value, and binds it or returns it. -/
lemma matches_read {reads : State → Value → Prop} {flow : Value → Flow} {bind : Env → Value → Env}
    {g : State → Value → State} (hbind : ∀ env m x, (bind env x).on m = g (env.on m) x)
    (hact : ∀ env m f env' m', Yields (act env) m (f, env') m' ↔
      ∃ x, reads (env.on m) x ∧ f = flow x ∧ env' = bind env x ∧ m' = m) :
    Matches H limits d act (.free fun s f u => ∃ x, reads s x ∧ f = flow x ∧ u = g s x) := by
  refine matches_free (fun env m f env' m' h => ?_) (fun env m f u h => ?_)
  · obtain ⟨x, hx, hf, rfl, rfl⟩ := (hact ..).mp h
    exact ⟨⟨x, hx, hf, hbind env _ x⟩, rfl, rfl⟩
  · obtain ⟨x, hx, hf, rfl⟩ := h
    exact ⟨bind env x, m, (hact ..).mpr ⟨x, hx, hf, rfl, rfl⟩, hbind env m x⟩

lemma matches_done {flow : Flow} :
    Matches H limits d (fun env => pure (flow, env)) (.free fun s f u => f = flow ∧ u = s) := by
  refine matches_free (fun env m f env' m' h => ?_) (fun env m f u h => ?_)
  · simp only [yields_pure, Prod.mk.injEq] at h
    obtain ⟨⟨hf, rfl⟩, rfl⟩ := h
    exact ⟨⟨hf, rfl⟩, rfl, rfl⟩
  · obtain ⟨rfl, rfl⟩ := h
    exact ⟨env, m, yields_pure.mpr ⟨rfl, rfl⟩, rfl⟩

/-- A store evaluates its value, then its indexes, and replaces the whole or a part of the
variable. -/
lemma yields_execInst_store {target : VarRef} {value : Expr} :
    Yields (c.execInst env (.store target indexes value)) m (f, env') m' ↔ ∃ x y,
      (env.on m).eval value = some x ∧ (env.on m).stored target indexes x = some y ∧ f = .next ∧
        Yields (write env target y) m env' m' := by
  simp only [execInst, yields_bind, yields_eval, eval_reader_ok, path_reader_ok, stored, and_assoc,
    exists_and_left, exists_eq_left]
  refine exists_congr fun x => and_congr_right fun _ => ?_
  cases (env.on m).path indexes with
  | none => simp
  | some ns =>
    cases ns with
    | nil => simp [and_comm]
    | cons n rest => simp [storeAt_reader_ok, and_comm (a := f = .next)]

lemma yields_execInst_call {target : Option LocalId} {callee : ProcId} :
    Yields (c.execInst env (.call target callee es)) m (f, env') m' ↔
      ∃ xs y, (env.on m).evalAll es = some xs ∧ Yields (c.call callee xs) m y m' ∧ f = .next ∧
        env' = env.bindResult target y := by
  simp only [execInst, yields_bind, yields_eval, evalAll_reader_ok]
  constructor
  · rintro ⟨xs, m1, ⟨hxs, rfl⟩, y, m2, hy, h⟩
    refine ⟨xs, y, hxs, ?_⟩
    rcases target with _ | id <;> rcases y with _ | x
    all_goals
      obtain ⟨h, rfl⟩ := yields_pure.mp h
      cases h
      exact ⟨hy, rfl, rfl⟩
  · rintro ⟨xs, y, hxs, hy, rfl, rfl⟩
    refine ⟨xs, m, ⟨hxs, rfl⟩, y, m', hy, ?_⟩
    rcases target with _ | id <;> rcases y with _ | x <;> exact yields_pure.mpr ⟨rfl, rfl⟩

lemma matches_execInst (i : Inst) (hcalls : i.isCall = true → CallsMatch H limits d c.call costs) :
    Matches H limits d (fun env => c.execInst env i) (i.cost costs) := by
  cases i with
  | assign target value | load target source indexes | cast source target ty =>
    rw [Inst.cost_of_not_call rfl]
    refine matches_read (fun env m x => env.set_on m target x) (fun env m f env' m' => ?_)
    simp only [execInst, yields_bind, yields_eval, yields_pure, Prod.mk.injEq, eval_reader_ok,
      load_reader_ok, convert_reader_ok, and_assoc, exists_and_left, exists_eq_left]
  | store target indexes value =>
    rw [Inst.cost_of_not_call rfl]
    refine matches_free (fun env m f env' m' h => ?_) (fun env m f u h => ?_)
    · obtain ⟨x, y, hx, hy, hf, hw⟩ := yields_execInst_store.mp h
      obtain ⟨hwrite, hcounts⟩ := yields_write hw
      exact ⟨⟨x, y, hx, hy, hf, hwrite⟩, hcounts⟩
    · obtain ⟨x, y, hx, hy, hf, rfl⟩ := h
      obtain ⟨env', m', hw⟩ := write_yields env m target y
      exact ⟨env', m', yields_execInst_store.mpr ⟨x, y, hx, hy, hf, hw⟩, (yields_write hw).1⟩
  | call target callee args =>
    refine ⟨fun {env m f env' m'} hH hd h => ?_, fun {env m f u n} hd h hroom => ?_⟩
    · obtain ⟨xs, y, hxs, hy, hf, rfl⟩ := yields_execInst_call.mp h
      obtain ⟨n, hcall, hs⟩ := (hcalls rfl).follows hH hd hy
      exact ⟨n, ⟨⟨xs, y, _, hxs, hcall, hf, env.bindResult_on m' target y⟩, fun hfalse => by cases hfalse⟩, hs⟩
    · obtain ⟨⟨xs, y, w, hxs, hcall, hf, rfl⟩, _⟩ := h
      obtain ⟨m', hyield, rfl, hs⟩ := (hcalls rfl).performs hd hcall hroom
      exact ⟨_, m', yields_execInst_call.mpr ⟨xs, y, hxs, hyield, hf, rfl⟩, env.bindResult_on m' target y, hs⟩
  | phi target arms =>
    rw [Inst.cost_of_not_call rfl]
    refine matches_free (fun env m f env' m' h => ?_) (fun env m f u h => ?_)
    · simp only [execInst, yields_bind, yields_phiValue_guarded, yields_pure, Prod.mk.injEq] at h
      obtain ⟨x, m1, ⟨⟨arm, hpick, hx⟩, rfl⟩, ⟨hf, rfl⟩, rfl⟩ := h
      exact ⟨⟨arm, x, hpick, hx, hf, env.set_on _ target x⟩, rfl, rfl⟩
    · obtain ⟨arm, x, hpick, hx, rfl, rfl⟩ := h
      refine ⟨env.set target x, m, ?_, env.set_on m target x⟩
      simp only [execInst, yields_bind, yields_phiValue_guarded, yields_pure]
      exact ⟨x, m, ⟨⟨arm, hpick, hx⟩, rfl⟩, rfl, rfl⟩
  | ret value =>
    rw [Inst.cost_of_not_call rfl]
    cases value with
    | none => exact matches_done
    | some value =>
      refine matches_read (fun env m x => rfl) (fun env m f env' m' => ?_)
      simp only [execInst, yields_bind, yields_eval, yields_pure, Prod.mk.injEq, eval_reader_ok,
        and_assoc, exists_and_left, exists_eq_left]

lemma Matches.tick (h : Matches H limits d act a) :
    Matches H limits d (fun env => do Run.step limits; act env) a.tick where
  follows {env m f env' m'} hH hd hyield := by
    simp only [yields_bind, yields_step] at hyield
    obtain ⟨_, _, ⟨hroom, rfl⟩, hyield⟩ := hyield
    obtain ⟨n, ha, hs⟩ := h.follows hH (by exact hd) hyield
    exact ⟨n + 1, ⟨n, rfl, ha⟩, hs.tick hroom⟩
  performs {env m f u n} hd ha hroom := by
    obtain ⟨k, rfl, ha⟩ := ha
    have hafter : k = 0 ∨ m.steps + 1 + k ≤ limits.maxSteps := by omega
    obtain ⟨env', m', hyield, hon, hs⟩ := h.performs (m := { m with steps := m.steps + 1 }) hd ha hafter
    refine ⟨env', m', ?_, hon, hs.tick (by omega)⟩
    simp only [yields_bind, yields_step]
    exact ⟨(), _, ⟨by omega, rfl⟩, hyield⟩

lemma matches_choose {thenRun elseRun : Env → Run (Flow × Env)} (ha : Matches H limits d thenRun a)
    (hb : Matches H limits d elseRun b) : Matches H limits d
    (fun env => do if ← c.eval env condition.evalBool then thenRun env else elseRun env)
      (.choose condition a b) where
  follows hH hd h := by
    simp only [yields_bind, yields_eval, evalBool_reader_ok] at h
    obtain ⟨x, m1, ⟨hx, rfl⟩, h⟩ := h
    cases x with
    | true =>
      obtain ⟨n, hstep, hs⟩ := ha.follows hH hd h
      exact ⟨n, .inl ⟨hx, hstep⟩, hs⟩
    | false =>
      obtain ⟨n, hstep, hs⟩ := hb.follows hH hd h
      exact ⟨n, .inr ⟨hx, hstep⟩, hs⟩
  performs hd h hroom := by
    simp only [yields_bind, yields_eval, evalBool_reader_ok]
    rcases h with ⟨hx, h⟩ | ⟨hx, h⟩
    · obtain ⟨env', m', hyield, hon⟩ := ha.performs hd h hroom
      exact ⟨env', m', ⟨true, _, ⟨hx, rfl⟩, hyield⟩, hon⟩
    · obtain ⟨env', m', hyield, hon⟩ := hb.performs hd h hroom
      exact ⟨env', m', ⟨false, _, ⟨hx, rfl⟩, hyield⟩, hon⟩

/-- The instructions of a block do on the machine what they mean. -/
lemma matches_execInsts (insts : List InstId) (hcalls : c.proc.HasCall insts → CallsMatch H c.limits d c.call costs) :
    Matches H c.limits d (fun env => c.execInsts false env insts)
      ((ofLines (insts.filterMap c.proc.line?)).cost costs) := by
  induction insts with
  | nil => exact matches_done
  | cons i rest ih =>
    have ih := ih fun h => hcalls (h.mono (subset_cons_self i rest))
    rw [filterMap_cons, line?]
    cases hi : c.proc.inst? i with
    | none =>
      simp only [execInsts, hi]
      exact ih
    | some data =>
      have hinst := matches_execInst data.inst fun hcall => hcalls ⟨i, mem_cons_self, data, hi, hcall⟩
      have hguarded : Matches H c.limits d
          (fun env => do if ← c.holds env data.predicate then c.execInst env data.inst else return (.next, env))
          (.guarded data.predicate (data.inst.cost costs)) := by
        cases data.predicate with
        | none => simpa [holds, Costed.guarded] using hinst
        | some predicate => exact matches_choose hinst matches_done
      have hline : ∀ env, c.execInsts false env (i :: rest) = Context.andThen (do
          Run.step c.limits
          if ← c.holds env data.predicate then c.execInst env data.inst else return (.next, env))
          fun env => c.execInsts false env rest := by
        intro env
        rw [execInsts, hi, Context.andThen, bind_assoc]
        simp only [Bool.false_and, Bool.false_eq_true, if_false, bind_assoc]
        refine congrArg _ (funext fun _ => congrArg _ (funext fun b => ?_))
        cases b <;> simp
      simp only [hline]
      exact hguarded.tick.andThen ih

lemma matches_join {id : NodeId} (edge : Edge)
    (hphis : ∀ i ∈ c.proc.blockInsts id, ∃ phi, c.proc.phi? i = some phi) :
    Matches H c.limits d (fun env => c.execBlock (some edge) env id)
      (.free (Step.join edge ((c.proc.blockInsts id).filterMap c.proc.phi?))) := by
  refine matches_free (fun env m f env' m' h => ?_) (fun env m f u h => ?_)
  · obtain ⟨values, hvalues, hf, rfl, rfl⟩ := (yields_execBlock_edge hphis).mp h
    refine ⟨⟨hf, ?_⟩, rfl, rfl⟩
    rw [join, hvalues, map_some, foldl_set_on]
  · obtain ⟨hf, hu⟩ := h
    obtain ⟨values, hvalues, rfl⟩ := map_eq_some_iff.mp hu
    exact ⟨_, m, (yields_execBlock_edge hphis).mpr ⟨values, hvalues, hf, rfl, rfl⟩, env.foldl_set_on m values⟩

/-- A loop does on the machine what it means: as every iteration costs a step, the bound on the
evaluations of the condition is no other limit than that on the steps. -/
lemma matches_execLoop {body : Env → Run (Flow × Env)} (hb : Matches H c.limits d body b) :
    Matches H c.limits d (fun env => do c.execLoop condition body (c.limits.maxSteps - (← get).steps + 1) env)
      (.Loops condition b.tick) where
  follows {env m f env' m'} hH hd h := by
    rw [yields_get_bind] at h
    generalize c.limits.maxSteps - m.steps + 1 = fuel at h
    induction fuel generalizing env m with
    | zero =>
      rw [execLoop, yields_throw] at h
      exact h.elim
    | succ fuel ih =>
      simp only [execLoop, yields_bind, yields_eval, evalBool_reader_ok] at h
      obtain ⟨x, m1, ⟨hx, rfl⟩, h⟩ := h
      cases x with
      | true =>
        simp only [if_true, yields_bind, yields_step] at h
        obtain ⟨_, _, ⟨hroom, rfl⟩, h⟩ := h
        rcases yields_andThen.mp h with ⟨env1, m1, hbody, h⟩ | ⟨v, rfl, hbody⟩
        · obtain ⟨k, h1, hs1⟩ := hb.follows hH (by exact hd) hbody
          obtain ⟨l, h2, hs2⟩ := ih (hs1.depth.trans hd) h
          exact ⟨k + 1 + l, .again hx ⟨k, rfl, h1⟩ h2, (hs1.tick hroom).trans hs2⟩
        · obtain ⟨k, h1, hs1⟩ := hb.follows hH (by exact hd) hbody
          exact ⟨k + 1, .ret hx ⟨k, rfl, h1⟩, hs1.tick hroom⟩
      | false =>
        simp only [Bool.false_eq_true, if_false, yields_pure, Prod.mk.injEq] at h
        obtain ⟨⟨rfl, rfl⟩, rfl⟩ := h
        exact ⟨0, .stop hx, .inl rfl, rfl, rfl⟩
  performs {env m f u n} hd h hroom := by
    have hfuel : n + 1 ≤ c.limits.maxSteps - m.steps + 1 := by omega
    simp only [yields_get_bind]
    generalize c.limits.maxSteps - m.steps + 1 = fuel at hfuel
    generalize hs : env.on m = s at h
    induction h generalizing env m fuel with
    | stop hx =>
      obtain _ | fuel := fuel
      · omega
      subst hs
      refine ⟨env, m, ?_, rfl, .inl rfl, rfl, rfl⟩
      simp only [execLoop, yields_bind, yields_eval, evalBool_reader_ok]
      exact ⟨false, m, ⟨hx, rfl⟩, yields_pure.mpr ⟨rfl, rfl⟩⟩
    | @again k l s t u f hx hbody _ ih =>
      obtain _ | fuel := fuel
      · omega
      subst hs
      obtain ⟨env1, m1, hyield1, rfl, hs1⟩ := hb.tick.performs hd hbody (by omega)
      have hsteps := hs1.steps
      obtain ⟨k, rfl, -⟩ := hbody
      obtain ⟨env2, m2, hyield2, hon2, hs2⟩ := ih (hs1.depth.trans hd) (by omega) fuel (by omega) rfl
      refine ⟨env2, m2, ?_, hon2, hs1.trans hs2⟩
      simp only [execLoop, yields_bind, yields_eval, evalBool_reader_ok]
      refine ⟨true, m, ⟨hx, rfl⟩, ?_⟩
      obtain ⟨x, m3, hstep, hyield1⟩ := yields_bind.mp hyield1
      exact yields_bind.mpr ⟨x, m3, hstep, yields_andThen.mpr (.inl ⟨env1, m1, hyield1, hyield2⟩)⟩
    | @ret k s t v hx hbody =>
      obtain _ | fuel := fuel
      · omega
      subst hs
      obtain ⟨env1, m1, hyield1, hon1, hs1⟩ := hb.tick.performs hd hbody hroom
      refine ⟨env1, m1, ?_, hon1, hs1⟩
      simp only [execLoop, yields_bind, yields_eval, evalBool_reader_ok]
      refine ⟨true, m, ⟨hx, rfl⟩, ?_⟩
      obtain ⟨x, m3, hstep, hyield1⟩ := yields_bind.mp hyield1
      exact yields_bind.mpr ⟨x, m3, hstep, yields_andThen.mpr (.inr ⟨v, rfl, hyield1⟩)⟩

/-- The nodes of a tree do on the machine what their code means. What calls mean matters only if
there is one. -/
lemma matches_execEach {t : Tree} {depth : Nat} (hcalls : c.proc.HasCall t.insts → CallsMatch H c.limits d c.call costs)
    (hfits : t.Fits c.proc) (hphis : ∀ b ∈ t.joins, ∀ i ∈ b.2, ∃ phi, c.proc.phi? i = some phi) (hdepth : t.height ≤ depth) :
    Matches H c.limits d (fun env => execEach (c.execNode depth) env t.roots) ((t.code c.proc).cost costs) := by
  induction t generalizing depth with
  | nil => exact matches_done
  | block id insts rest ih =>
    obtain ⟨hid, hrest⟩ := hfits
    simp only [height] at hdepth
    obtain _ | depth := depth
    · omega
    have hblock : Matches H c.limits d (fun env => c.execNode (depth + 1) env id)
        ((ofLines (insts.filterMap c.proc.line?)).cost costs) := by
      simp only [execNode, hid, execBlock, blockInsts]
      exact matches_execInsts insts fun h => hcalls (h.mono (subset_append_left _ _))
    simp only [roots, execEach, code, cost_append]
    exact hblock.andThen (ih (fun h => hcalls (h.mono (subset_append_right _ _))) hrest hphis (by omega))
  | branch id t e join phis rest iht ihe ih =>
    obtain ⟨⟨condition, hid⟩, ht, he, rfl, hrest⟩ := hfits
    simp only [height] at hdepth
    obtain _ | depth := depth
    · omega
    simp only [joins, mem_append, mem_cons] at hphis
    simp only [Tree.insts] at hcalls
    have hj := fun edge => matches_join (H := H) (d := d) (c := c) edge (hphis _ (.inr (.inl rfl)))
    have hthen := (iht (fun h => hcalls (h.mono fun i hi => by simp [hi])) ht (fun b hb =>
      hphis b (.inl (.inl hb))) (by omega : t.height ≤ depth)).andThen (hj .thenEnd)
    have helse := (ihe (fun h => hcalls (h.mono fun i hi => by simp [hi])) he (fun b hb =>
      hphis b (.inl (.inr hb))) (by omega : e.height ≤ depth)).andThen (hj .elseEnd)
    simp only [roots, execEach, code, cost]
    refine Matches.andThen ?_ (ih (fun h => hcalls (h.mono (subset_append_right _ _))) hrest
      (fun b hb => hphis b (.inr (.inr hb))) (by omega))
    simp only [execNode, hid, Procedure.condition, bind_some, Node.condition?, Option.getD_some]
    exact matches_choose hthen helse
  | loop id body join phis rest ihb ih =>
    obtain ⟨⟨condition, hid⟩, hb, rfl, hrest⟩ := hfits
    simp only [height] at hdepth
    obtain _ | depth := depth
    · omega
    simp only [joins, mem_append, mem_cons] at hphis
    simp only [Tree.insts] at hcalls
    have hj := fun edge => matches_join (H := H) (d := d) (c := c) edge (hphis _ (.inl rfl))
    have hbody := (ihb (fun h => hcalls (h.mono fun i hi => by simp [hi])) hb (fun b hb =>
      hphis b (.inr (.inl hb))) (by omega : body.height ≤ depth)).andThen (hj .back)
    simp only [roots, execEach, code, cost]
    refine Matches.andThen ?_ (ih (fun h => hcalls (h.mono (subset_append_right _ _))) hrest
      (fun b hb => hphis b (.inr (.inr hb))) (by omega))
    simp only [execNode, hid, Procedure.condition, bind_some, Node.condition?, Option.getD_some]
    exact (hj .entry).andThen (matches_execLoop hbody)

end Context

end ActorNet
