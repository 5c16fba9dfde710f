import ActorNet.Proofs.Semantics.Machine
import ActorNet.Proofs.Structure.Edits

/-!
# Reading another variable

`Procedure.replaceUses` substitutes: every read of the old variable becomes one of the new variable
and is counted, nothing else changes, and an expression has the value that it had with the old
variable bound as the new one (`Procedure.replaceUses_spec`).
-/

namespace ActorNet

open List

variable {old new : VarRef} {before after before' after' : List VarRef} {m n : Nat} {r r' : Reader}

/-- Every read of one variable has become a read of another one, and they were counted. -/
structure Repointed (old new : VarRef) (before after : List VarRef) (n : Nat) : Prop where
  reads : after = before.map fun v => if v = old then new else v
  counted : n = before.count old

namespace Repointed

lemma nil : Repointed old new [] [] 0 := ⟨rfl, rfl⟩

lemma append (h : Repointed old new before after m) (h' : Repointed old new before' after' n) :
    Repointed old new (before ++ before') (after ++ after') (m + n) where
  reads := by rw [h.reads, h'.reads, map_append]
  counted := by rw [h.counted, h'.counted, count_append]

lemma var (old new v : VarRef) : Repointed old new [v] [(VarRef.replace old new v).1] (VarRef.replace old new v).2 := by
  unfold VarRef.replace
  by_cases hv : v = old <;> constructor <;> simp [hv]

lemma not_mem (h : Repointed old new before after n) (hne : old ≠ new) : old ∉ after := by
  rw [h.reads, mem_map]
  rintro ⟨v, _, hv⟩
  split at hv
  · exact hne hv.symm
  · exact absurd hv ‹_›

end Repointed

mutual

lemma Expr.repointed (old new : VarRef) :
    ∀ e : Expr, Repointed old new e.uses (e.replaceVar old new).1.uses (e.replaceVar old new).2
  | .bool _ | .int _ _ | .str _ => .nil
  | .var v => .var old new v
  | .unary _ e _ => e.repointed old new
  | .binary _ lhs rhs _ => (lhs.repointed old new).append (rhs.repointed old new)
  | .list elems _ => repointedAll old new elems

lemma Expr.repointedAll (old new : VarRef) :
    ∀ es : List Expr, Repointed old new (usesOf es) (usesOf (replaceVars old new es).1) (replaceVars old new es).2
  | [] => .nil
  | e :: rest => (e.repointed old new).append (repointedAll old new rest)

end

lemma Expr.replaceVars_append (old new : VarRef) (es es' : List Expr) : replaceVars old new (es ++ es') =
    ((replaceVars old new es).1 ++ (replaceVars old new es').1, (replaceVars old new es).2 + (replaceVars old new es').2) := by
  induction es with
  | nil => simp [replaceVars]
  | cons e rest ih => simp [replaceVars, ih, Nat.add_assoc]

lemma Expr.usesOf_append (es es' : List Expr) : usesOf (es ++ es') = usesOf es ++ usesOf es' := by
  induction es with
  | nil => rfl
  | cons e rest ih => simp [usesOf, ih]

/-! ## The places of a procedure that read -/

/-- The operand of a phi and its guard. -/
def PhiArm.exprs (arm : PhiArm) : List Expr :=
  .var arm.var :: arm.guard.toList

/-- The expressions that an instruction evaluates, a variable that it reads as a whole among
them. -/
def Inst.exprs : Inst → List Expr
  | assign _ value => [value]
  | load _ source indexes => .var source :: indexes
  | store _ indexes value => indexes ++ [value]
  | call _ _ args => args
  | phi _ arms => arms.flatMap PhiArm.exprs
  | ret value => value.toList
  | cast source _ _ => [.var source]

def InstData.exprs (d : InstData) : List Expr :=
  d.inst.exprs ++ d.predicate.toList

def Node.exprs (n : Node) : List Expr :=
  n.condition?.toList

/-- The variables that an instruction in its place reads, with those of its predicate. -/
def InstData.reads (d : InstData) : List VarRef :=
  d.inst.uses ++ Expr.usesOf d.predicate.toList

lemma Inst.uses_eq (i : Inst) : i.uses = Expr.usesOf i.exprs := by
  cases i with
  | phi target arms =>
    rw [exprs, uses]
    induction arms with
    | nil => rfl
    | cons arm rest ih =>
      obtain ⟨edge, v, guard⟩ := arm
      rw [flatMap_cons, flatMap_cons, Expr.usesOf_append, ih]
      cases guard <;> simp [PhiArm.uses, PhiArm.exprs, Expr.usesOf, Expr.uses]
  | ret value => cases value <;> simp [uses, exprs, Expr.usesOf]
  | assign | load | store | call | cast => simp [uses, exprs, Expr.usesOf, Expr.usesOf_append, Expr.uses]

/-- Replacing in an instruction is replacing in the expressions that it evaluates. -/
lemma Inst.exprs_replaceUse (old new : VarRef) (i : Inst) :
    ((i.replaceUse old new).1.exprs, (i.replaceUse old new).2) = Expr.replaceVars old new i.exprs := by
  cases i with
  | phi target arms =>
    simp only [replaceUse, exprs]
    induction arms with
    | nil => rfl
    | cons arm rest ih =>
      obtain ⟨edge, v, guard⟩ := arm
      rw [flatMap_cons, Expr.replaceVars_append, ← ih]
      cases guard <;> simp [replaceArms, PhiArm.replaceUse, PhiArm.exprs, Expr.replaceVars, Expr.replaceVar]
  | ret value => cases value <;> simp [replaceUse, exprs, Expr.replaceVars]
  | assign | load | store | call | cast =>
    simp [replaceUse, exprs, Expr.replaceVars, Expr.replaceVars_append, Expr.replaceVar]

lemma InstData.exprs_replaceUse (old new : VarRef) (d : InstData) :
    ((d.replaceUse old new).1.exprs, (d.replaceUse old new).2) = Expr.replaceVars old new d.exprs := by
  obtain ⟨inst, block, predicate⟩ := d
  show _ = Expr.replaceVars old new (inst.exprs ++ predicate.toList)
  rw [Expr.replaceVars_append, ← Inst.exprs_replaceUse]
  cases predicate <;> simp [replaceUse, exprs, Expr.replaceVars]

lemma Node.exprs_replaceUse (old new : VarRef) (n : Node) :
    ((n.replaceUse old new).1.exprs, (n.replaceUse old new).2) = Expr.replaceVars old new n.exprs := by
  cases n <;> simp [replaceUse, exprs, condition?, Expr.replaceVars]

lemma Inst.writes?_replaceUse (old new : VarRef) (i : Inst) : (i.replaceUse old new).1.writes? = i.writes? := by
  cases i with
  | ret value => cases value <;> rfl
  | assign | load | store | call | phi | cast => rfl

/-! ## Evaluation -/

/-- Two results that are equal, or that are faults of one procedure about unbound variables. -/
def SameButName {α : Type} (a b : Except Fault α) : Prop :=
  a = b ∨ ∃ proc x y, a = .error (.unbound proc x) ∧ b = .error (.unbound proc y)

lemma SameButName.bind {α β : Type} {a b : Except Fault α} {f g : α → Except Fault β} (h : SameButName a b)
    (hfg : ∀ x, SameButName (f x) (g x)) : SameButName (a >>= f) (b >>= g) := by
  rcases h with rfl | ⟨proc, x, y, rfl, rfl⟩
  · cases a with
    | ok x => exact hfg x
    | error fault => exact .inl rfl
  · exact .inr ⟨proc, x, y, rfl, rfl⟩

/-- A reader gives for one variable what another reader gives for a second one, and agrees with it
elsewhere. -/
structure Reader.Binds (old new : VarRef) (r r' : Reader) : Prop where
  proc : r'.proc = r.proc
  bound : SameButName (r.read new) (r'.read old)
  others : ∀ v, v ≠ old → r'.read v = r.read v

/-- An expression has the value that another one had with the old variable bound as the new one. -/
def Expr.Rereads (old new : VarRef) (e e' : Expr) : Prop :=
  ∀ r r', Reader.Binds old new r r' → SameButName (e'.eval r) (e.eval r')

mutual

lemma Expr.eval_replaceVar (h : r.Binds old new r') :
    ∀ e : Expr, SameButName ((e.replaceVar old new).1.eval r) (e.eval r')
  | .bool _ | .str _ => .inl rfl
  | .int _ ty => by cases ty <;> exact .inl rfl
  | .var v => by
    simp only [replaceVar, eval, VarRef.replace]
    by_cases hv : v = old
    · rw [if_pos hv, hv]
      exact h.bound
    · rw [if_neg hv, h.others v hv]
      exact .inl rfl
  | .unary op e ty => by
    simp only [replaceVar, eval]
    rw [h.proc]
    exact (eval_replaceVar h e).bind fun x => .inl rfl
  | .binary op lhs rhs ty => by
    simp only [replaceVar, eval]
    rw [h.proc]
    refine (eval_replaceVar h lhs).bind fun x => ?_
    have hrhs := eval_replaceVar h rhs
    cases op with
    | and | or =>
      refine SameButName.bind (.inl rfl) fun b => ?_
      cases b with
      | true | false => first | exact .inl rfl | exact hrhs.bind fun y => .inl rfl
    | _ => exact hrhs.bind fun y => .inl rfl
  | .list elems ty => by
    simp only [replaceVar, eval]
    exact (evalAll_replaceVars h elems).bind fun x => .inl rfl

lemma Expr.evalAll_replaceVars (h : r.Binds old new r') :
    ∀ es : List Expr, SameButName (evalAll r (replaceVars old new es).1) (evalAll r' es)
  | [] => .inl rfl
  | e :: rest => by
    simp only [replaceVars, evalAll]
    exact (eval_replaceVar h e).bind fun x => (evalAll_replaceVars h rest).bind fun y => .inl rfl

end

lemma Expr.rereads_replaceVars (old new : VarRef) (es : List Expr) :
    Forall₂ (Rereads old new) es (replaceVars old new es).1 := by
  induction es with
  | nil => exact .nil
  | cons e rest ih => exact .cons (fun r r' h => eval_replaceVar h e) ih

lemma Repointed.foldr {α : Type} {f g : α → List VarRef} {k : α → Nat} (xs : List α)
    (h : ∀ x, Repointed old new (f x) (g x) (k x)) :
    xs.foldr (fun x n => k x + n) 0 = (xs.flatMap f).count old := by
  induction xs with
  | nil => rfl
  | cons x rest ih => rw [foldr_cons, flatMap_cons, count_append, ih, (h x).counted]

lemma InstData.repointed (old new : VarRef) (d : InstData) :
    Repointed old new d.reads (d.replaceUse old new).1.reads (d.replaceUse old new).2 := by
  have hreads : ∀ d : InstData, d.reads = Expr.usesOf d.exprs := fun d => by
    rw [reads, Inst.uses_eq, exprs, Expr.usesOf_append]
  obtain ⟨hexprs, hcount⟩ := Prod.mk.inj (d.exprs_replaceUse old new)
  rw [hreads, hreads, hexprs, hcount]
  exact Expr.repointedAll old new d.exprs

lemma Node.repointed (old new : VarRef) (n : Node) : Repointed old new (Expr.usesOf n.exprs)
    (Expr.usesOf (n.replaceUse old new).1.exprs) (n.replaceUse old new).2 := by
  obtain ⟨hexprs, hcount⟩ := Prod.mk.inj (n.exprs_replaceUse old new)
  rw [hexprs, hcount]
  exact Expr.repointedAll old new n.exprs

/-- Replacing the uses of a variable changes and counts all reads of it, at every place of a
procedure. Nothing else changes, and what is evaluated there has the value that it had with the old
variable bound as the new one. -/
theorem Procedure.replaceUses_spec (p : Procedure) (hne : old ≠ new) : ∃ q,
    Yields (replaceUses old new) p ((p.insts.values.flatMap InstData.reads).count old +
      (p.nodes.values.flatMap fun n => Expr.usesOf n.exprs).count old) q ∧
    (∀ i d', q.inst? i = some d' → ∃ d, p.inst? i = some d ∧ old ∉ d'.reads ∧ d'.inst.writes? = d.inst.writes? ∧
      Forall₂ (Expr.Rereads old new) d.exprs d'.exprs) ∧
    (∀ k n', q.node? k = some n' → ∃ n, p.node? k = some n ∧ old ∉ Expr.usesOf n'.exprs ∧
      Forall₂ (Expr.Rereads old new) n.exprs n'.exprs) ∧
    (∀ i, (q.inst? i).isSome = (p.inst? i).isSome) ∧ (∀ k, (q.node? k).isSome = (p.node? k).isSome) ∧
    { q with insts := p.insts, nodes := p.nodes } = p := by
  refine ⟨_, yields_modifyGet.mpr ⟨?_, rfl⟩, ?_, ?_, ?_, ?_, rfl⟩
  · rw [replacedUses, Repointed.foldr _ (InstData.repointed old new), Repointed.foldr _ (Node.repointed old new)]
  · intro i d' hd'
    rw [inst?, Arena.get?_map] at hd'
    obtain ⟨d, hd, rfl⟩ := map_eq_some_iff.mp hd'
    refine ⟨d, hd, (d.repointed old new).not_mem hne, ?_, ?_⟩
    · obtain ⟨inst, block, predicate⟩ := d
      cases predicate <;> exact inst.writes?_replaceUse old new
    · rw [(Prod.mk.inj (d.exprs_replaceUse old new)).1]
      exact Expr.rereads_replaceVars old new d.exprs
  · intro k n' hn'
    rw [node?, Arena.get?_map] at hn'
    obtain ⟨n, hn, rfl⟩ := map_eq_some_iff.mp hn'
    refine ⟨n, hn, (n.repointed old new).not_mem hne, ?_⟩
    rw [(Prod.mk.inj (n.exprs_replaceUse old new)).1]
    exact Expr.rereads_replaceVars old new n.exprs
  all_goals
    intro i
    simp only [inst?, node?, Arena.get?_map, Option.isSome_map]

/-- A local is added to itself, if it holds. -/
def Procedure.twice : Procedure :=
  { name := "twice", returnTy := .void, nodes := .full [.block [⟨0⟩]], body := [⟨0⟩]
    insts := .full [{ inst := .assign ⟨1⟩ (.binary .add (.var (.loc ⟨0⟩)) (.var (.loc ⟨0⟩)) (.int 8)), block := ⟨0⟩
                      predicate := some (.var (.loc ⟨0⟩)) }] }

theorem Procedure.replaceUses_spec_twice : VarRef.loc ⟨0⟩ ≠ .glob ⟨0⟩ ∧
    ∃ q, Yields (replaceUses (.loc ⟨0⟩) (.glob ⟨0⟩)) twice 3 q ∧ ∃ d, q.inst? ⟨0⟩ = some d ∧ .loc ⟨0⟩ ∉ d.reads := by
  have hne : VarRef.loc ⟨0⟩ ≠ .glob ⟨0⟩ := by decide
  obtain ⟨q, hy, hinsts, _, hlive, _⟩ := twice.replaceUses_spec hne
  obtain ⟨d, hd⟩ := Option.isSome_iff_exists.mp ((hlive ⟨0⟩).trans rfl)
  obtain ⟨_, _, hreads, _⟩ := hinsts ⟨0⟩ d hd
  exact ⟨hne, q, hy, d, hd, hreads⟩

end ActorNet
