import ActorNet.Proofs.PhiLowering.Preservation
import ActorNet.Proofs.Predication.Preservation

/-!
# Two routes to code without phis

Phis can be lowered where they stand, to copies at the ends of branches, or after predication, to
guarded copies in a single block. In a procedure without loops that defines every local at most
once, no target of a phi is bound when the phi is reached. So no copy overwrites what a later one
reads, and no guard reads the target of its phi: if it did, the run would have failed at the phi or
at the condition. Both routes do what the procedure did, without any condition on the order of phis
or on their operands (`lower_sim_once`).
-/

namespace ActorNet

open Code List Procedure State Step

variable {edge : Edge} {f : Flow} {i : Inst} {ids ids' : List LocalId} {predicate : Option Expr}
  {p p' : Procedure} {s u : State} {a : Step} {t : Tree}

variable {unset : LocalId → Prop} {value : LocalId → VarRef → Expr} {calls : CallStep}

/-! ## States in which locals are not written yet -/

/-- The same state, in which neither the locals that count as unset nor the given locals are
bound. -/
def Unwritten (unset : LocalId → Prop) (ids : List LocalId) (s s' : State) : Prop :=
  s' = s ∧ s.Clear unset ∧ s.Fresh ids

lemma Unwritten.of_subset {s' : State} (h : Unwritten unset ids s s') (hsub : ids' ⊆ ids) : Unwritten unset ids' s s' :=
  ⟨h.1, h.2.1, fun id hid => h.2.2 id (hsub hid)⟩

/-- The same steps, where the first one writes none of the locals that are left. -/
lemma sim_of_unwritten {b : Step}
    (h : ∀ s f u, s.Clear unset → s.Fresh ids → a s f u → b s f u ∧ u.Clear unset ∧ u.Fresh ids') :
    Step.Sim (Unwritten unset ids) (Unwritten unset ids') (fun s s' => s' = s) a b := by
  rintro s s' f u ⟨rfl, hclear, hfresh⟩ ha
  obtain ⟨hb, hu⟩ := h s' f u hclear hfresh ha
  refine ⟨u, hb, ?_⟩
  cases f with
  | next => exact ⟨rfl, hu⟩
  | ret v => rfl

lemma Step.Sim.of_pre {R R' Q E : State → State → Prop} {b : Step} (h : Sim R Q E a b)
    (hpre : ∀ s s', R' s s' → R s s') : Sim R' Q E a b :=
  fun s s' f u hs ha => h s s' f u (hpre s s' hs) ha

/-! ## Phis whose target is not bound -/

variable {φ : Phi} {phis : List Phi}

namespace Phi

lemma TwoWay.tagged (h : φ.TwoWay) : ∀ edge ∈ [Edge.thenEnd, Edge.elseEnd], φ.Tagged edge := by
  intro edge hedge
  have hcount : φ.arms.countP (·.edge = edge) = (φ.arms.map (·.edge)).countP (· = edge) := by
    rw [countP_map]
    rfl
  rw [Tagged, hcount]
  rcases mem_pair.mp hedge with rfl | rfl <;> rcases h with h | h <;> rw [h] <;> rfl

lemma inOrder_of_fresh {values : List (LocalId × Value)}
    (hvalues : s.phiValues edge phis = some values) (hfresh : s.Fresh (phis.map (·.target))) : InOrder edge phis := by
  have hread : ∀ {phis : List Phi} {values : List (LocalId × Value)}, s.phiValues edge phis = some values →
      ∀ ψ ∈ phis, ∀ v, ψ.operand edge = some v → (s.read v).isSome := by
    intro phis
    induction phis with
    | nil => exact nofun
    | cons φ rest ih =>
      intro values hvalues ψ hψ v hv
      obtain ⟨w, x, values', hw, hx, hrest, -⟩ := phiValues_cons hvalues
      rcases mem_cons.mp hψ with rfl | hψ
      · rw [hw, Option.some.injEq] at hv
        rw [← hv, hx]
        rfl
      · exact ih hrest ψ hψ v hv
  refine pairwise_of_forall_mem_list fun φ hφ ψ hψ hoperand => ?_
  have hbound := hread hvalues ψ hψ _ hoperand
  rw [read_loc, hfresh φ.target (mem_map_of_mem hφ)] at hbound
  cases hbound

/-- A phi outside of joins whose guards fail with its predicate, and exclude each other where its
target is not bound. -/
structure Guarded (φ : Phi) (predicate : Option Expr) : Prop where
  skip : ∀ (s : State) (p : Expr), predicate = some p → s.test p = some false →
    ∀ arm ∈ φ.arms, ∀ guard, arm.guard = some guard → s.test guard = some false
  apart : ∀ s : State, s.locals φ.target = none → φ.ApartAt s

end Phi

namespace Code

/-- An instruction can be lowered where it writes a local that is not bound. -/
structure LineOnce (value : LocalId → VarRef → Expr) (unset : LocalId → Prop) (i : Inst)
    (predicate : Option Expr) : Prop where
  binds : ∀ id, i.binds? = some id → ¬ unset id
  phi : ∀ target arms, i = .phi target arms → Phi.Guarded ⟨target, arms⟩ predicate ∧ Copied value unset ⟨target, arms⟩

/-- Code without loops can be lowered where it writes locals that are not bound. -/
def LowerableOnce (value : LocalId → VarRef → Expr) (unset : LocalId → Prop) : Code → Prop :=
  Forall (LineOnce value unset)
    (fun _ phis => ∀ φ ∈ phis, φ.TwoWay ∧ Copied value unset φ ∧ ¬ unset φ.target) (fun _ _ => False)

end Code

lemma Inst.step_fresh (h : i.step calls s f u) (hfresh : s.Fresh ids)
    (hdisjoint : ∀ id ∈ ids, i.writesLocal? ≠ some id) : u.Fresh ids := by
  intro id hid
  rw [Inst.step_frame h (hdisjoint id hid), hfresh id hid]

/-- What stands for an instruction does what the instruction did, where it writes a local that is
not bound. -/
lemma lowerLine_once (hi : Code.LineOnce value unset i predicate) (hnodup : (i.writesLocal?.toList ++ ids).Nodup) :
    Step.Sim (Unwritten unset (i.writesLocal?.toList ++ ids)) (Unwritten unset ids) (fun s s' => s' = s)
      (Step.guarded predicate (i.step calls)) ((ofLines (lowerLine value i predicate)).step calls) := by
  have hdisjoint : ∀ id ∈ ids, i.writesLocal? ≠ some id := fun id hid hw =>
    (nodup_append.mp hnodup).2.2 id (Option.mem_toList.mpr hw) id hid rfl
  refine sim_of_unwritten fun s f u hclear hfresh h => ?_
  have hids : s.Fresh ids := fun id hid => hfresh id (mem_append_right _ hid)
  have hkept : u.Clear unset ∧ u.Fresh ids := by
    rcases guarded_cases h with h | ⟨_, rfl⟩
    · exact ⟨Inst.step_clear h hclear hi.binds, Inst.step_fresh h hids hdisjoint⟩
    · exact ⟨hclear, hids⟩
  refine ⟨?_, hkept⟩
  cases i with
  | phi target arms =>
    obtain ⟨hguarded, hcopied⟩ := hi.phi target arms rfl
    have htarget : s.locals target = none := by
      refine hfresh target (mem_append_left _ ?_)
      simp [Inst.writesLocal?, Inst.writes?, Inst.def?, VarRef.local?]
    have hruns : (Inst.phi target arms).step calls s f u →
        (ofLines (lowerLine value (.phi target arms) predicate)).step calls s f u := by
      rintro ⟨arm, x, hpick, hx, rfl, rfl⟩
      exact guarded_copies hclear (hguarded.apart s htarget) hcopied hpick hx
    cases predicate with
    | none => exact hruns h
    | some p =>
      rcases h with ⟨_, h⟩ | ⟨hp, rfl, rfl⟩
      · exact hruns h
      · exact guarded_skip (some p) (hguarded.skip u p rfl hp)
  | _ =>
    rw [lowerLine, ofLines, ofLines, step, step, seq_skip]
    · exact h
    · intro _ _ hphi
      cases hphi

/-- The copies at the end of an edge do what the phis did, where these write locals that are not
bound. -/
lemma copies_once (hedge : edge ∈ [Edge.thenEnd, Edge.elseEnd])
    (hphis : ∀ φ ∈ phis, φ.TwoWay ∧ Code.Copied value unset φ ∧ ¬ unset φ.target)
    (hnodup : (phis.map (·.target) ++ ids).Nodup) :
    Step.Sim (Unwritten unset (phis.map (·.target) ++ ids)) (Unwritten unset ids)
      (fun s s' => s' = s) (Step.join edge phis) ((copies value edge phis).step calls) := by
  refine sim_of_unwritten fun s f u hclear hfresh h => ?_
  have htargets : s.Fresh (phis.map (·.target)) := fun id hid => hfresh id (mem_append_left _ hid)
  obtain ⟨values, hvalues, -⟩ := map_eq_some_iff.mp h.2
  have hj : Code.JoinLowerable value unset [edge] phis :=
    ⟨fun φ hφ => forall_mem_singleton.mpr ((hphis φ hφ).1.tagged edge hedge),
      forall_mem_singleton.mpr (Phi.inOrder_of_fresh hvalues htargets), fun φ hφ => (hphis φ hφ).2.1,
      fun φ hφ => (hphis φ hφ).2.2⟩
  refine ⟨join_copies hclear hj mem_cons_self h, join_clear hclear hj h, fun id hid => ?_⟩
  rw [join_frame h fun hmem => (nodup_append.mp hnodup).2.2 id hmem id hid rfl]
  exact hfresh id (mem_append_right _ hid)

/-- Lowered code does what the code did, if it has no loops and no local that it writes is bound.
The induction is on the code; `ids` are the locals that are written after it. -/
theorem lower_sim_once {c : Code} (hc : c.LowerableOnce value unset)
    (hnodup : (c.writes ++ ids).Nodup) : Step.Sim (Unwritten unset (c.writes ++ ids))
      (Unwritten unset ids) (fun s s' => s' = s) (c.step calls) ((c.lower value).step calls) := by
  induction c generalizing ids with
  | done => exact sim_of_unwritten fun s f u hclear hfresh ⟨hf, hu⟩ => ⟨⟨hf, hu⟩, hu ▸ hclear, hu ▸ hfresh⟩
  | inst i predicate rest ih =>
    rw [writes_inst, List.append_assoc] at hnodup ⊢
    rw [lower, step_append]
    exact (lowerLine_once hc.1 hnodup).seq (ih hc.2 (nodup_append.mp hnodup).2.1)
  | branch condition t e phis rest iht ihe ih =>
    obtain ⟨hphis, ht, he, hrest⟩ := hc
    rw [writes_branch] at hnodup ⊢
    -- what is written after each of the branches
    let after := phis.map (·.target) ++ (rest.writes ++ ids)
    have hafter : after.Nodup ∧ (t.writes ++ after).Nodup ∧ (e.writes ++ after).Nodup := by
      simp only [after, List.append_assoc, nodup_append, mem_append] at hnodup ⊢
      grind
    rw [lower, step, step, step_append, step_append, join_nil, join_nil,
      seq_skip, seq_skip]
    refine Step.Sim.seq (Q := Unwritten unset (rest.writes ++ ids)) (Step.Sim.choose ?_ ?_ ?_)
      (ih hrest (nodup_append.mp hafter.1).2.1)
    · rintro s s' ⟨rfl, _⟩ x hx
      exact hx
    · refine ((iht ht hafter.2.1).seq (copies_once (by simp) hphis hafter.1)).of_pre fun s s' h => h.of_subset ?_
      intro id hid
      simp only [after, mem_append] at hid ⊢
      tauto
    · refine ((ihe he hafter.2.2).seq (copies_once (by simp) hphis hafter.1)).of_pre fun s s' h => h.of_subset ?_
      intro id hid
      simp only [after, mem_append] at hid ⊢
      tauto
  | loop condition body phis rest _ _ => exact hc.1.elim

/-! ## Phis that predication has guarded -/

namespace State

variable {c : Expr} {b : Bool}

lemma test_of_negate (h : s.test c.negate = some b) : s.test c = some !b := by
  rw [test_eq_some, eval_eq_some] at h ⊢
  rw [Expr.negate, Expr.eval_unary_ok] at h
  obtain ⟨x, hx, hb⟩ := h
  cases x with
  | bool a =>
    cases hb
    rw [hx, Bool.not_not]
  | _ => cases hb

lemma of_test_under (h : s.test (under predicate c) = some true) : s.Holds predicate ∧ s.test c = some true := by
  cases predicate with
  | none => exact ⟨trivial, h⟩
  | some p =>
    rw [test_eq_some, eval_eq_some, under, Expr.both, Expr.eval_and_ok] at h
    rcases h with ⟨_, hfalse⟩ | ⟨hp, b, hc, hb⟩
    · cases hfalse
    · cases hb
      exact ⟨test_eq_some.mpr (eval_eq_some.mpr hp), test_eq_some.mpr (eval_eq_some.mpr hc)⟩

/-- The predicates of two branches exclude each other. -/
lemma test_under_negate : (s.test (under predicate c) = some true → s.test (under predicate c.negate) = some false) ∧
    (s.test (under predicate c.negate) = some true → s.test (under predicate c) = some false) := by
  constructor
  · intro h
    obtain ⟨hp, hc⟩ := of_test_under h
    exact test_under hp (test_negate hc)
  · intro h
    obtain ⟨hp, hc⟩ := of_test_under h
    exact test_under hp (test_of_negate hc)

end State

/-- A phi of a conditional is guarded by the predicates of the branches once it has left its
join. -/
lemma Phi.TwoWay.guarded (h : φ.TwoWay) {predicate : Option Expr} {c : Expr} (hp : ReadsLocals? predicate)
    (hc : c.ReadsLocals) : (φ.guarded (under predicate c) (under predicate c.negate)).Guarded predicate := by
  obtain ⟨target, arms⟩ := φ
  obtain ⟨x, y, rfl, hedges⟩ := h.arms_eq
  have hthen := readsLocals_under hp hc
  have helse := readsLocals_under hp hc.negate
  -- a write to the target leaves the value of the other predicate alone
  have hafter : ∀ {s : State} {g : Expr}, s.locals target = none → g.ReadsLocals → s.test g = some false →
      ∀ x, (s.set target x).test g = some false :=
    fun htarget hg htest x => ((State.Keeps.refl _).set htarget x).test hg htest
  constructor
  · intro s p hpredicate hfalse arm harm guard hguard
    subst hpredicate
    have hboth : guard = p.both c ∨ guard = p.both c.negate := by
      simp only [Phi.guarded, map_cons, map_nil, mem_cons, not_mem_nil, or_false] at harm
      rcases harm with rfl | rfl <;> rcases hedges with ⟨hx, hy⟩ | ⟨hx, hy⟩ <;> simp_all [guardArm, under]
    rcases hboth with rfl | rfl
    · exact test_both_of_false hfalse c
    · exact test_both_of_false hfalse c.negate
  · intro s htarget
    simp only [Phi.ApartAt, Phi.guarded, map_cons, map_nil, pairwise_cons, mem_singleton,
      forall_eq, not_mem_nil, false_implies, implies_true, List.Pairwise.nil, and_true]
    rcases hedges with ⟨hx, hy⟩ | ⟨hx, hy⟩
    · simp only [guardArm, hx, hy, Option.some.injEq]
      rintro _ _ rfl rfl htest
      exact hafter htarget helse (test_under_negate.1 htest)
    · simp only [guardArm, hx, hy, Option.some.injEq]
      rintro _ _ rfl rfl htest
      exact hafter htarget hthen (test_under_negate.2 htest)

namespace Code

/-- Code of which both routes preserve the meaning: there are no loops, no predicates and no phis
outside of joins, conditions read no state variable, and the phis of joins have one operand for each
branch. -/
def Routable : Code → Prop :=
  Forall (fun i predicate => predicate = none ∧ i.isPhi = false)
    (fun condition phis => condition.ReadsLocals ∧ ∀ φ ∈ phis, φ.TwoWay) (fun _ _ => False)

lemma Routable.predicable {c : Code} (h : c.Routable) : c.Predicable :=
  h.and_imp h (fun _ _ hline _ => hline.1) (fun _ _ hbranch _ => hbranch) fun _ _ hfalse _ => hfalse

/-- Lowering takes the phis of the code one by one. -/
def PhisLowerable : Code → Prop :=
  Forall (fun i predicate => ∀ target arms, i = .phi target arms → Phi.Guarded ⟨target, arms⟩ predicate)
    (fun _ phis => ∀ φ ∈ phis, φ.TwoWay) (fun _ _ => False)

lemma Routable.phisLowerable {c : Code} (h : c.Routable) : c.PhisLowerable := by
  refine h.and_imp h (fun i _ hline _ target arms hphi => ?_) (fun _ _ hbranch _ => hbranch.2)
    fun _ _ hfalse _ => hfalse
  rw [hphi] at hline
  cases hline.2

lemma Routable.phisLowerable_flatten {c : Code} (h : c.Routable) (hp : ReadsLocals? predicate) :
    (ofLines (c.flatten predicate)).PhisLowerable := by
  rw [PhisLowerable, forall_ofLines]
  induction c generalizing predicate with
  | done => exact forall_mem_nil _
  | inst i own rest ih =>
    obtain ⟨⟨_, hi⟩, hrest⟩ := h
    intro line hline target arms hphi
    rcases mem_cons.mp hline with rfl | hline
    · obtain rfl : i = .phi target arms := hphi
      cases hi
    · exact ih hrest hp line hline target arms hphi
  | branch condition t e phis rest iht ihe ih =>
    obtain ⟨⟨hcond, hphis⟩, ht, he, hrest⟩ := h
    intro line hline target arms hphi
    simp only [flatten, mem_append, mem_map] at hline
    rcases hline with ((hline | hline) | ⟨φ, hφ, rfl⟩) | hline
    · exact iht ht (fun _ heq => Option.some.inj heq ▸ readsLocals_under hp hcond) line hline target arms hphi
    · exact ihe he (fun _ heq => Option.some.inj heq ▸ readsLocals_under hp hcond.negate) line hline target arms hphi
    · cases hphi
      exact (hphis φ hφ).guarded hp hcond
    · exact ih hrest hp line hline target arms hphi
  | loop condition body phis rest _ _ => exact h.1.elim

lemma Routable.writes_flatten {c : Code} (h : c.Routable) (predicate : Option Expr) :
    (ofLines (c.flatten predicate)).writes = c.writes := by
  rw [writes, insts_ofLines]
  induction c generalizing predicate with
  | done => rfl
  | inst i own rest ih =>
    rw [writes_inst, flatten, map_cons, ← ih h.2 predicate]
    cases hw : i.writesLocal? with
    | none | some => simp [hw]
  | branch condition t e phis rest iht ihe ih =>
    obtain ⟨_, ht, he, hrest⟩ := h
    have htargets : ((phis.map fun φ => ((φ.guarded (under predicate condition)
        (under predicate condition.negate)).inst, predicate)).map (·.1)).filterMap Inst.writesLocal? =
        phis.map (·.target) := by
      rw [List.map_map, filterMap_map, ← filterMap_eq_map]
      exact filterMap_congr fun φ _ => rfl
    simp only [flatten, map_append, filterMap_append, writes_branch, iht ht, ihe he, ih hrest, htargets]
  | loop condition body phis rest _ _ => exact h.1.elim

lemma storesLocal?_flatten {c : Code} (h : ∀ i ∈ c.insts, i.storesLocal? = none) (predicate : Option Expr) :
    ∀ i ∈ (ofLines (c.flatten predicate)).insts, i.storesLocal? = none := by
  rw [insts_ofLines, forall_mem_map]
  induction c generalizing predicate with
  | done => exact forall_mem_nil _
  | inst i own rest ih =>
    rw [insts, forall_mem_cons] at h
    exact forall_mem_cons.mpr ⟨h.1, ih h.2 predicate⟩
  | branch condition t e phis rest iht ihe ih =>
    simp only [insts, forall_mem_append] at h
    simp only [flatten, forall_mem_append, forall_mem_map]
    exact ⟨⟨⟨iht h.1.1.1 _, ihe h.1.1.2 _⟩, fun φ _ => rfl⟩, ih h.2 _⟩
  | loop condition body phis rest _ ih =>
    simp only [insts, forall_mem_append] at h
    exact ih h.2 predicate

end Code

/-! ## Procedures -/

namespace Procedure

/-- What the code under a tree does when the procedure is entered, the code of another procedure
does. -/
def RunsIn (t : Tree) (p p' : Procedure) : Prop :=
  p'.native = p.native ∧ p'.params = p.params ∧ ∃ t' : Tree, t'.Spans p' ∧
    ∀ (calls : CallStep) (w : World) (id : ProcId) (args : List Value) (f : Flow) (u : State),
      (t.code p).step calls (w.enter id p args) f u → (t'.code p').step calls (w.enter id p args) f u

lemma written_eq_definedLocals (h : ∀ d ∈ p.allInsts, d.inst.storesLocal? = none) : p.written = p.definedLocals := by
  have hdefined : p.definedLocals = p.allInsts.filterMap (·.inst.def?) := by
    rw [allInsts, filterMap_filterMap]
    rfl
  rw [hdefined]
  refine filterMap_congr fun d hd => ?_
  have hstores := h d hd
  cases hi : d.inst with
  | store target indexes value =>
    rw [hi] at hstores
    exact hstores
  | assign | load | cast | phi => rfl
  | call target callee args => cases target <;> rfl
  | ret => rfl

/-- A procedure without loops in which nothing is stored to a local does after lowering what it did
before, if every local is written at most once. -/
lemma runsIn_removePhis {n : Nat} (h : Yields removePhis p n p') (ht : t.Spans p)
    (hsingle : p.SingleAssignment) (hstores : ∀ i ∈ (t.code p).insts, i.storesLocal? = none)
    (hphis : (t.code p).PhisLowerable) : RunsIn t p p' := by
  obtain ⟨hnative, hparams, t', ht', hcode⟩ := removePhis_code h ht
  refine ⟨hnative, hparams, t', ht', fun calls w id args f u hstep => ?_⟩
  have hinsts := insts_code_eq ht
  have hunstored : ∀ id, id ∉ p.storedLocals := by
    intro id hid
    obtain ⟨d, hd, hstored⟩ := mem_filterMap.mp hid
    have hnone := hstores d.inst (hinsts ▸ mem_map_of_mem hd)
    split at hstored
    · rename_i hstore
      rw [hstore] at hnone
      cases hnone
    · cases hstored
  have hbinds : ∀ i ∈ (t.code p).insts, ∀ id, i.binds? = some id → ¬ p.Unbound id := by
    intro i hi id hbinds hunbound
    rw [hinsts] at hi
    obtain ⟨d, hd, rfl⟩ := mem_map.mp hi
    exact hunbound.2 d hd hbinds
  have hcopied : ∀ φ, Code.Copied (p.copied p.definedLocals) p.Unbound φ := fun φ =>
    copied_of_unstored fun _ _ id _ _ => hunstored id
  have hlowerable : (t.code p).LowerableOnce (p.copied p.definedLocals) p.Unbound :=
    hphis.and_imp (forall_of_insts hbinds)
      (fun i _ hline hi => ⟨hi, fun target arms hphi => ⟨hline target arms hphi, hcopied _⟩⟩)
      (fun _ phis hway hi φ hφ => ⟨hway φ hφ, hcopied φ, hi φ hφ φ.target rfl⟩) fun _ _ hfalse _ => hfalse
  have hwrites := writes_code ht
  have hnodup : ((t.code p).writes ++ []).Nodup := by
    rw [List.append_nil, hwrites]
    exact hsingle.once
  have hentry : Unwritten p.Unbound ((t.code p).writes ++ []) (w.enter id p args) (w.enter id p args) := by
    refine ⟨rfl, clear_enter w id args, ?_⟩
    rw [List.append_nil, hwrites]
    exact hsingle.fresh_enter w id args
  obtain ⟨u', hstep', hu⟩ := lower_sim_once hlowerable hnodup _ _ f u hentry hstep
  have hsame : u' = u := by
    cases f with
    | next => exact hu.1
    | ret v => exact hu
  rw [hcode, ← hsame]
  exact hstep'

/-- What both routes ask of a procedure. -/
@[mk_iff]
structure Routable (p : Procedure) : Prop where
  callFree : ∀ d ∈ p.allInsts, d.inst.isCall = false
  loopFree : p.hasLoop = false
  unpredicated : p.Unpredicated
  /-- At most one instruction defines a local, and none defines a parameter. -/
  once : p.definedLocals.Nodup
  params : ∀ id ∈ p.params, id ∉ p.definedLocals
  /-- Only state variables are stored to. -/
  stores : ∀ d ∈ p.allInsts, d.inst.storesLocal? = none
  /-- Phis stand in joins, and have one operand for each branch. -/
  listed : ∀ d ∈ p.listedInsts, d.inst.isPhi = false
  phis : ∀ node ∈ p.parts, ∀ φ ∈ p.joinPhis node, φ.TwoWay
  /-- Conditions read no state variable. -/
  conditions : ∀ node ∈ p.parts, ∀ condition ∈ node.condition?, condition.ReadsLocals

instance (p : Procedure) : Decidable p.Routable :=
  decidable_of_iff' _ (routable_iff _)

namespace Routable

lemma single (h : p.Routable) : p.SingleAssignment := by
  have hwritten := written_eq_definedLocals h.stores
  refine ⟨?_, ?_⟩
  · rw [hwritten]
    exact h.once
  · rw [hwritten]
    exact h.params

lemma code (h : p.Routable) (ht : t.Spans p) : (t.code p).Routable := by
  refine forall_code ?_ ?_ ?_ ht
  · exact fun d hlisted hd => ⟨h.unpredicated d hd, h.listed d hlisted⟩
  · exact fun c ts es j hnode _ => ⟨h.conditions _ hnode c rfl, h.phis _ hnode⟩
  · exact fun c bs j hnode _ => loop_not_mem_parts h.loopFree hnode

lemma unstored (h : p.Routable) (ht : t.Spans p) :
    ∀ i ∈ (t.code p).insts, i.storesLocal? = none := by
  rw [insts_code_eq ht]
  exact forall_mem_map.mpr h.stores

/-- Predication succeeds, and what the procedure did its predicated form does after lowering. -/
lemma runsIn_removePhis_ifConvert (h : p.Routable) (hverify : p.verify = .ok ()) (ht : t.Spans p) :
    ∃ k q, Yields ifConvert p k q ∧ ∀ n p', Yields removePhis q n p' → RunsIn t p p' := by
  obtain ⟨π, hfits⟩ : ∃ π : Layout, π.Fits (fun _ => False) p := exists_layout hverify
  obtain ⟨q, hyield, hpred⟩ := ifConvert_yields hfits ht h.loopFree
  have hcode := hpred.code_eq
  have hparams : q.params = p.params := by rw [hpred.rest]
  refine ⟨_, q, hyield, fun n p' hlower => ?_⟩
  have hroutable := h.code ht
  have hwrites := writes_code ht
  -- the predicated form writes what the procedure wrote
  have hwritten : q.written = p.written := by
    rw [← writes_code hpred.spans, hcode, hroutable.writes_flatten, hwrites]
  have hsingle : q.SingleAssignment := by
    refine ⟨?_, ?_⟩
    · rw [hwritten]
      exact h.single.once
    · rw [hwritten, hparams]
      exact h.single.params
  have hstores : ∀ i ∈ ((Tree.block ⟨p.nodes.size⟩ t.insts .nil).code q).insts, i.storesLocal? = none := by
    rw [hcode]
    exact storesLocal?_flatten (h.unstored ht) none
  have hphis : ((Tree.block ⟨p.nodes.size⟩ t.insts .nil).code q).PhisLowerable := by
    rw [hcode]
    exact hroutable.phisLowerable_flatten nofun
  obtain ⟨hnative', hparams', t', ht', hrun⟩ :=
    runsIn_removePhis hlower hpred.spans hsingle hstores hphis
  refine ⟨hnative'.trans (by rw [hpred.rest]), hparams'.trans hparams, t', ht', ?_⟩
  intro calls w id args f u hstep
  have henter : w.enter id q args = w.enter id p args := by rw [World.enter, World.enter, hparams]
  rw [← henter]
  refine hrun calls w id args f u ?_
  rw [henter, hcode]
  refine flatten_step hroutable.predicable ?_ ?_ nofun trivial hstep
  · rw [hwrites]
    exact h.single.once
  · rw [hwrites]
    exact h.single.fresh_enter w id args

end Routable

end Procedure

namespace Actor

variable {id : ProcId}

/-- A call that the code of a procedure without calls explains succeeds on a procedure that does the
same. -/
lemma call_of_runsIn {a : Actor} {args : List Value} {m : Machine} (hruns : RunsIn t p p')
    (hp' : a.proc? id = some p') (hnative : p.native = false) (hlen : p.params.length = args.length)
    (hstep : (t.code p).step (fun _ _ _ _ _ => False) (m.world.enter id p args) f u) :
    ∃ bound, ∀ limits : Limits, m.depth < limits.maxDepth → bound ≤ limits.maxSteps →
      ∃ m', (Machine.call a limits id args).on m = (.ok f.result, m') ∧ m'.world = u.toWorld := by
  obtain ⟨hnative', hparams, t', ht', hrun⟩ := hruns
  obtain ⟨bound, hbound⟩ := call_locals_of_step hp' (hnative'.trans hnative) hparams hlen ht'
    (hrun _ _ _ _ _ _ hstep)
  refine ⟨bound, fun limits hdepth hsteps => ?_⟩
  obtain ⟨m', _, hcall, hworld, _⟩ := hbound limits hdepth hsteps
  exact ⟨m', hcall, hworld⟩

/-- Predication succeeds. Where a call of the procedure succeeds, the calls of what lowering its
phis gives and of what lowering the phis of its predicated form gives succeed as well, with the same
result, the same state variables and the same trace. -/
theorem call_lowering_routes {a : Actor} {p : Procedure} (hp : a.proc? id = some p)
    (hverify : p.verify = .ok ()) (h : p.Routable) : ∃ k q, Procedure.ifConvert.run p = (.ok k, q) ∧
    ∀ n₁ p₁ n₂ p₂, Procedure.removePhis.run p = (.ok n₁, p₁) →
      Procedure.removePhis.run q = (.ok n₂, p₂) → ∀ a₁ a₂ : Actor, a₁.proc? id = some p₁ →
      a₂.proc? id = some p₂ → ∀ (limits : Limits) (args : List Value) (m m' : Machine)
        (v : Option Value), (Machine.call a limits id args).on m = (.ok v, m') →
        ∃ bound, ∀ limits' : Limits, m.depth < limits'.maxDepth → bound ≤ limits'.maxSteps →
          ∃ m₁ m₂, (Machine.call a₁ limits' id args).on m = (.ok v, m₁) ∧
            (Machine.call a₂ limits' id args).on m = (.ok v, m₂) ∧ m₁.globals = m'.globals ∧
            m₂.globals = m'.globals ∧ m₁.trace = m'.trace ∧ m₂.trace = m'.trace := by
  obtain ⟨t, ht⟩ := Procedure.exists_tree_of_verify hverify
  obtain ⟨k, q, hyield, hpredicated⟩ := h.runsIn_removePhis_ifConvert hverify ht
  refine ⟨k, q, hyield, fun n₁ p₁ n₂ p₂ hn₁ hn₂ a₁ a₂ hp₁ hp₂ limits args m m' v hcall => ?_⟩
  have hstructured : RunsIn t p p₁ := runsIn_removePhis hn₁ ht h.single (h.unstored ht)
    (h.code ht).phisLowerable
  obtain ⟨hnative, hlen, f, u, hstep, rfl, hworld⟩ := step_of_call hcall hp ht
    (Procedure.not_hasCall ht h.callFree) fun _ _ _ _ _ => False
  obtain ⟨bound₁, hbound₁⟩ := call_of_runsIn hstructured hp₁ hnative hlen hstep
  obtain ⟨bound₂, hbound₂⟩ := call_of_runsIn (hpredicated n₂ p₂ hn₂) hp₂ hnative hlen hstep
  refine ⟨max bound₁ bound₂, fun limits' hdepth hsteps => ?_⟩
  obtain ⟨m₁, hcall₁, hworld₁⟩ := hbound₁ limits' hdepth (by omega)
  obtain ⟨m₂, hcall₂, hworld₂⟩ := hbound₂ limits' hdepth (by omega)
  rw [← hworld] at hworld₁ hworld₂
  exact ⟨m₁, m₂, hcall₁, hcall₂, congrArg World.globals hworld₁, congrArg World.globals hworld₂,
    congrArg World.trace hworld₁, congrArg World.trace hworld₂⟩

/-- The predicated form of `settle`. -/
def settleFlat : Procedure := (Procedure.ifConvert.run settle).2

/-- Both routes return early with nine stored, and do not divide by zero then; both take the empty
branch. -/
theorem call_lowering_routes_settle : settle.verify = .ok () ∧ settle.Routable ∧
    Procedure.ifConvert.run settle = (.ok 2, settleFlat) ∧
    ∃ p₁ p₂, Procedure.removePhis.run settle = (.ok 2, p₁) ∧ Procedure.removePhis.run settleFlat = (.ok 2, p₂) ∧
    ∀ x ∈ [(0, 7, 9), (5, 5, 5)], ∃ bound, ∀ limits' : Limits, 0 < limits'.maxDepth → bound ≤ limits'.maxSteps →
      ∃ m₁ m₂, (Machine.call (settling p₁) limits' ⟨0⟩ [.int x.1]).on { globals := [some (.int 0)] } =
          (.ok (some (.int x.2.1)), m₁) ∧
        (Machine.call (settling p₂) limits' ⟨0⟩ [.int x.1]).on { globals := [some (.int 0)] } =
          (.ok (some (.int x.2.1)), m₂) ∧
        m₁.globals = [some (.int x.2.2)] ∧ m₂.globals = [some (.int x.2.2)] ∧ m₁.trace = [⟨0⟩] ∧ m₂.trace = [⟨0⟩] := by
  have hverify : settle.verify = .ok () := by decide +kernel
  have hroutable : settle.Routable := by decide +kernel
  have hflat : Procedure.ifConvert.run settle = (.ok 2, settleFlat) := eq_mk_of_fst_eq (by decide +kernel)
  have hstructured : (Procedure.removePhis.run settle).1 = .ok 2 := by decide +kernel
  have hpredicated : (Procedure.removePhis.run settleFlat).1 = .ok 2 := by decide +kernel
  have hproc : (settling settle).proc? ⟨0⟩ = some settle := rfl
  obtain ⟨k, q, hq, hcalls⟩ := call_lowering_routes hproc hverify hroutable
  obtain rfl : settleFlat = q := congrArg Prod.snd (hflat.symm.trans hq)
  obtain ⟨p₁, hp₁⟩ : ∃ p₁, Procedure.removePhis.run settle = (.ok 2, p₁) := ⟨_, eq_mk_of_fst_eq hstructured⟩
  obtain ⟨p₂, hp₂⟩ : ∃ p₂, Procedure.removePhis.run settleFlat = (.ok 2, p₂) := ⟨_, eq_mk_of_fst_eq hpredicated⟩
  have hroutes := hcalls 2 p₁ 2 p₂ hp₁ hp₂ (settling p₁) (settling p₂) rfl rfl
  exact ⟨hverify, hroutable, hflat, p₁, p₂, hp₁, hp₂, fun x hx => hroutes _ _ _ _ _ (call_settle x hx)⟩

end Actor

end ActorNet
