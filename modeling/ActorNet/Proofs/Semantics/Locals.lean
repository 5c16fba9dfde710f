import ActorNet.Proofs.Semantics.Code
import Mathlib.Data.List.Nodup

/-!
# Which locals code writes

`Code.writes` lists the locals that code writes, once for each instruction that writes them. Every
other local is as before when the code has run (`Code.step_frame`). If none of them is bound when
the code starts, as in a procedure that writes every local at most once, then nothing that is bound
changes (`Code.step_keeps`).

An instruction that runs in one state runs in every state in which all variables that it reads have
the same values, and it writes the same there (`Inst.step_transfer`). The same holds for the phis of
a join (`State.phiValues_mono`).
-/

namespace ActorNet

open List State Step

variable {c : Code} {edge : Edge} {f : Flow} {bindings values : List (LocalId × Value)}
  {x : LocalId} {arm : PhiArm} {s u : State}

def Phi.operand (φ : Phi) (edge : Edge) : Option VarRef :=
  (armOn φ.arms edge).map (·.var)

variable {arms : List PhiArm}

lemma armOn_mem (h : armOn arms edge = some arm) : arm ∈ arms := by
  rw [armOn, Option.or_eq_some_iff] at h
  rcases h with h | ⟨_, h⟩
  · exact mem_of_find?_eq_some h
  · exact mem_of_getElem? h

/-! ## The phis of a join -/

variable {phis : List Phi}

/-- The phis of a join bind a target each, and each target has a value. -/
lemma State.phiValues_cons {φ : Phi} (h : s.phiValues edge (φ :: phis) = some values) :
    ∃ v x rest, φ.operand edge = some v ∧ s.read v = some x ∧ s.phiValues edge phis = some rest ∧
      values = (φ.target, x) :: rest := by
  rw [phiValues] at h
  split at h
  · rename_i x rest hx hrest
    obtain ⟨arm, harm, hx⟩ := bind_eq_some_iff.mp hx
    refine ⟨arm.var, x, rest, ?_, hx, hrest, (Option.some.inj h).symm⟩
    rw [Phi.operand, harm, map_some]
  · cases h

lemma State.phiValues_targets (h : s.phiValues edge phis = some values) :
    values.map (·.1) = phis.map (·.target) := by
  induction phis generalizing values with
  | nil =>
    cases h
    rfl
  | cons φ phis ih =>
    obtain ⟨_, x, rest, _, _, hrest, rfl⟩ := phiValues_cons h
    rw [map_cons, map_cons, ih hrest]

lemma State.target_mem_of_phiValues {b : LocalId × Value} (h : s.phiValues edge phis = some values)
    (hb : b ∈ values) : b.1 ∈ phis.map (·.target) :=
  phiValues_targets h ▸ mem_map_of_mem hb

variable {id : LocalId}

lemma State.setAll_locals (h : ∀ b ∈ bindings, b.1 = id → s.locals id = some b.2) :
    (s.setAll bindings).locals id = s.locals id := by
  unfold setAll
  induction bindings generalizing s with
  | nil => rfl
  | cons b rest ih =>
    have hkeep : (s.set b.1 b.2).locals id = s.locals id := by
      rw [set_locals]
      by_cases heq : id = b.1
      · rw [if_pos heq, h b mem_cons_self heq.symm]
      · rw [if_neg heq]
    rw [foldl_cons, ih, hkeep]
    intro b' hb' heq
    rw [hkeep]
    exact h b' (mem_cons_of_mem b hb') heq

lemma State.setAll_read {v : VarRef} (h : ∀ b ∈ bindings, v = .loc b.1 → s.locals b.1 = some b.2) :
    (s.setAll bindings).read v = s.read v := by
  cases v with
  | loc id =>
    refine setAll_locals fun b hb heq => ?_
    rw [← heq]
    exact h b hb (congrArg VarRef.loc heq.symm)
  | glob id =>
    have hglobals : (s.setAll bindings).globals = s.globals := by
      unfold setAll
      clear h
      induction bindings generalizing s with
      | nil => rfl
      | cons b rest ih => rw [foldl_cons, ih, set_globals]
    rw [read, read, hglobals]

lemma State.setAll_append (s : State) (l m : List (LocalId × Value)) : s.setAll (l ++ m) = (s.setAll l).setAll m :=
  foldl_append

/-! ## Phis outside of joins -/

lemma State.picks_cons {picked : PhiArm} {rest : List PhiArm}
    (h : s.picks (arm :: rest) = some picked) : (arm.guard = none ∧ s.picks rest = some picked) ∨
    (∃ guard, arm.guard = some guard ∧ s.test guard = some true ∧ picked = arm) ∨
    (∃ guard, arm.guard = some guard ∧ s.test guard = some false ∧ s.picks rest = some picked) := by
  rw [picks] at h
  cases hg : arm.guard with
  | none =>
    rw [hg] at h
    exact .inl ⟨rfl, h⟩
  | some guard =>
    simp only [hg] at h
    cases ht : s.test guard with
    | none => simp [ht] at h
    | some b =>
      cases b with
      | true =>
        simp only [ht, Option.some.injEq] at h
        exact .inr (.inl ⟨guard, rfl, ht, h.symm⟩)
      | false =>
        simp only [ht] at h
        exact .inr (.inr ⟨guard, rfl, ht, h⟩)

/-! ## Writes -/

def Inst.writesLocal? (i : Inst) : Option LocalId :=
  i.writes?.bind VarRef.local?

def Code.writes (c : Code) : List LocalId :=
  c.insts.filterMap Inst.writesLocal?

namespace Code

lemma writes_inst (i : Inst) (predicate : Option Expr) (rest : Code) :
    (inst i predicate rest).writes = i.writesLocal?.toList ++ rest.writes := by
  rw [writes, insts, filterMap_cons]
  cases i.writesLocal? <;> rfl

lemma filterMap_writesLocal?_phis (phis : List Phi) :
    (phis.map Phi.inst).filterMap Inst.writesLocal? = phis.map (·.target) := by
  rw [filterMap_map]
  exact congrFun filterMap_eq_map phis

lemma writes_branch (c : Expr) (t e : Code) (phis : List Phi) (rest : Code) :
    (branch c t e phis rest).writes = t.writes ++ e.writes ++ phis.map (·.target) ++ rest.writes := by
  simp only [writes, insts, filterMap_append, filterMap_writesLocal?_phis]

lemma writes_loop (c : Expr) (body : Code) (phis : List Phi) (rest : Code) :
    (loop c body phis rest).writes = phis.map (·.target) ++ body.writes ++ rest.writes := by
  simp only [writes, insts, filterMap_append, filterMap_writesLocal?_phis]

end Code

/-! ## Frames -/

variable {calls : CallStep}

variable {i : Inst}

lemma Inst.step_frame (h : i.step calls s f u) (hx : i.writesLocal? ≠ some x) : u.locals x = s.locals x := by
  have hset : ∀ (w : State) (id : LocalId) (v : Value), some id ≠ some x → (w.set id v).locals x = w.locals x :=
    fun w id v hne => set_locals_ne w v fun heq => hne (congrArg some heq.symm)
  cases i with
  | assign | load | cast =>
    obtain ⟨y, _, _, rfl⟩ := h
    exact hset s _ y hx
  | store target indexes value =>
    obtain ⟨y, z, _, _, _, rfl⟩ := h
    cases target with
    | loc id => exact hset s id z hx
    | glob id => rfl
  | call target callee args =>
    obtain ⟨xs, y, w, _, _, _, rfl⟩ := h
    cases target with
    | none => rfl
    | some id =>
      cases y with
      | none => rfl
      | some y => exact hset ⟨w, s.locals⟩ id y hx
  | phi target arms =>
    obtain ⟨arm, y, _, _, _, rfl⟩ := h
    exact hset s target y hx
  | ret value =>
    cases value with
    | none =>
      obtain ⟨_, rfl⟩ := h
      rfl
    | some value =>
      obtain ⟨y, _, _, rfl⟩ := h
      rfl

lemma Step.join_frame (h : Step.join edge phis s f u) (hx : x ∉ phis.map (·.target)) :
    u.locals x = s.locals x := by
  obtain ⟨_, h⟩ := h
  obtain ⟨values, hvalues, rfl⟩ := map_eq_some_iff.mp h
  refine setAll_locals fun b hb hbx => ?_
  exact absurd (hbx ▸ target_mem_of_phiValues hvalues hb) hx

lemma Step.seq_frame {a b : Step} (ha : ∀ s f u, a s f u → u.locals x = s.locals x)
    (hb : ∀ s f u, b s f u → u.locals x = s.locals x) (s : State) (f : Flow) (u : State)
    (h : a.seq b s f u) : u.locals x = s.locals x := by
  rcases h with ⟨t, h1, h2⟩ | ⟨v, _, h1⟩
  · exact (hb _ _ _ h2).trans (ha _ _ _ h1)
  · exact ha _ _ _ h1

lemma Code.step_frame (h : c.step calls s f u) (hx : x ∉ c.writes) : u.locals x = s.locals x := by
  induction c generalizing s f u with
  | done =>
    obtain ⟨_, rfl⟩ := h
    rfl
  | inst i predicate rest ih =>
    rw [writes_inst, mem_append, not_or, Option.mem_toList] at hx
    refine seq_frame (fun s f u hi => ?_) (fun _ _ _ hr => ih hr hx.2) s f u h
    rcases guarded_cases hi with hi | ⟨_, rfl⟩
    · exact Inst.step_frame hi hx.1
    · rfl
  | branch c t e phis rest iht ihe ih =>
    simp only [writes_branch, mem_append, not_or] at hx
    refine seq_frame (fun s f u hb => ?_) (fun _ _ _ hr => ih hr hx.2) s f u h
    rcases hb with ⟨_, hb⟩ | ⟨_, hb⟩
    · exact seq_frame (fun _ _ _ ht => iht ht hx.1.1.1) (fun _ _ _ hj => join_frame hj hx.1.2) _ _ _ hb
    · exact seq_frame (fun _ _ _ he => ihe he hx.1.1.2) (fun _ _ _ hj => join_frame hj hx.1.2) _ _ _ hb
  | loop c body phis rest ihb ih =>
    simp only [writes_loop, mem_append, not_or] at hx
    have hbody : ∀ s f u, ((body.step calls).seq (Step.join .back phis)) s f u → u.locals x = s.locals x :=
      seq_frame (fun _ _ _ hb => ihb hb hx.1.2) (fun _ _ _ hj => join_frame hj hx.1.1)
    -- one iteration after the other
    have hloop : ∀ s f u, Loops c ((body.step calls).seq (Step.join .back phis)) s f u →
        u.locals x = s.locals x := by
      intro s f u hl
      induction hl with
      | stop _ => rfl
      | again _ hstep _ ih => exact ih.trans (hbody _ _ _ hstep)
      | ret _ hstep => exact hbody _ _ _ hstep
    exact seq_frame (seq_frame (fun _ _ _ hj => join_frame hj hx.1.1) hloop)
      (fun _ _ _ hr => ih hr hx.2) s f u h

/-! ## Writing what is not bound -/

namespace State

/-- None of the given locals is bound. -/
def Fresh (s : State) (ids : List LocalId) : Prop :=
  ∀ id ∈ ids, s.locals id = none

/-- What is bound in one state has the same value in the other. -/
def Keeps (s u : State) : Prop :=
  ∀ id x, s.locals id = some x → u.locals id = some x

lemma Keeps.refl (s : State) : s.Keeps s := fun _ _ h => h

lemma Keeps.set {s u : State} (h : s.Keeps u) (hid : s.locals id = none) (x : Value) :
    s.Keeps (u.set id x) := by
  intro i y hy
  rw [set_locals_ne]
  · exact h i y hy
  · intro heq
    rw [heq, hid] at hy
    cases hy

end State

/-- An expression that reads no state variable. -/
def Expr.ReadsLocals (e : Expr) : Prop :=
  ∀ v ∈ e.uses, ∃ id, v = .loc id

instance (e : Expr) : Decidable e.ReadsLocals :=
  decidable_of_iff (∀ v ∈ e.uses, v.local?.isSome) (forall₂_congr fun v _ => by
    cases v with
    | loc id => exact ⟨fun _ => ⟨id, rfl⟩, fun _ => rfl⟩
    | glob id => exact ⟨nofun, (fun ⟨_, h⟩ => nomatch h)⟩)

lemma State.Keeps.test (h : s.Keeps u) {e : Expr} (he : e.ReadsLocals) {b : Bool}
    (hb : s.test e = some b) : u.test e = some b := by
  refine test_mono (fun v hv x hx => ?_) hb
  obtain ⟨id, rfl⟩ := he v hv
  exact h id x hx

lemma Code.step_keeps (h : c.step calls s f u) (hfresh : s.Fresh c.writes) : s.Keeps u := by
  intro id x hx
  rw [step_frame h, hx]
  intro hmem
  rw [hfresh id hmem] at hx
  cases hx

lemma Code.step_fresh (h : c.step calls s f u) {ids : List LocalId} (hfresh : s.Fresh ids)
    (hdisjoint : ∀ id ∈ ids, id ∉ c.writes) : u.Fresh ids := by
  intro id hid
  rw [step_frame h (hdisjoint id hid), hfresh id hid]

/-! ## The same instruction in two states -/

/-- The variables that an instruction reads when it runs. A store to an element reads the variable
as well. -/
def Inst.reads : Inst → List VarRef
  | .store target (index :: rest) value => target :: (Expr.usesOf (index :: rest) ++ value.uses)
  | i => i.uses

namespace State

variable {s t : State}

lemma picks_mono {arm : PhiArm}
    (h : ∀ v ∈ arms.flatMap PhiArm.uses, ∀ x, s.read v = some x → t.read v = some x)
    (hp : s.picks arms = some arm) : t.picks arms = some arm := by
  induction arms with
  | nil => cases hp
  | cons first rest ih =>
    rw [flatMap_cons] at h
    have hrest := ih fun v hv => h v (mem_append_right _ hv)
    have hguard : ∀ guard b, first.guard = some guard → s.test guard = some b → t.test guard = some b := by
      intro guard b hg
      refine test_mono fun v hv => h v (mem_append_left _ ?_)
      rw [PhiArm.uses, hg]
      exact mem_cons_of_mem _ hv
    rw [picks]
    rcases picks_cons hp with ⟨hg, hp⟩ | ⟨guard, hg, ht, rfl⟩ | ⟨guard, hg, ht, hp⟩
    · rw [hg]
      exact hrest hp
    · simp only [hg, hguard guard true hg ht]
    · simp only [hg, hguard guard false hg ht]
      exact hrest hp

lemma picks_mem {arm : PhiArm} (h : s.picks arms = some arm) : arm ∈ arms := by
  induction arms with
  | nil => cases h
  | cons first rest ih =>
    rcases picks_cons h with ⟨_, h⟩ | ⟨_, _, _, rfl⟩ | ⟨_, _, _, h⟩
    · exact mem_cons_of_mem _ (ih h)
    · exact mem_cons_self
    · exact mem_cons_of_mem _ (ih h)

lemma phiValues_mono {edge : Edge} {values : List (LocalId × Value)}
    (h : ∀ φ ∈ phis, ∀ arm ∈ φ.arms, ∀ x, s.read arm.var = some x → t.read arm.var = some x)
    (hv : s.phiValues edge phis = some values) : t.phiValues edge phis = some values := by
  induction phis generalizing values with
  | nil => exact hv
  | cons φ phis ih =>
    obtain ⟨v, x, rest, hop, hx, hrest, rfl⟩ := phiValues_cons hv
    obtain ⟨arm, harm, rfl⟩ := map_eq_some_iff.mp hop
    have hx' := h φ mem_cons_self arm (armOn_mem harm) x hx
    rw [phiValues, ih (fun ψ hψ => h ψ (mem_cons_of_mem φ hψ)) hrest, harm, bind_some, hx']

end State

/-- An instruction that runs writes a variable and goes on, or it returns; and it does the same in
every state in which the variables that it reads have the same values. -/
theorem Inst.step_transfer {calls : CallStep} (calls' : CallStep) (hcall : i.isCall = false)
    {s s' u : State} {f : Flow} (hreads : ∀ v ∈ i.reads, ∀ x, s.read v = some x →
    s'.read v = some x) (h : i.step calls s f u) : (∃ v x, i.writes? = some v ∧
    f = .next ∧ u = s.write v x ∧ i.step calls' s' .next (s'.write v x)) ∨
      ∃ r, f = .ret r ∧ u = s ∧ i.step calls' s' (.ret r) s' := by
  cases i with
  | assign target | load target =>
    obtain ⟨x, hx, hf, hu⟩ := h
    refine .inl ⟨.loc target, x, rfl, hf, hu, x, ?_, rfl, rfl⟩
    first | exact eval_mono hreads hx | exact load_mono hreads hx
  | store target indexes value =>
    obtain ⟨x, y, hx, hy, hf, hu⟩ := h
    refine .inl ⟨target, y, rfl, hf, hu, x, y, ?_, ?_, rfl, rfl⟩
    · refine eval_mono (fun v hv => hreads v ?_) hx
      cases indexes with
      | nil => exact hv
      | cons index rest => exact mem_cons_of_mem _ (mem_append_right _ hv)
    · cases indexes with
      | nil => exact hy
      | cons index rest =>
        refine stored_mono (fun v hv => hreads v ?_) (fun _ => hreads target mem_cons_self) hy
        exact mem_cons_of_mem _ (mem_append_left _ hv)
  | call target callee args => cases hcall
  | phi target arms =>
    obtain ⟨arm, x, harm, hx, hf, hu⟩ := h
    refine .inl ⟨.loc target, x, rfl, hf, hu, arm, x, picks_mono hreads harm, ?_, rfl, rfl⟩
    exact hreads arm.var (mem_flatMap.mpr ⟨arm, picks_mem harm, mem_cons_self⟩) x hx
  | ret value =>
    cases value with
    | none =>
      obtain ⟨hf, hu⟩ := h
      exact .inr ⟨none, hf, hu, rfl, rfl⟩
    | some value =>
      obtain ⟨x, hx, hf, hu⟩ := h
      exact .inr ⟨some x, hf, hu, x, eval_mono hreads hx, rfl, rfl⟩
  | cast source target ty =>
    obtain ⟨x, hx, hf, hu⟩ := h
    obtain ⟨v, hv, hconv⟩ := converted_eq_some.mp hx
    refine .inl ⟨.loc target, x, rfl, hf, hu, x, converted_eq_some.mpr ⟨v, ?_, hconv⟩, rfl, rfl⟩
    exact hreads source (mem_singleton.mpr rfl) v hv

end ActorNet
