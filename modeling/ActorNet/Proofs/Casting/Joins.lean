import ActorNet.Proofs.Casting.Simulation
import ActorNet.Proofs.PhiLowering.Copies
import Mathlib.Data.List.Forall2

/-!
# Casts on the edges into a join

The operands of the phis of a join are cast at the end of the edges that they come from
(`PhisCast`). If the casts widen, the new phis have the values that the phis had (`PhisCast.joins`).

The instructions for the condition of a loop stand on both edges into the loop, and read the
operands of the phis instead of their targets, one phi after the other. If no operand is the target
of a later phi, they do there what they would do after the phis are bound (`Joins.enters`).
-/

namespace ActorNet

open Code List Procedure State

variable {calls : CallStep} {edge : Edge} {new : List (Edge × Inst)} {phis' phis : List Phi} {arms arms' : List PhiArm}
  {k n m : Nat} {φ : Phi} {arm : PhiArm} {W : Prop} {Δ : Scope} {v : VarRef} {required : Ty}

/-! ## Operands -/

lemma armOn_of_forall₂ {R : PhiArm → PhiArm → Prop} (h : List.Forall₂ R arms arms')
    (hedge : ∀ a a', R a a' → a'.edge = a.edge) (edge : Edge) : Option.Rel R (armOn arms edge) (armOn arms' edge) := by
  have hfind : Option.Rel R (arms.find? (·.edge = edge)) (arms'.find? (·.edge = edge)) := by
    induction h with
    | nil => exact .none
    | cons ha _ ih =>
      rw [find?_cons, find?_cons, hedge _ _ ha]
      split
      · exact .some ha
      · exact ih
  have hget : ∀ i : Nat, Option.Rel R arms[i]? arms'[i]? := by
    clear hfind
    induction h with
    | nil => exact fun _ => .none
    | cons ha _ ih =>
      intro i
      cases i with
      | zero => exact .some ha
      | succ i => exact ih i
  unfold armOn
  generalize arms.find? _ = found at hfind
  generalize arms'.find? _ = found' at hfind
  cases hfind with
  | some ha => exact .some ha
  | none => exact hget _

namespace Phi

lemma Tagged.exists_arm (h : φ.Tagged edge) : ∃ arm,
    armOn φ.arms edge = some arm ∧ arm.edge = edge ∧ φ.arms.filter (·.edge = edge) = [arm] := by
  have hlength : (φ.arms.filter (·.edge = edge)).length = 1 := by
    rw [← countP_eq_length_filter]
    exact h
  obtain ⟨arm, harm⟩ := length_eq_one_iff.mp hlength
  have hmem : arm ∈ φ.arms.filter (·.edge = edge) := harm ▸ mem_singleton_self arm
  refine ⟨arm, ?_, of_decide_eq_true (mem_filter.mp hmem).2, harm⟩
  rw [armOn, ← head?_filter, harm]
  rfl

lemma Tagged.subst (h : φ.Tagged edge) (σ : Subst) : (φ.subst σ).Tagged edge := by
  unfold Tagged at h ⊢
  rw [Phi.subst, countP_map]
  exact h

lemma operand_subst (σ : Subst) (φ : Phi) (edge : Edge) : (φ.subst σ).operand edge = (φ.operand edge).map σ.apply := by
  have hrel : Option.Rel (fun a a' => a' = a.subst σ) (armOn φ.arms edge) (armOn (φ.subst σ).arms edge) := by
    refine armOn_of_forall₂ ?_ (fun a a' h => by rw [h]; rfl) edge
    exact forall₂_map_right_iff.mpr (forall₂_same.mpr fun _ _ => rfl)
  unfold operand
  generalize armOn φ.arms edge = found at hrel
  generalize armOn (φ.subst σ).arms edge = found' at hrel
  cases hrel with
  | none => rfl
  | some harm =>
    rw [harm]
    rfl

end Phi

/-! ## Casts of operands -/

/-- Operands have been cast to a type, with a new temporary for each cast from a number on. If `W`
holds, the casts widen. -/
inductive ArmsCast (Δ : Scope) (W : Prop) (required : Ty) :
    Nat → List PhiArm → List (Edge × Inst) → List PhiArm → Nat → Prop
  | nil (n : Nat) : ArmsCast Δ W required n [] [] [] n
  | keep {n m : Nat} {arm : PhiArm} {rest rest' : List PhiArm} {new : List (Edge × Inst)} {ty : Ty}
      (hty : Δ.ty? arm.var = some ty) (hcast : ty.needsCast required = false)
      (hrest : ArmsCast Δ W required n rest new rest' m) : ArmsCast Δ W required n (arm :: rest) new (arm :: rest') m
  | cast {n m : Nat} {arm : PhiArm} {rest rest' : List PhiArm} {new : List (Edge × Inst)} {ty : Ty}
      (hty : Δ.ty? arm.var = some ty) (hcast : ty.needsCast required = true) (hwiden : W → ty.Widens required)
      (htemp : Δ.ty? (.loc ⟨n⟩) = some required)
      (hrest : ArmsCast Δ W required (n + 1) rest new rest' m) :
      ArmsCast Δ W required n (arm :: rest) ((arm.edge, .cast arm.var ⟨n⟩ required) :: new)
        ({ arm with var := .loc ⟨n⟩ } :: rest') m

/-- The operands of phis have been cast to the types of their targets. -/
inductive PhisCast (Δ : Scope) (W : Prop) : Nat → List Phi → List (Edge × Inst) → List Phi → Nat → Prop
  | nil (n : Nat) : PhisCast Δ W n [] [] [] n
  | cons {n m k : Nat} {φ : Phi} {rest rest' : List Phi} {arms' : List PhiArm} {new new' : List (Edge × Inst)}
      {required : Ty} (hty : Δ.ty? (.loc φ.target) = some required)
      (harms : ArmsCast Δ W required n φ.arms new arms' m) (hrest : PhisCast Δ W m rest new' rest' k) :
      PhisCast Δ W n (φ :: rest) (new ++ new') (⟨φ.target, arms'⟩ :: rest') k

variable {spared : LocalId → Prop} {q : Procedure} {values : List (LocalId × Value)} {ρ : Subst}
  {Γ : Scope}

section Casts

variable {globals : List Variable}

namespace ArmsCast

section

variable (h : ArmsCast Δ W required n arms new arms' m)
include h

lemma le : n ≤ m := by
  induction h with
  | nil n => exact Nat.le_refl n
  | keep _ _ _ ih => exact ih
  | cast _ _ _ _ _ ih => exact Nat.le_of_succ_le ih

lemma defines : ∀ x ∈ new, x.2.Defines n m := by
  induction h with
  | nil n => exact forall_mem_nil _
  | keep _ _ _ ih => exact ih
  | cast _ _ _ _ hrest ih =>
    intro x hx
    rcases mem_cons.mp hx with rfl | hx
    · exact ⟨le_rfl, hrest.le⟩
    · exact (ih x hx).mono (Nat.le_succ _) le_rfl

lemma casts : ∀ x ∈ new, x.2.isCast = true := by
  induction h with
  | nil n => exact forall_mem_nil _
  | keep _ _ _ ih => exact ih
  | cast _ _ _ _ _ ih => exact forall_mem_cons.mpr ⟨rfl, ih⟩

lemma fits : ∀ arm ∈ arms', (Expr.var arm.var).Fits Δ required := by
  induction h with
  | nil n => exact forall_mem_nil _
  | keep hty hcast _ ih => exact forall_mem_cons.mpr ⟨⟨_, hty, Ty.agrees_iff_not_needsCast.mpr hcast⟩, ih⟩
  | cast _ _ _ htemp _ ih => exact forall_mem_cons.mpr ⟨⟨_, htemp, .refl _⟩, ih⟩

/-- An operand stays, or it is cast into a new temporary. -/
lemma forall₂ : List.Forall₂ (fun a a' => a'.edge = a.edge ∧ ∃ ty, Δ.ty? a.var = some ty ∧
      ((a'.var = a.var ∧ ty.needsCast required = false) ∨
        (ty.needsCast required = true ∧ ∃ j : LocalId, a'.var = .loc j ∧ n ≤ j.index ∧ j.index < m))) arms arms' := by
  induction h with
  | nil n => exact .nil
  | keep hty hcast _ ih => exact .cons ⟨rfl, _, hty, .inl ⟨rfl, hcast⟩⟩ ih
  | cast hty hcast _ _ hrest ih =>
    refine .cons ⟨rfl, _, hty, .inr ⟨hcast, _, rfl, le_rfl, hrest.le⟩⟩ (ih.imp ?_)
    rintro a a' ⟨hedge, ty, hty, hvar | ⟨hcast, j, hj, hlo, hhi⟩⟩
    · exact ⟨hedge, ty, hty, .inl hvar⟩
    · exact ⟨hedge, ty, hty, .inr ⟨hcast, j, hj, Nat.le_of_succ_le hlo, hhi⟩⟩

lemma edges : arms'.map (·.edge) = arms.map (·.edge) := by
  induction h with
  | nil n => rfl
  | keep _ _ _ ih | cast _ _ _ _ _ ih => rw [map_cons, map_cons, ih]

lemma operands : ∀ arm' ∈ arms',
    (∃ arm ∈ arms, arm'.var = arm.var) ∨ ∃ j : LocalId, arm'.var = .loc j ∧ n ≤ j.index := by
  induction h with
  | nil n => exact forall_mem_nil _
  | keep _ _ _ ih =>
    refine forall_mem_cons.mpr ⟨.inl ⟨_, mem_cons_self, rfl⟩, fun arm' harm' => (ih arm' harm').imp_left ?_⟩
    rintro ⟨arm, harm, hvar⟩
    exact ⟨arm, mem_cons_of_mem _ harm, hvar⟩
  | cast _ _ _ _ _ ih =>
    refine forall_mem_cons.mpr ⟨.inr ⟨_, rfl, le_rfl⟩, fun arm' harm' => (ih arm' harm').imp ?_ ?_⟩
    · rintro ⟨arm, harm, hvar⟩
      exact ⟨arm, mem_cons_of_mem _ harm, hvar⟩
    · rintro ⟨j, hj, hlow⟩
      exact ⟨j, hj, Nat.le_of_succ_le hlow⟩

lemma operand_of_below (hv : v.Below n) (hoperand : (armOn arms' edge).map (·.var) = some v) :
    (armOn arms edge).map (·.var) = some v := by
  obtain ⟨arm', harm', rfl⟩ := map_eq_some_iff.mp hoperand
  have hrel := armOn_of_forall₂ h.forall₂ (fun _ _ h => h.1) edge
  rw [harm'] at hrel
  generalize armOn arms edge = found at hrel
  cases hrel with
  | some hrel =>
    obtain ⟨_, ty, _, ⟨hvar, _⟩ | ⟨_, j, hj, hlow, _⟩⟩ := hrel
    · rw [map_some, hvar]
    · rw [hj] at hv
      exact absurd hv (Nat.not_lt.mpr hlow)

lemma operand_of_ty (hv : Δ.ty? v = some required)
    (hoperand : (armOn arms edge).map (·.var) = some v) : (armOn arms' edge).map (·.var) = some v := by
  obtain ⟨arm, harm, rfl⟩ := map_eq_some_iff.mp hoperand
  have hrel := armOn_of_forall₂ h.forall₂ (fun _ _ h => h.1) edge
  rw [harm] at hrel
  generalize armOn arms' edge = found at hrel
  cases hrel with
  | some hrel =>
    obtain ⟨_, ty, hty, ⟨hvar, _⟩ | ⟨hcast, _⟩⟩ := hrel
    · rw [map_some, hvar]
    · cases hv.symm.trans hty
      rw [Ty.needsCast_self] at hcast
      cases hcast

/-- The casts for an edge run if the operands on it have values; the new operands have them
afterwards. -/
lemma runs (calls : CallStep) (hW : W)
    (hbelow : ∀ arm ∈ arms, arm.var.Below n) (s : State) (hs : s.HasTypes Δ (arms.map (·.var)))
    (hread : ∀ arm ∈ arms, arm.edge = edge → ∃ y, s.read arm.var = some y) :
    ∃ u, (ofInsts (onEdge edge new)).step calls s .next u ∧ s.SameBelow n u ∧
      List.Forall₂ (fun a a' => a'.edge = a.edge ∧ (a.edge = edge → u.read a'.var = s.read a.var ∧
        ∀ y, s.read a.var = some y → y.HasTy required)) arms arms' := by
  induction h generalizing s with
  | nil n => exact ⟨s, ⟨rfl, rfl⟩, State.SameBelow.refl s n, .nil⟩
  | @keep n m arm rest rest' new ty hty hcast _ ih =>
    have hs' := hasTypes_append.mp (show s.HasTypes Δ ([arm.var] ++ rest.map (·.var)) from hs)
    obtain ⟨harm, hbelow'⟩ := forall_mem_cons.mp hbelow
    obtain ⟨u, hstep, hsame, hall⟩ := ih hbelow' s hs'.2 (forall_mem_cons.mp hread).2
    refine ⟨u, hstep, hsame, .cons ⟨rfl, fun _ => ⟨hsame.read harm, fun y hy => ?_⟩⟩ hall⟩
    have hyty := hs'.1 arm.var mem_cons_self ty hty y hy
    exact Ty.eq_of_not_needsCast hyty.isPlain hcast ▸ hyty
  | @cast n m arm rest rest' new ty hty hcast hwiden _ hrest ih =>
    have hs' := hasTypes_append.mp (show s.HasTypes Δ ([arm.var] ++ rest.map (·.var)) from hs)
    have hbelow := (forall_mem_cons.mp hbelow).2
    have hbelow' : ∀ a ∈ rest, a.var.Below (n + 1) := fun a ha => (hbelow a ha).mono (Nat.le_succ n)
    have hread' := forall_mem_cons.mp hread
    by_cases hedge : arm.edge = edge
    · -- the cast comes first, and the others do not read its temporary
      obtain ⟨y, hy⟩ := hread'.1 hedge
      have hyty := hs'.1 arm.var mem_cons_self ty hty y hy
      obtain ⟨w, hcaststep, hsame, hw⟩ : Computes calls n [.cast arm.var ⟨n⟩ required] s (.var (.loc ⟨n⟩)) y :=
        Computes.set ⟨y, converted_eq_some.mpr ⟨y, hy, hyty.convert (hwiden hW) ""⟩, rfl, rfl⟩ (Nat.le_refl n)
      have hvars : ∀ v ∈ rest.map (·.var), v.Below n := by
        intro v hv
        obtain ⟨a, ha, rfl⟩ := mem_map.mp hv
        exact hbelow a ha
      obtain ⟨u, hstep, hsame', hall⟩ := ih hbelow' w (hsame.hasTypes hvars hs'.2) fun a ha hae => by
        obtain ⟨z, hz⟩ := hread'.2 a ha hae
        exact ⟨z, (hsame.read (hbelow a ha)).trans hz⟩
      refine ⟨u, ?_, hsame.trans hsame' (Nat.le_succ n), .cons ⟨rfl, fun _ => ⟨?_, fun z hz => ?_⟩⟩
        (((forall₂_and_left rest rest').mpr ⟨hbelow, hall⟩).imp ?_)⟩
      · rw [onEdge_cons, if_pos hedge, ofInsts_append, step_append]
        exact .inl ⟨w, hcaststep, hstep⟩
      · rw [eval_var] at hw
        rw [hy, ← hw]
        exact hsame'.read (Nat.lt_succ_self n)
      · cases hy.symm.trans hz
        exact hyty.widen (hwiden hW)
      · rintro a a' ⟨ha, hae, hall⟩
        rw [hsame.read ha] at hall
        exact ⟨hae, hall⟩
    · obtain ⟨u, hstep, hsame, hall⟩ := ih hbelow' s hs'.2 hread'.2
      rw [onEdge_cons, if_neg hedge, nil_append]
      exact ⟨u, hstep, hsame.mono (Nat.le_succ n), .cons ⟨rfl, fun h => absurd h hedge⟩ hall⟩

end

/-- The casts read operands, and the new operands are operands or temporaries. -/
lemma live (h : ArmsCast (q.scope globals) W required n arms new arms' m)
    (hlive : ∀ arm ∈ arms, q.LiveIn spared arm.uses) :
    (∀ x ∈ new, q.LiveIn spared x.2.named) ∧ ∀ arm ∈ arms', q.LiveIn spared arm.uses := by
  induction h with
  | nil n => exact ⟨forall_mem_nil _, hlive⟩
  | keep _ _ _ ih =>
    obtain ⟨harm, hrest⟩ := forall_mem_cons.mp hlive
    exact ⟨(ih hrest).1, forall_mem_cons.mpr ⟨harm, (ih hrest).2⟩⟩
  | cast hty _ _ htemp _ ih =>
    obtain ⟨harm, hrest⟩ := forall_mem_cons.mp hlive
    have htemp : q.LiveIn spared _ := liveIn_of_ty? htemp
    exact ⟨forall_mem_cons.mpr ⟨liveIn_append.mpr ⟨liveIn_of_ty? hty, htemp⟩, (ih hrest).1⟩,
      forall_mem_cons.mpr ⟨liveIn_cons.mpr ⟨htemp, (liveIn_cons.mp harm).2⟩, (ih hrest).2⟩⟩

end ArmsCast

namespace PhisCast

section

variable (h : PhisCast Δ W n phis new phis' k)
include h

lemma le : n ≤ k := by
  induction h with
  | nil n => exact Nat.le_refl n
  | cons _ harms _ ih => exact harms.le.trans ih

lemma defines : ∀ x ∈ new, x.2.Defines n k := by
  induction h with
  | nil n => exact forall_mem_nil _
  | cons _ harms hrest ih =>
    intro x hx
    rcases mem_append.mp hx with hx | hx
    · exact (harms.defines x hx).mono le_rfl hrest.le
    · exact (ih x hx).mono harms.le le_rfl

lemma targets : phis'.map (·.target) = phis.map (·.target) := by
  induction h with
  | nil n => rfl
  | cons _ _ _ ih => rw [map_cons, map_cons, ih]

lemma casts : ∀ x ∈ new, x.2.isCast = true := by
  induction h with
  | nil n => exact forall_mem_nil _
  | cons _ harms _ ih => exact forall_mem_append.mpr ⟨harms.casts, ih⟩

lemma settled : ∀ φ ∈ phis', φ.Settled Δ := by
  induction h with
  | nil n => exact forall_mem_nil _
  | cons hty harms _ ih => exact forall_mem_cons.mpr ⟨⟨_, hty, harms.fits⟩, ih⟩

end

lemma live (h : PhisCast (q.scope globals) W n phis new phis' k)
    (hlive : ∀ φ ∈ phis, q.LiveIn spared φ.inst.named) :
    (∀ x ∈ new, q.LiveIn spared x.2.named) ∧ ∀ φ ∈ phis', q.LiveIn spared φ.inst.named := by
  induction h with
  | nil n => exact ⟨forall_mem_nil _, hlive⟩
  | cons _ harms _ ih =>
    obtain ⟨hφ, hrest⟩ := forall_mem_cons.mp hlive
    obtain ⟨hnew, harms'⟩ := harms.live (liveIn_flatMap.mp (liveIn_append.mp hφ).1)
    exact ⟨forall_mem_append.mpr ⟨hnew, (ih hrest).1⟩,
      forall_mem_cons.mpr ⟨liveIn_append.mpr ⟨liveIn_flatMap.mpr harms', (liveIn_append.mp hφ).2⟩, (ih hrest).2⟩⟩

section

variable (h : PhisCast Δ W n phis new phis' k)
include h

variable {φ' : Phi}

lemma exists_of_mem (hφ' : φ' ∈ phis') :
    ∃ φ ∈ phis, φ'.target = φ.target ∧ ∃ required m m' new', Δ.ty? (.loc φ.target) = some required ∧
      n ≤ m ∧ ArmsCast Δ W required m φ.arms new' φ'.arms m' := by
  induction h with
  | nil n => cases hφ'
  | @cons n m k φ rest rest' arms' new new' required hty harms hrest ih =>
    rcases mem_cons.mp hφ' with rfl | hφ'
    · exact ⟨φ, mem_cons_self, rfl, required, n, m, new, hty, Nat.le_refl n, harms⟩
    · obtain ⟨ψ, hψ, htarget, required, l, l', new', hty, hle, hcast⟩ := ih hφ'
      exact ⟨ψ, mem_cons_of_mem φ hψ, htarget, required, l, l', new', hty, harms.le.trans hle, hcast⟩

lemma tagged (htagged : ∀ φ ∈ phis, φ.Tagged edge) : ∀ φ' ∈ phis', φ'.Tagged edge := by
  intro φ' hφ'
  obtain ⟨φ, hφ, _, _, _, _, _, _, _, harms⟩ := h.exists_of_mem hφ'
  have hcount : ∀ arms : List PhiArm, arms.countP (·.edge = edge) = (arms.map (·.edge)).countP (· = edge) :=
    fun arms => by
      rw [countP_map]
      rfl
  have hφt := htagged φ hφ
  unfold Phi.Tagged at hφt ⊢
  rw [hcount, harms.edges, ← hcount]
  exact hφt

lemma operands (hφ' : φ' ∈ phis') {arm' : PhiArm} (harm' : arm' ∈ φ'.arms) :
    (∃ φ ∈ phis, ∃ arm ∈ φ.arms, arm'.var = arm.var) ∨ ∃ j : LocalId, arm'.var = .loc j ∧ n ≤ j.index := by
  obtain ⟨φ, hφ, _, required, m, m', new', _, hle, harms⟩ := h.exists_of_mem hφ'
  rcases harms.operands arm' harm' with ⟨arm, harm, hvar⟩ | ⟨j, hj, hlow⟩
  · exact .inl ⟨φ, hφ, arm, harm, hvar⟩
  · exact .inr ⟨j, hj, hle.trans hlow⟩

/-- The casts for an edge run if the phis have values on it; the new phis have them afterwards. -/
lemma runs (calls : CallStep) (hW : W)
    (hbelow : ∀ φ ∈ phis, ∀ arm ∈ φ.arms, arm.var.Below n) (htagged : ∀ φ ∈ phis, φ.Tagged edge)
    (s : State) (hs : ∀ φ ∈ phis, s.HasTypes Δ (φ.arms.map (·.var)))
    (hvalues : s.phiValues edge phis = some values) : ∃ u,
    (ofInsts (onEdge edge new)).step calls s .next u ∧ s.SameBelow n u ∧ u.phiValues edge phis' =
      some values ∧ ∀ b ∈ values, ∀ ty, Δ.ty? (.loc b.1) = some ty → b.2.HasTy ty := by
  induction h generalizing s values with
  | nil n =>
    cases hvalues
    exact ⟨s, ⟨rfl, rfl⟩, State.SameBelow.refl s n, rfl, forall_mem_nil _⟩
  | @cons n m k φ rest rest' arms' new new' required hty harms hrest ih =>
    obtain ⟨v, x, values', hoperand, hx, hvalues', rfl⟩ := phiValues_cons hvalues
    obtain ⟨arm, harm, rfl⟩ := map_eq_some_iff.mp hoperand
    obtain ⟨hφ, htagged'⟩ := forall_mem_cons.mp htagged
    obtain ⟨_, hsame, hedge, hfilter⟩ := hφ.exists_arm
    cases harm.symm.trans hsame
    obtain ⟨hsφ, hs'⟩ := forall_mem_cons.mp hs
    obtain ⟨hφbelow, hkeep⟩ := forall_mem_cons.mp hbelow
    obtain ⟨u, hstep, hsame, hall⟩ := harms.runs calls hW hφbelow s hsφ fun a ha hae => by
      have hmem : a ∈ φ.arms.filter (·.edge = edge) := mem_filter.mpr ⟨ha, decide_eq_true hae⟩
      rw [hfilter, mem_singleton] at hmem
      exact ⟨x, hmem ▸ hx⟩
    -- the phi picks the new operand that stands for the one it picked
    obtain ⟨arm', harm', hread, hbelow⟩ : ∃ arm', armOn arms' edge = some arm' ∧ u.read arm'.var = some x ∧
        arm'.var.Below m ∧ x.HasTy required := by
      have hrel := armOn_of_forall₂ hall (fun _ _ h => h.1) edge
      have hrel' := armOn_of_forall₂ harms.forall₂ (fun _ _ h => h.1) edge
      rw [harm] at hrel hrel'
      cases hpick : armOn arms' edge with
      | none =>
        rw [hpick] at hrel
        cases hrel
      | some arm' =>
        rw [hpick] at hrel hrel'
        cases hrel with
        | some hrel =>
          cases hrel' with
          | some hrel' =>
            obtain ⟨hread, htyped⟩ := hrel.2 hedge
            refine ⟨arm', rfl, hread.trans hx, ?_, htyped x hx⟩
            obtain ⟨_, _, _, ⟨hvar, _⟩ | ⟨_, j, hj, _, hlt⟩⟩ := hrel'
            · rw [hvar]
              exact (hφbelow arm (armOn_mem harm)).mono harms.le
            · rw [hj]
              exact hlt
    have hvalues'' : u.phiValues edge rest = some values' :=
      phiValues_mono (fun ψ hψ a ha y hy => (hsame.read (hkeep ψ hψ a ha)).trans hy) hvalues'
    obtain ⟨w, hstep', hsame', hw, htyped⟩ := ih (fun ψ hψ a ha => (hkeep ψ hψ a ha).mono harms.le)
      htagged' u
      (fun ψ hψ => hsame.hasTypes (by
        intro v hv
        obtain ⟨a, ha, rfl⟩ := mem_map.mp hv
        exact hkeep ψ hψ a ha) (hs' ψ hψ)) hvalues''
    refine ⟨w, ?_, hsame.trans hsame' harms.le, ?_, forall_mem_cons.mpr ⟨fun ty hty' => ?_, htyped⟩⟩
    · rw [onEdge_append, ofInsts_append, step_append]
      exact .inl ⟨u, hstep, hstep'⟩
    · rw [phiValues, harm', bind_some, hsame'.read hbelow.1, hread, hw]
    · cases hty.symm.trans hty'
      exact hbelow.2

end

/-- Phis whose operands have been cast have the values that the phis had. -/
theorem joins {phis : List Phi} (h : PhisCast Δ W n (phis.map (Phi.subst ρ)) new phis' k)
    (calls : CallStep) (hW : W) (hmaps : Γ.Maps Δ ρ) (hρ : ∀ v ty, Γ.ty? v = some ty → (ρ.apply v).Below n)
    (hdeclared : ∀ φ ∈ phis, ∀ arm ∈ φ.arms, ∃ ty, Γ.ty? arm.var = some ty) (htagged : ∀ φ ∈ phis, φ.Tagged edge)
    (hspares : ∀ φ ∈ phis, ρ.Spares (.loc φ.target)) : Joins Γ calls ρ edge phis (onEdge edge new) phis' := by
  intro s s' values hs hvalues
  have hvalues' : s'.phiValues edge (phis.map (Phi.subst ρ)) = some values := by
    rw [← phiValues_through]
    refine phiValues_mono (fun φ hφ arm harm x hx => ?_) hvalues
    obtain ⟨ty, hty⟩ := hdeclared φ hφ arm harm
    rw [read_through, hs.read hty, hx]
  have htagged' : ∀ φ ∈ phis.map (Phi.subst ρ), φ.Tagged edge := by
    intro φ' hφ'
    obtain ⟨φ, hφ, rfl⟩ := mem_map.mp hφ'
    exact (htagged φ hφ).subst ρ
  have htypes : ∀ φ ∈ phis.map (Phi.subst ρ), s'.HasTypes Δ (φ.arms.map (·.var)) := by
    intro φ' hφ'
    obtain ⟨φ, hφ, rfl⟩ := mem_map.mp hφ'
    have hvars : (φ.subst ρ).arms.map (·.var) = (φ.arms.map (·.var)).map ρ.apply := by
      rw [Phi.subst, List.map_map, List.map_map]
      rfl
    rw [hvars]
    refine hs.hasTypes hmaps fun v hv => ?_
    obtain ⟨arm, harm, rfl⟩ := mem_map.mp hv
    exact hdeclared φ hφ arm harm
  have hbelow : ∀ φ ∈ phis.map (Phi.subst ρ), ∀ arm ∈ φ.arms, arm.var.Below n := by
    refine forall_mem_map.mpr fun φ hφ => forall_mem_map.mpr fun arm harm => ?_
    obtain ⟨ty, hty⟩ := hdeclared φ hφ arm harm
    exact hρ _ ty hty
  obtain ⟨u', hstep, hsame, hu', htyped⟩ := h.runs calls hW hbelow htagged' s' htypes hvalues'
  refine ⟨u', hstep, hs.of_sameBelow hsame fun x ty hx => hρ _ ty hx, hu', fun b hb ty hty => ?_⟩
  refine htyped b hb ty ?_
  obtain ⟨φ, hφ, heq⟩ := mem_map.mp (target_mem_of_phiValues hvalues hb)
  have hself := (hspares φ hφ).1
  rw [heq] at hself
  rw [← hself]
  exact hmaps _ ty hty

end PhisCast

end Casts

/-! ## Reading operands for targets -/

/-- The operands of phis on an edge are read for their targets. -/
def Phi.sources (edge : Edge) : List Phi → Subst
  | [] => .id
  | φ :: rest => fun x => if x = φ.target then (φ.operand edge).getD (.loc x) else sources edge rest x

/-- The targets of phis with their operands on an edge. -/
def Phi.pairs (edge : Edge) (phis : List Phi) : List (LocalId × VarRef) :=
  phis.flatMap fun φ => (φ.arms.filter (·.edge = edge)).map fun arm => (φ.target, arm.var)

/-- Locals are read differently, one after the other. -/
def Subst.ofPairs : List (LocalId × VarRef) → Subst
  | [] => .id
  | (x, v) :: rest => (Subst.single x v).andThen (ofPairs rest)

lemma Inst.liveIn_ofPairs {pairs : List (LocalId × VarRef)} {i : Inst}
    (hpairs : ∀ pair ∈ pairs, q.LiveIn spared [pair.2]) (hi : q.LiveIn spared i.named) :
    q.LiveIn spared (i.subst (.ofPairs pairs)).named := by
  induction pairs generalizing i with
  | nil =>
    rw [Subst.ofPairs, Inst.subst_id]
    exact hi
  | cons pair rest ih =>
    obtain ⟨hv, hrest⟩ := forall_mem_cons.mp hpairs
    rw [Subst.ofPairs, ← Inst.subst_subst]
    obtain ⟨huses, hdef⟩ := liveIn_append.mp hi
    refine ih hrest ?_
    rw [Inst.named, Inst.uses_subst, Inst.def?_subst]
    refine liveIn_append.mpr ⟨fun x hx => ?_, hdef⟩
    obtain ⟨u, hu, hux⟩ := mem_map.mp hx
    cases u with
    | glob g => cases hux
    | loc y =>
      simp only [Subst.apply, Subst.single] at hux
      split at hux
      · exact hv x (mem_singleton.mpr hux.symm)
      · exact huses x (hux ▸ hu)

/-- On an edge no phi reads the target of a later one, unless the later one keeps its target. -/
def Phi.Resolved (edge : Edge) (phis : List Phi) : Prop :=
  phis.Pairwise fun φ ψ => φ.operand edge = some (.loc ψ.target) → ψ.operand edge = some (.loc ψ.target)
deriving Decidable

lemma Phi.Resolved.subst {phis : List Phi} (h : Phi.Resolved edge phis) {σ : Subst}
    (hspares : ∀ φ ∈ phis, σ.Spares (.loc φ.target)) : Phi.Resolved edge (phis.map (Phi.subst σ)) := by
  refine pairwise_map.mpr (List.Pairwise.imp_of_mem (fun {φ ψ} _ hψ hlater hoperand => ?_) h)
  obtain ⟨hself, hothers⟩ := hspares ψ hψ
  rw [Phi.operand_subst] at hoperand ⊢
  obtain ⟨v, hv, hvψ⟩ := map_eq_some_iff.mp hoperand
  have hvtarget : v = .loc ψ.target := by
    cases v with
    | loc x => exact hothers x hvψ
    | glob g => exact hvψ
  rw [hlater (hv.trans (congrArg some hvtarget)), map_some]
  exact congrArg some hself

/-- Casting operands keeps the order of phis: a temporary is no target, and an operand of the type
of its target stays. -/
lemma PhisCast.resolved {phis : List Phi} (h : PhisCast Δ W n phis new phis' k) (hres : Phi.Resolved edge phis)
    (htargets : ∀ φ ∈ phis, φ.target.index < n) : Phi.Resolved edge phis' := by
  induction h with
  | nil n => exact .nil
  | @cons n m k φ rest rest' arms' new new' required hty harms hrest ih =>
    obtain ⟨hlater, hres'⟩ := pairwise_cons.mp hres
    have htargets' := (forall_mem_cons.mp htargets).2
    refine pairwise_cons.mpr ⟨fun ψ' hψ' hoperand => ?_,
      ih hres' fun ψ hψ => Nat.lt_of_lt_of_le (htargets' ψ hψ) harms.le⟩
    obtain ⟨ψ, hψ, htarget, required', _, _, _, hty', _, harms'⟩ := hrest.exists_of_mem hψ'
    rw [htarget] at hoperand ⊢
    exact harms'.operand_of_ty hty' (hlater ψ hψ (harms.operand_of_below (htargets' ψ hψ) hoperand))

section Sources

lemma Phi.sources_apply_self (h : ∀ ψ ∈ phis, v = .loc ψ.target →
    ψ.operand edge = some (.loc ψ.target)) : (sources edge phis).apply v = v := by
  cases v with
  | glob g => rfl
  | loc x =>
    show sources edge phis x = .loc x
    induction phis with
    | nil => rfl
    | cons φ rest ih =>
      obtain ⟨hφ, hrest⟩ := forall_mem_cons.mp h
      show (if x = φ.target then (φ.operand edge).getD (.loc x) else sources edge rest x) = .loc x
      split
      · rename_i hx
        rw [hφ (congrArg VarRef.loc hx), hx]
        rfl
      · exact ih hrest

lemma Phi.sources_cases (edge : Edge) (phis : List Phi) (x : LocalId) : sources edge phis x =
    .loc x ∨ ∃ φ ∈ phis, x = φ.target ∧ φ.operand edge = some (sources edge phis x) := by
  induction phis with
  | nil => exact .inl rfl
  | cons φ rest ih =>
    have hsources : sources edge (φ :: rest) x =
        if x = φ.target then (φ.operand edge).getD (.loc x) else sources edge rest x := rfl
    by_cases hx : x = φ.target
    · rw [hsources, if_pos hx]
      cases hoperand : φ.operand edge with
      | none => exact .inl rfl
      | some v => exact .inr ⟨φ, mem_cons_self, hx, hoperand⟩
    · rw [hsources, if_neg hx]
      refine ih.imp_right ?_
      rintro ⟨ψ, hψ, hrest⟩
      exact ⟨ψ, mem_cons_of_mem φ hψ, hrest⟩

lemma Phi.sources_spares (htargets : ∀ φ ∈ phis, v ≠ .loc φ.target)
    (harms : ∀ φ ∈ phis, ∀ arm ∈ φ.arms, arm.var ≠ v) : (sources edge phis).Spares v := by
  constructor
  · cases v with
    | glob g => rfl
    | loc x =>
      rcases sources_cases edge phis x with hx | ⟨φ, hφ, hx, _⟩
      · exact hx
      · exact absurd (congrArg VarRef.loc hx) (htargets φ hφ)
  · intro x hx
    rcases sources_cases edge phis x with hself | ⟨φ, hφ, _, hoperand⟩
    · exact hself.symm.trans hx
    · obtain ⟨arm, harm, hvar⟩ := map_eq_some_iff.mp hoperand
      exact absurd (hvar.trans hx) (harms φ hφ arm (armOn_mem harm))

/-- Reading one operand after the other is reading all of them at once. -/
lemma Subst.ofPairs_pairs (htagged : ∀ φ ∈ phis, φ.Tagged edge) (horder : Phi.Resolved edge phis) :
    Subst.ofPairs (Phi.pairs edge phis) = Phi.sources edge phis := by
  induction phis with
  | nil => rfl
  | cons φ rest ih =>
    obtain ⟨hφ, hrest⟩ := forall_mem_cons.mp htagged
    obtain ⟨hlater, horder'⟩ := pairwise_cons.mp horder
    obtain ⟨arm, harm, _, hfilter⟩ := hφ.exists_arm
    have hoperand : φ.operand edge = some arm.var := by rw [Phi.operand, harm, map_some]
    have hpairs : Phi.pairs edge (φ :: rest) = (φ.target, arm.var) :: Phi.pairs edge rest := by
      rw [Phi.pairs, flatMap_cons, hfilter]
      rfl
    rw [hpairs, Subst.ofPairs, ih hrest horder']
    funext x
    show (Phi.sources edge rest).apply (Subst.single φ.target arm.var x) =
      if x = φ.target then (φ.operand edge).getD (.loc x) else Phi.sources edge rest x
    unfold Subst.single
    split
    · rw [hoperand, Option.getD_some]
      refine Phi.sources_apply_self fun ψ hψ hv => hlater ψ hψ ?_
      rw [hoperand, hv]
    · rfl

lemma State.set_setAll (s : State) {x : LocalId} {y : Value} {bindings : List (LocalId × Value)}
    (h : x ∉ bindings.map (·.1)) : (s.set x y).setAll bindings = (s.setAll bindings).set x y := by
  unfold setAll
  induction bindings generalizing s with
  | nil => rfl
  | cons b rest ih =>
    obtain ⟨hne, hrest⟩ := not_or.mp (fun hor => h (mem_cons.mpr hor))
    have hswap : (s.set x y).set b.1 b.2 = (s.set b.1 b.2).set x y := by
      refine State.ext rfl rfl (funext fun z => ?_)
      simp only [State.set_locals]
      by_cases hzx : z = x
      · rw [if_pos hzx, if_neg (fun hzb => hne (hzx.symm.trans hzb)), if_pos hzx]
      · rw [if_neg hzx, if_neg hzx]
    rw [foldl_cons, foldl_cons, hswap, ih _ hrest]

/-- Binding the targets of phis is reading their operands for them. -/
lemma State.setAll_eq_through {s : State} (hnodup : (phis.map (·.target)).Nodup)
    (h : s.phiValues edge phis = some values) : s.setAll values = s.through (Phi.sources edge phis) := by
  induction phis generalizing values with
  | nil =>
    cases h
    exact State.ext rfl rfl rfl
  | cons φ rest ih =>
    obtain ⟨v, x, values', hoperand, hx, hvalues', rfl⟩ := phiValues_cons h
    obtain ⟨hφ, hnodup'⟩ := nodup_cons.mp hnodup
    have hset : s.setAll ((φ.target, x) :: values') = (s.setAll values').set φ.target x := by
      refine set_setAll s ?_
      rw [phiValues_targets hvalues']
      exact hφ
    rw [hset, ih hnodup' hvalues']
    refine State.ext rfl rfl (funext fun z => ?_)
    show (if z = φ.target then some x else s.read (Phi.sources edge rest z)) =
      s.read (if z = φ.target then (φ.operand edge).getD (.loc z) else Phi.sources edge rest z)
    split
    · rw [hoperand, Option.getD_some, hx]
    · rfl

end Sources

/-- Instructions for the condition of a loop that stand on an edge into it, and read the operands of
its phis for their targets, do what they do after the phis are bound. -/
theorem Joins.enters {lo hi : Nat} {phis : List Phi} {A K : List Inst} {e e' : Expr}
    (hjoin : Joins Γ calls ρ edge phis A phis') (hcond : Tests Γ calls ρ e K e')
    (hK : ∀ i ∈ K, i.Defines lo hi) (hspares : ∀ φ ∈ phis, ρ.Spares (.loc φ.target))
    (hnodup : (phis'.map (·.target)).Nodup) (htargets : ∀ φ ∈ phis', φ.target.index < lo)
    (harms : ∀ φ ∈ phis', ∀ arm ∈ φ.arms, ∀ x, arm.var = .loc x → ¬ (lo ≤ x.index ∧ x.index < hi)) :
    Enters Γ calls ρ edge phis e (A ++ K.map (Inst.subst (Phi.sources edge phis'))) phis' e' := by
  -- nothing of what the instructions define is a target or an operand
  have hsources : ∀ x : LocalId, lo ≤ x.index ∧ x.index < hi → (Phi.sources edge phis').Spares (.loc x) := by
    intro x hx
    refine Phi.sources_spares (fun φ hφ heq => ?_) fun φ hφ arm harm heq => harms φ hφ arm harm x heq hx
    cases heq
    exact Nat.not_lt.mpr hx.1 (htargets φ hφ)
  intro s s' values b hs hvalues hb
  obtain ⟨u', hA, hu', hvalues', htyped⟩ := hjoin s s' values hs hvalues
  obtain ⟨w, hstep, hw, hb'⟩ := hcond _ _ b (hu'.join hspares hvalues htyped) hb
  rw [setAll_eq_through hnodup hvalues'] at hstep
  obtain ⟨w', hK', hw'⟩ := sim_subst (c := ofInsts K) (by
      intro i hi
      rw [insts_ofInsts] at hi
      exact (hK i hi).isCall) (by
      intro i hi v hv
      rw [insts_ofInsts] at hi
      obtain ⟨x, rfl, hx⟩ := (hK i hi).writes hv
      exact hsources x hx) _ u' .next w rfl hstep
  cases (show w = w'.through (Phi.sources edge phis') from hw')
  rw [subst_ofInsts] at hK'
  have hdefines : ∀ i ∈ K.map (Inst.subst (Phi.sources edge phis')), i.Defines lo hi := by
    intro i hi
    obtain ⟨j, hj, rfl⟩ := mem_map.mp hi
    exact (hK j hj).subst _
  obtain ⟨hworld, hframe⟩ := frame_of_defines hdefines hK'
  have hvalues'' : w'.phiValues edge phis' = some values := by
    refine phiValues_mono (fun φ hφ arm harm x hx => ?_) hvalues'
    cases hvar : arm.var with
    | loc z =>
      rw [hvar] at hx
      exact (hframe z (harms φ hφ arm harm z hvar)).trans hx
    | glob g =>
      rw [hvar] at hx
      have hglobals : w'.globals = u'.globals := congrArg World.globals hworld
      rw [State.read, hglobals]
      exact hx
  refine ⟨w', values, ?_, hvalues'', ?_, ?_⟩
  · rw [ofInsts_append, step_append]
    exact .inl ⟨u', hA, hK'⟩
  · rw [setAll_eq_through hnodup hvalues'']
    exact hw
  · rw [setAll_eq_through hnodup hvalues'']
    exact hb'

end ActorNet
