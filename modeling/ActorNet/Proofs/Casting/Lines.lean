import ActorNet.Proofs.Casting.Joins
import ActorNet.Proofs.Types.Conversion

/-!
# Casts in a block

Casting walks through the instructions of a block. For most of them it puts new instructions in
front. For a load whose target is declared otherwise than what it reads, the target changes its
type, a cast into a temporary follows, and the temporary is read for the target everywhere. So a
step of the walk changes the block in place up to a substitution (`PartCast`), and the new
instructions mimic the old ones if all casts widen (`castInsts_rewrites`).

`Advances` says what all steps keep: under the substitution variables keep their types, and casts
that widen afterwards widened before.
-/

namespace ActorNet

open Code List Procedure State Tree

variable {e e' : Expr} {inst inst' old : Inst} {data : InstData}
  {i : InstId} {new post pre : List InstId} {globals : List Variable} {target : LocalId}
  {k n N M lo hi : Nat} {b : NodeId} {o : Outside} {q q' p0 q1 : Procedure} {Γ : Scope}
  {τ ρ τ' : Subst} {declared loaded required ty : Ty} {u : Unit} {y : Value} {source v : VarRef}
  {T T' spared : LocalId → Prop} {calls : CallStep} {L : NodeList} {d r : Tree} {W : Prop}

/-! ## Instructions over truth values and integers -/

/-- A variable is declared with `bool` or an integer type. -/
def VarRef.Plain (Γ : Scope) (v : VarRef) : Prop := ∃ ty ∈ Γ.ty? v, ty.isPlain = true
deriving Decidable

namespace Inst

/-- An instruction over truth values and integers: so are its variables and expressions. An index
path selects from a list, so there is none. -/
def Plain (Γ : Scope) : Inst → Prop
  | assign target value => (VarRef.loc target).Plain Γ ∧ value.Plain Γ
  | load target source indexes => (VarRef.loc target).Plain Γ ∧ source.Plain Γ ∧ indexes = []
  | store target indexes value => target.Plain Γ ∧ indexes = [] ∧ value.Plain Γ
  | call target _ args => (∀ id ∈ target, (VarRef.loc id).Plain Γ) ∧ ∀ e ∈ args, e.Plain Γ
  | phi target arms => (VarRef.loc target).Plain Γ ∧ ∀ arm ∈ arms, arm.var.Plain Γ
  | ret value => ∀ e ∈ value, e.Plain Γ
  | cast source target _ => source.Plain Γ ∧ (VarRef.loc target).Plain Γ

/-- No cast is needed inside of a right operand of a logical operator. -/
def Orderly (Γ : Scope) : Inst → Prop
  | assign _ value => value.Orderly Γ
  | store _ _ value => value.Orderly Γ
  | ret value => ∀ e ∈ value, e.Orderly Γ
  | _ => True

/-- If the instruction is a cast, what it gives has the type of its target. -/
def Converts (Γ : Scope) : Inst → Prop
  | cast source target ty => Γ.ty? (.loc target) = some ty ∧
      (Γ.ty? source = some .bool → ty = .bool ∨ (Value.int 1).HasTy ty)
  | _ => True

/-- If the instruction is a phi, its operands have no guards. -/
def Unguarded : Inst → Prop
  | phi _ arms => ∀ arm ∈ arms, arm.guard = none
  | _ => True

instance (Γ : Scope) : (i : Inst) → Decidable (i.Plain Γ)
  | assign .. | load .. | store .. | cast .. => inferInstanceAs (Decidable (_ ∧ _))
  | call target _ args => inferInstanceAs (Decidable ((∀ id ∈ target, (VarRef.loc id).Plain Γ) ∧ ∀ e ∈ args, e.Plain Γ))
  | phi _ arms => inferInstanceAs (Decidable (_ ∧ ∀ arm ∈ arms, arm.var.Plain Γ))
  | ret value => inferInstanceAs (Decidable (∀ e ∈ value, e.Plain Γ))

instance (Γ : Scope) : (i : Inst) → Decidable (i.Orderly Γ)
  | assign _ value | store _ _ value => inferInstanceAs (Decidable (value.Orderly Γ))
  | ret value => inferInstanceAs (Decidable (∀ e ∈ value, e.Orderly Γ))
  | load .. | call .. | phi .. | cast .. => isTrue trivial

instance (Γ : Scope) : (i : Inst) → Decidable (i.Converts Γ)
  | cast source _ ty =>
    inferInstanceAs (Decidable (_ ∧ (Γ.ty? source = some .bool → ty = .bool ∨ (Value.int 1).HasTy ty)))
  | assign .. | load .. | store .. | call .. | phi .. | ret _ => isTrue trivial

/-- What casting asks of an instruction. -/
structure Castable (Γ : Scope) (i : Inst) : Prop where
  noCall : i.isCall = false
  plain : i.Plain Γ
  orderly : i.Orderly Γ
  converts : i.Converts Γ
  unguarded : i.Unguarded

end Inst

/-- What casting asks of a phi with operands on the given edges. -/
structure Phi.Castable (Γ : Scope) (edges : List Edge) (φ : Phi) : Prop where
  target : (VarRef.loc φ.target).Plain Γ
  operands : ∀ arm ∈ φ.arms, arm.var.Plain Γ
  tagged : ∀ edge ∈ edges, φ.Tagged edge

/-- What casting asks of a condition. -/
structure Expr.Castable (Γ : Scope) (e : Expr) : Prop where
  plain : e.Plain Γ
  orderly : e.Orderly Γ

/-- What casting asks of code. The instructions for the condition of a loop are copied to the edges
into the loop, where they read one operand after the other: so the phis have to allow that if there
are such instructions. -/
def Code.Castable (Γ : Scope) : Code → Prop :=
  Code.Forall (fun i predicate => i.Castable Γ ∧ predicate = none)
    (fun c phis => c.Castable Γ ∧ ∀ φ ∈ phis, φ.Castable Γ [.thenEnd, .elseEnd])
    (fun c phis => c.Castable Γ ∧ (∀ φ ∈ phis, φ.Castable Γ [.entry, .back]) ∧
      (c.Exact Γ .bool ∨ ∀ edge ∈ [Edge.entry, .back], Phi.Resolved edge phis))

lemma Code.Castable.insts {c : Code} (h : c.Castable (p0.scope globals)) :
    ∀ i ∈ c.insts, i.isCall = false ∧ ∀ v ∈ i.writes?, v.Below p0.locals.size := by
  have hbelow : ∀ {i : Inst}, i.Plain (p0.scope globals) → ∀ v ∈ i.writes?, v.Below p0.locals.size := by
    intro i hi v hv
    cases i with
    | assign | load | store | phi =>
      cases hv
      obtain ⟨⟨ty, hty, _⟩, _⟩ := hi
      exact VarRef.below_of_ty? hty
    | cast =>
      cases hv
      obtain ⟨_, ty, hty, _⟩ := hi
      exact VarRef.below_of_ty? hty
    | call target =>
      obtain ⟨x, hx, rfl⟩ := map_eq_some_iff.mp hv
      obtain ⟨ty, hty, _⟩ := hi.1 x hx
      exact VarRef.below_of_ty? hty
    | ret => cases hv
  refine Code.forall_insts.mp (Code.Forall.and_imp h h (fun i _ hi _ => ⟨hi.1.noCall, hbelow hi.1.plain⟩)
    (fun _ _ hphis _ φ hφ => ⟨rfl, ?_⟩) fun _ _ hphis _ φ hφ => ⟨rfl, ?_⟩)
  · exact hbelow (i := φ.inst) ⟨(hphis.2 φ hφ).target, (hphis.2 φ hφ).operands⟩
  · exact hbelow (i := φ.inst) ⟨(hphis.2.1 φ hφ).target, (hphis.2.1 φ hφ).operands⟩

namespace Value

/-- A conversion gives a value of the type that it converts to. One has no integer type of one
bit. -/
lemma HasTy.of_convert {x : Value} {a : Ty} (hx : x.HasTy a) (hty : ty.isPlain = true)
    (hone : a = .bool → ty = .bool ∨ (Value.int 1).HasTy ty) (h : x.convert "" ty = .ok y) : y.HasTy ty := by
  cases ty with
  | int | uint =>
    obtain ⟨n, rfl, hn⟩ := exists_of_convert rfl h (by
      rintro hty (_ | _)
      · rw [hty] at hone
        exact absurd (hone hx) (by decide)
      · exact hx.elim)
    exact hn
  | bool => cases x <;> cases h <;> rfl
  | float | string | void | list => cases hty

end Value

lemma State.picks_of_unguarded (s : State) {arms : List PhiArm}
    (h : ∀ arm ∈ arms, arm.guard = none) : s.picks arms = none := by
  induction arms with
  | nil => rfl
  | cons arm rest ih =>
    obtain ⟨harm, hrest⟩ := forall_mem_cons.mp h
    rw [picks, harm]
    exact ih hrest

/-! ## Steps of the walk -/

lemma Subst.andThen_id (σ : Subst) : σ.andThen .id = σ := funext fun x => Subst.apply_id (σ x)

lemma Subst.andThen_assoc (σ τ υ : Subst) : (σ.andThen τ).andThen υ = σ.andThen (τ.andThen υ) :=
  funext fun x => (Subst.apply_andThen τ υ (σ x)).symm

lemma Scope.Maps.andThen {Δ Θ : Scope} {σ : Subst} (h : Γ.Maps Δ σ) (h' : Δ.Maps Θ τ) : Γ.Maps Θ (σ.andThen τ) := by
  intro v ty hty
  rw [Subst.apply_andThen]
  exact h' _ ty (h v ty hty)

/-- What a step of casting keeps, under the substitution that it has made. It has moved locals of
the kind `T` only, to temporaries that it has made. If what instructions define is declared (`W`),
these are locals of `p0`. -/
structure Advances (o : Outside) (p0 : Procedure) (W : Prop) (T : LocalId → Prop) (τ : Subst)
    (q q' : Procedure) : Prop where
  moves : τ.Moves (fun x => T x ∧ (W → x.index < p0.locals.size)) q.locals.size q'.locals.size
  live : q.KeepsLive q'
  lands : ∀ x k, τ x = .loc k → k = x ∨ (q'.local? k).isSome
  maps : (q.scope o.globals).Maps (q'.scope o.globals) τ
  widens : q'.WidensFrom o.globals p0.insts.size → q.WidensFrom o.globals p0.insts.size
  locals_size : q.locals.size ≤ q'.locals.size
  insts_size : q.insts.size ≤ q'.insts.size
  returnTy : q'.returnTy = q.returnTy

section Advances

/-- Casts widened before if each has an image that widens, under a substitution that keeps types up
to lists. -/
lemma Procedure.WidensFrom.of_images (h : q'.WidensFrom globals n) (himage : ∀ i d, n ≤ i.index →
    q.inst? i = some d → ∃ σ i' d', (q.scope globals).Agrees (q'.scope globals) σ ∧ n ≤ i'.index ∧
      q'.inst? i' = some d' ∧ d'.inst = d.inst.subst σ) : q.WidensFrom globals n := by
  intro k hk hn
  unfold Procedure.WidensAt
  split
  · rename_i source target ty block predicate hd
    obtain ⟨σ, i', d', hagrees, hi', hd', hinst⟩ := himage ⟨k⟩ _ hn hd
    intro a ha
    obtain ⟨a', ha', hsame⟩ := hagrees source a ha
    exact hsame.widens (h.cast hi' hd' hinst ha')
  · trivial

lemma Procedure.WidensFrom.of_subst (h : q'.WidensFrom globals n) (hmaps : (q.scope globals).Maps (q'.scope globals) τ)
    (hinsts : ∀ i d, n ≤ i.index → q.inst? i = some d → ∃ d', q'.inst? i = some d' ∧ d'.inst = d.inst.subst τ) :
    q.WidensFrom globals n := by
  refine h.of_images fun i d hi hd => ?_
  obtain ⟨d', hd', hinst⟩ := hinsts i d hi hd
  exact ⟨τ, i, d', hmaps.agrees, hi, hd', hinst⟩

namespace Advances

lemma mono (h : Advances o p0 W T τ q q') (hT : ∀ x, T x → T' x) : Advances o p0 W T' τ q q' :=
  { h with moves := h.moves.mono (fun x hx => ⟨hT x hx.1, hx.2⟩) le_rfl le_rfl }

lemma trans (h : Advances o p0 W T τ q q1) (h' : Advances o p0 W T' τ' q1 q') :
    Advances o p0 W (fun x => T x ∨ T' x) (τ.andThen τ') q q' where
  moves := by
    have hmoves := (h.moves.mono (fun _ hx => hx) le_rfl h'.locals_size).andThen
      (h'.moves.mono (fun _ hx => hx) h.locals_size le_rfl)
    refine hmoves.mono (fun x hx => ?_) le_rfl le_rfl
    exact hx.elim (fun hx => ⟨.inl hx.1, hx.2⟩) fun hx => ⟨.inr hx.1, hx.2⟩
  live := fun x hx => h'.live x (h.live x hx)
  lands := by
    intro x k hk
    rw [Subst.andThen] at hk
    rcases h.moves x with hx | ⟨_, j, hj, _⟩
    · rw [hx] at hk
      exact h'.lands x k hk
    · rw [hj] at hk
      rcases h'.lands j k hk with rfl | hlive
      · exact (h.lands x k hj).imp_right (h'.live k)
      · exact .inr hlive
  maps := h.maps.andThen h'.maps
  widens := fun hwide => h.widens (h'.widens hwide)
  locals_size := h.locals_size.trans h'.locals_size
  insts_size := h.insts_size.trans h'.insts_size
  returnTy := h'.returnTy.trans h.returnTy

/-- A step without a substitution: locals stay declared as they are, and so do instructions that are
new since `p0`. -/
lemma of_id (hlocals : ∀ x v, q.local? x = some v → q'.local? x = some v)
    (hinsts : ∀ i d, p0.insts.size ≤ i.index → q.inst? i = some d → ∃ d', q'.inst? i = some d' ∧ d'.inst = d.inst)
    (hlocals_size : q.locals.size ≤ q'.locals.size) (hinsts_size : q.insts.size ≤ q'.insts.size)
    (hreturn : q'.returnTy = q.returnTy) : Advances o p0 W T .id q q' := by
  have hmaps := Scope.maps_of_locals hlocals o.globals
  refine ⟨Subst.moves_id _ _ _, .of_locals hlocals, fun x k hk => .inl (VarRef.loc.inj hk).symm, hmaps,
    fun hwide => hwide.of_subst hmaps fun i d hi hd => ?_, hlocals_size, hinsts_size, hreturn⟩
  rw [Inst.subst_id]
  exact hinsts i d hi hd

/-- A step that leaves all locals alone. -/
lemma of_locals (hlocals : q'.locals = q.locals)
    (hinsts : ∀ i d, p0.insts.size ≤ i.index → q.inst? i = some d → ∃ d', q'.inst? i = some d' ∧ d'.inst = d.inst)
    (hsize : q.insts.size ≤ q'.insts.size) (hreturn : q'.returnTy = q.returnTy) : Advances o p0 W T .id q q' := by
  refine of_id (fun x v hv => ?_) hinsts (by rw [hlocals]) hsize hreturn
  rw [local?, hlocals]
  exact hv

lemma of_extends (h : q.Extends q') : Advances o p0 W T .id q q' := by
  refine of_id h.locals (fun i d _ hd => ⟨d, ?_, rfl⟩) h.locals_size h.insts_size h.returnTy
  rw [h.insts i (index_lt_of_inst? hd), hd]

lemma refl (q : Procedure) : Advances o p0 W T .id q q := of_extends (Procedure.Extends.refl q)

lemma trans_id (h : Advances o p0 W T τ q q1) (h' : Advances o p0 W T' .id q1 q') : Advances o p0 W T τ q q' := by
  have hsame : Advances o p0 W T .id q1 q' := { h' with moves := Subst.moves_id _ _ _ }
  have htrans := (h.trans hsame).mono fun _ hx => hx.elim id id
  rw [Subst.andThen_id] at htrans
  exact htrans

lemma spares (h : Advances o p0 W T ρ p0 q) (hv : v.Below p0.locals.size) (hself : ρ.apply v = v) : ρ.Spares v := by
  refine ⟨hself, fun x hx => ?_⟩
  rcases h.moves x with hx' | ⟨_, k, hk, hlow, _⟩
  · exact hx'.symm.trans hx
  · rw [← hx, hk] at hv
    exact absurd hv (Nat.not_lt.mpr hlow)

lemma liveIn {vars : List VarRef} (h : Advances o p0 W T τ q q') (hvars : q.LiveIn spared vars) :
    q'.LiveIn spared (vars.map τ.apply) := by
  intro k hk
  obtain ⟨v, hv, hk⟩ := mem_map.mp hk
  cases v with
  | glob g => cases hk
  | loc x =>
    rcases h.lands x k hk with rfl | hlive
    · exact (hvars k hv).imp_right (h.live k)
    · exact .inr hlive

lemma liveIn_inst (h : Advances o p0 W T τ q q') (hinst : q.LiveIn spared inst.named) :
    q'.LiveIn spared (inst.subst τ).named := by
  obtain ⟨huses, hdef⟩ := liveIn_append.mp hinst
  rw [Inst.named, Inst.uses_subst, Inst.def?_subst]
  exact liveIn_append.mpr ⟨h.liveIn huses, hdef.mono h.live⟩

lemma live_code {c : Code} (h : Advances o p0 W T τ q q') (hc : c.Live spared q) : (c.subst τ).Live spared q' := by
  have hsites : ∀ {e : Expr} {phis : List Phi}, q.LiveIn spared e.uses ∧ (∀ φ ∈ phis, q.LiveIn spared φ.inst.named) →
      q'.LiveIn spared (e.subst τ).uses ∧ ∀ φ ∈ phis.map (Phi.subst τ), q'.LiveIn spared φ.inst.named := by
    rintro e phis ⟨he, hphis⟩
    rw [Expr.uses_subst]
    exact ⟨h.liveIn he, forall_mem_map.mpr fun φ hφ => h.liveIn_inst (hphis φ hφ)⟩
  induction c with
  | done => trivial
  | inst i predicate rest ih => exact ⟨h.liveIn_inst hc.1, ih hc.2⟩
  | branch c t e phis rest iht ihe ih => exact ⟨hsites hc.1, iht hc.2.1, ihe hc.2.2.1, ih hc.2.2.2⟩
  | loop c body phis rest ihb ih => exact ⟨hsites hc.1, ihb hc.2.1, ih hc.2.2⟩

end Advances

end Advances

/-! ## Code that has been cast -/

/-- Code of `p0` has become code that names live locals in `q` if the code did in `p0`. -/
def Code.LivesOn (p0 q : Procedure) (c c' : Code) : Prop := ∀ spared, c.Live spared p0 → c'.Live spared q

lemma Code.live_ofInsts {K : List Inst} (h : ∀ i ∈ K, q.LiveIn spared i.named) : (ofInsts K).Live spared q :=
  forall_ofLines.mpr (forall_mem_map.mpr h)

/-- Two instructions write the same, and both are calls or casts if one of them is. -/
def Inst.Like (i j : Inst) : Prop :=
  i.writes? = j.writes? ∧ i.isCall = j.isCall ∧ i.isCast = j.isCast

/-- Code of `p0` has become settled code in `q`, with a number of new casts. What it writes is what
the code writes, and temporaries. -/
structure Grown (o : Outside) (p0 : Procedure) (S : Prop) (q : Procedure) (k : Nat) (c c' : Code) : Prop where
  lines : ∀ i ∈ c'.insts, i.Defines p0.locals.size q.locals.size ∨ ∃ j ∈ c.insts, i.Like j
  settled : c'.Settled o S q
  casts : c'.casts = c.casts + k

/-- Code of `p0` has been cast in `q`, where its locals are read through `ρ`. If it can be cast and
all casts widen, it is mimicked. -/
structure Casted (o : Outside) (p0 : Procedure) (S : Prop) (q : Procedure) (ρ : Subst) (k : Nat)
    (c c' : Code) : Prop extends Grown o p0 S q k c c' where
  mimics : ∀ calls, c.Castable (p0.scope o.globals) → q.WidensFrom o.globals p0.insts.size →
    Mimics (p0.scope o.globals) calls ρ c c'

/-- What casting needs to leave an instruction settled: what it defines is declared, and where
comparisons count, they compare no lists. -/
structure Inst.Ready (o : Outside) (p0 : Procedure) (S : Prop) (i : Inst) : Prop where
  scalars : S → i.ComparesScalars (p0.scope o.globals)
  live : ∀ x ∈ i.def?, x.index < p0.locals.size

/-- What casting needs to leave code settled. -/
def Code.Ready (o : Outside) (p0 : Procedure) (S : Prop) : Code → Prop :=
  Code.Forall (fun i _ => i.Ready o p0 S)
    (fun e phis => (S → e.ComparesScalars (p0.scope o.globals)) ∧ ∀ φ ∈ phis, φ.target.index < p0.locals.size)
    (fun e phis => (S → e.ComparesScalars (p0.scope o.globals)) ∧ ∀ φ ∈ phis, φ.target.index < p0.locals.size)

section Casted

variable {S : Prop} {c c' c1 c1' : Code} {m : Nat} {K J : List Inst} {predicate : Option Expr}

lemma Inst.countP_isCast_subst (σ : Subst) (insts : List Inst) :
    (insts.map (Inst.subst σ)).countP Inst.isCast = insts.countP Inst.isCast := by
  rw [countP_map]
  exact countP_congr fun i _ => by rw [Function.comp, Inst.isCast_subst]

lemma Inst.Like.subst {i j : Inst} (h : i.Like j) (σ : Subst) : (i.subst σ).Like j := by
  obtain ⟨hwrites, hcall, hcast⟩ := h
  exact ⟨(i.writes?_subst σ).trans hwrites, (i.isCall_subst σ).trans hcall, (i.isCast_subst σ).trans hcast⟩

lemma Advances.settled {K : List Inst} (h : Advances o p0 W T τ q q') (hW : W)
    (hdefines : ∀ i ∈ K, i.Defines lo hi) (hlo : p0.locals.size ≤ lo) (hhi : hi ≤ q.locals.size)
    (hK : ∀ i ∈ K, i.Settled o S q) : ∀ i ∈ K.map (Inst.subst τ), i.Settled o S q' := by
  refine forall_mem_map.mpr fun i hi => (hK i hi).subst h.maps h.returnTy fun v hv => ?_
  exact ((hdefines i hi).spares h.moves (fun x hx => Nat.lt_of_lt_of_le (hx.2 hW) hlo) hhi hv).1

lemma Advances.keeps_settled (h : Advances o p0 W T .id q q') (hsettled : inst.Settled o S q) : inst.Settled o S q' := by
  have hsubst := hsettled.subst h.maps h.returnTy fun v _ => Subst.apply_id v
  rw [Inst.subst_id] at hsubst
  exact hsubst

namespace Grown

lemma done : Grown o p0 S q 0 .done .done :=
  ⟨forall_mem_nil _, trivial, rfl⟩

lemma append (h : Grown o p0 S q k c c') (h' : Grown o p0 S q m c1 c1') :
    Grown o p0 S q (k + m) (c.append c1) (c'.append c1') where
  lines := by
    rw [Code.insts_append, Code.insts_append]
    refine forall_mem_append.mpr ⟨fun i hi => (h.lines i hi).imp_right ?_, fun i hi => (h'.lines i hi).imp_right ?_⟩
    · rintro ⟨j, hj, hlike⟩
      exact ⟨j, mem_append_left _ hj, hlike⟩
    · rintro ⟨j, hj, hlike⟩
      exact ⟨j, mem_append_right _ hj, hlike⟩
  settled := forall_append.mpr ⟨h.settled, h'.settled⟩
  casts := by
    have hcasts := h.casts
    have hcasts' := h'.casts
    simp only [Code.casts, Code.insts_append, countP_append] at hcasts hcasts' ⊢
    omega

/-- New instructions, which define temporaries. -/
lemma ofInsts (hdefines : ∀ i ∈ K, i.Defines p0.locals.size q.locals.size) (hsettled : ∀ i ∈ K, i.Settled o S q)
    (hcasts : K.countP Inst.isCast = k) : Grown o p0 S q k .done (.ofInsts K) where
  lines := by
    rw [insts_ofInsts]
    exact fun i hi => .inl (hdefines i hi)
  settled := forall_ofLines.mpr (forall_mem_map.mpr hsettled)
  casts := by
    rw [Code.casts, insts_ofInsts, hcasts]
    exact (Nat.zero_add k).symm

lemma single {predicate' : Option Expr} (hsettled : inst'.Settled o S q) (hlike : inst'.Like inst) :
    Grown o p0 S q 0 (.inst inst predicate .done) (.inst inst' predicate' .done) where
  lines := forall_mem_singleton.mpr (.inr ⟨inst, mem_cons_self, hlike⟩)
  settled := ⟨hsettled, trivial⟩
  casts := by simp only [Code.casts, Code.insts, countP_cons, hlike.2.2, Nat.add_zero]

end Grown

namespace Casted

lemma append (h : Casted o p0 S q ρ k c c') (h' : Casted o p0 S q ρ m c1 c1') :
    Casted o p0 S q ρ (k + m) (c.append c1) (c'.append c1') :=
  ⟨h.toGrown.append h'.toGrown, fun calls hcast hwide =>
    have hparts := forall_append.mp hcast
    (h.mimics calls hparts.1 hwide).append (h'.mimics calls hparts.2 hwide)⟩

/-- A further step, which moves nothing that the code writes. -/
lemma advance (h : Casted o p0 S q ρ k c c') (hadvance : Advances o p0 W T τ q q') (hW : W)
    (hapart : ∀ x ∈ c.writes, ¬ T x) (hN : p0.locals.size ≤ q.locals.size) :
    Casted o p0 S q' (ρ.andThen τ) k c (c'.subst τ) := by
  have hcase : ∀ i ∈ c'.insts, ∀ v ∈ i.writes?, τ.Spares v ∨ ∃ j ∈ c.insts, v ∈ j.writes? ∧ ∀ x, v = .loc x → ¬ T x := by
    intro i hi v hv
    rcases h.lines i hi with hdefines | ⟨j, hj, hwrites, _⟩
    · exact .inl (hdefines.spares hadvance.moves (fun x hx => hx.2 hW) le_rfl hv)
    · rw [hwrites] at hv
      refine .inr ⟨j, hj, hv, fun x hx => hapart x (mem_writes_of_inst hj ?_)⟩
      rw [← hx]
      exact hv
  refine ⟨⟨?_, h.settled.subst hadvance.maps hadvance.returnTy fun i hi v hv => ?_, ?_⟩, fun calls hcast hwide =>
    (h.mimics calls hcast (hadvance.widens hwide)).rename (fun i hi => ?_) fun i hi v hv => ?_⟩
  · rw [insts_subst]
    refine forall_mem_map.mpr fun i hi =>
      (h.lines i hi).imp (fun hdefines => ?_) fun ⟨j, hj, hlike⟩ => ⟨j, hj, hlike.subst τ⟩
    exact (hdefines.subst τ).mono le_rfl hadvance.locals_size
  · refine (hcase i hi v hv).elim (·.1) fun ⟨j, hj, hv, hnot⟩ => ?_
    cases v with
    | glob g => rfl
    | loc x => exact (hadvance.moves x).resolve_right fun hmoved => hnot x rfl hmoved.1.1
  · have hcasts := h.casts
    rw [Code.casts, insts_subst, Inst.countP_isCast_subst, ← Code.casts, hcasts]
  · rcases h.lines i hi with hdefines | ⟨j, hj, _, hcall, _⟩
    · exact hdefines.isCall
    · exact hcall.trans (hcast.insts j hj).1
  · refine (hcase i hi v hv).elim id
      fun ⟨j, hj, hv, hnot⟩ => hadvance.moves.spares (fun x hx hmoved => hnot x hx hmoved.1) ?_
    intro x hx hrange
    have hbelow := (hcast.insts j hj).2 v hv
    rw [hx] at hbelow
    exact Nat.not_lt.mpr hrange.1 (hbelow.trans_le hN)

lemma advance_id (h : Casted o p0 S q ρ k c c') (hadvance : Advances o p0 W (fun _ => False) .id q q') (hW : W)
    (hN : p0.locals.size ≤ q.locals.size) : Casted o p0 S q' ρ k c c' := by
  have hcasted := h.advance hadvance hW (fun _ _ hx => hx) hN
  rw [Subst.andThen_id, Code.subst_id] at hcasted
  exact hcasted

/-- An instruction, between others that define temporaries. -/
lemma line (hdefines : ∀ i ∈ K ++ J, i.Defines p0.locals.size q.locals.size)
    (hK : ∀ i ∈ K ++ J, i.Settled o S q) (hcasts : (K ++ J).countP Inst.isCast = k) (hsettled : inst'.Settled o S q)
    (hlike : inst'.Like inst)
    (hmimics : ∀ calls, inst.Castable (p0.scope o.globals) → q.WidensFrom o.globals p0.insts.size →
      Mimics (p0.scope o.globals) calls ρ (.inst inst none .done) ((ofInsts K).append (.inst inst' none (ofInsts J)))) :
    Casted o p0 S q ρ k (.inst inst predicate .done)
      ((ofInsts K).append (.inst inst' (predicate.map (Expr.subst ρ)) (ofInsts J))) := by
  obtain ⟨hdefines1, hdefines2⟩ := forall_mem_append.mp hdefines
  obtain ⟨hK1, hK2⟩ := forall_mem_append.mp hK
  have hself : Grown o p0 S q 0 (.inst inst predicate .done) (.inst inst' (predicate.map (Expr.subst ρ)) .done) :=
    Grown.single hsettled hlike
  have hgrown := (Grown.ofInsts hdefines1 hK1 rfl).append (hself.append (Grown.ofInsts hdefines2 hK2 rfl))
  rw [Nat.zero_add, ← countP_append, hcasts] at hgrown
  refine ⟨hgrown, ?_⟩
  rintro calls ⟨⟨hcast, rfl⟩, _⟩ hwide
  exact hmimics calls hcast hwide

end Casted

end Casted

/-! ## One instruction -/

section Line

/-- Where an expression has a value, the instructions that were put in front of it run, and the new
expression has the value. The value has the type that was required. -/
lemma CastTo.evaluates {insts : List Inst} {S : Prop}
    (h : CastTo o S n b pre post (some required) (e.subst ρ) e' new insts k q q') (he : e.Plain Γ) (ho : e.Orderly Γ)
    (hmaps : Γ.Maps (q.scope o.globals) ρ) (hwide : q'.WidensFrom o.globals n) (calls : CallStep) {s s' : State}
    (hs : Mirrors Γ ρ s s') (hy : s.eval e = some y) :
    ∃ u', (ofInsts insts).step calls s' .next u' ∧ Mirrors Γ ρ s u' ∧ u'.eval e' = some y ∧ y.HasTy required := by
  have hy' : s'.eval (e.subst ρ) = some y := (hs.eval he.declared).trans hy
  have hs' : s'.HasTypes (q.scope o.globals) (e.subst ρ).uses := by
    rw [Expr.uses_subst]
    exact hs.hasTypes hmaps he.declared
  obtain ⟨⟨u', hstep, hsame, hval⟩, hyty⟩ := h.computes (hmaps.plain he) (hmaps.orderly he ho) hwide calls s' y hs' hy'
  exact ⟨u', hstep, hs.of_sameBelow hsame fun x ty hx => VarRef.below_of_ty? (hmaps _ ty hx), hval, hyty required rfl⟩

/-- An instruction does what another one does, after instructions in front of it. -/
lemma Mimics.line {K : List Inst} (hsim : ∀ s s' f u, Mirrors Γ ρ s s' → inst.step calls s f u →
      ∃ w u', (ofInsts K).step calls s' .next w ∧ inst'.step calls w f u' ∧ match f with
        | .next => Mirrors Γ ρ u u'
        | .ret _ => SameWorld u u') :
    Mimics Γ calls ρ (.inst inst none .done) ((ofInsts K).append (.inst inst' none .done)) where
  sim := by
    intro s s' f u hs hstep
    rw [step, step, Step.seq_skip] at hstep
    rw [step_append, step, step, Step.seq_skip]
    obtain ⟨w, u', hK, hinst, hu⟩ := hsim s s' f u hs hstep
    exact ⟨u', .inl ⟨w, hK, hinst⟩, hu⟩

/-- A load whose target was retyped, and the cast after it into the temporary that is read for the
target. -/
lemma Mimics.retyped (casted : LocalId) (hρ : ρ target = .loc casted)
    (hothers : ∀ x ty, Γ.ty? (.loc x) = some ty → x ≠ target → ρ x ≠ .loc target ∧ ρ x ≠ .loc casted)
    (hsource : Γ.ty? source = some loaded) (htarget : Γ.ty? (.loc target) = some declared)
    (hwiden : loaded.Widens declared) : Mimics Γ calls ρ (.inst (.load target source []) none .done)
      (.inst (.load target (ρ.apply source) []) none (.inst (.cast (.loc target) casted declared) none .done)) where
  sim := by
    intro s s' f u hs hstep
    rw [step, step, Step.seq_skip] at hstep
    obtain ⟨y, hy, rfl, rfl⟩ := hstep
    rw [load_nil] at hy
    have hyty := hs.typed source loaded hsource y hy
    have hload : s'.load (ρ.apply source) [] = some y := by rw [load_nil, hs.read hsource, hy]
    have hconv : (s'.set target y).converted (.loc target) declared = some y := by
      refine converted_eq_some.mpr ⟨y, ?_, hyty.convert hwiden ""⟩
      rw [read_loc, set_locals_self]
    refine ⟨(s'.set target y).set casted y, ?_, hs.world, fun x ty hx => ?_, fun v ty hv z hz => ?_⟩
    · rw [step, step, step, Step.seq_skip]
      exact .inl ⟨_, ⟨y, hload, rfl, rfl⟩, y, hconv, rfl, rfl⟩
    · by_cases hxt : x = target
      · subst hxt
        rw [hρ, read_loc, set_locals_self, set_locals_self]
      · obtain ⟨hxt', hxc⟩ := hothers x ty hx hxt
        rw [set_locals_ne s y hxt, ← hs.reads x ty hx]
        cases hρx : ρ x with
        | glob g => rfl
        | loc z =>
          rw [hρx] at hxt' hxc
          rw [read_loc, read_loc, set_locals_ne _ y fun heq => hxc (congrArg VarRef.loc heq),
            set_locals_ne _ y fun heq => hxt' (congrArg VarRef.loc heq)]
    · cases v with
      | glob g => exact hs.typed _ ty hv z hz
      | loc x =>
        by_cases hxt : x = target
        · subst hxt
          rw [read_loc, set_locals_self] at hz
          cases hz
          cases htarget.symm.trans hv
          exact hyty.widen hwiden
        · rw [read_loc, set_locals_ne s y hxt] at hz
          exact hs.typed _ ty hv z hz

end Line

/-! ## Instructions of a block -/

section Block

variable {S : Prop} {insts : List Inst} {predicate : Option Expr}

/-- The instructions `mid` of a block have been cast, between `pre` and `post`. What stands around
them follows the substitution. -/
def PartCast (o : Outside) (p0 : Procedure) (W S : Prop) (L : NodeList) (d r : Tree) (b : NodeId)
    (pre mid post : List InstId) (c : Code) (ρ : Subst) (k : Nat) (q q' : Procedure) : Prop :=
  ∃ τ new, Rewrites L (d.thenBlock b (pre ++ mid ++ post) r)
      (d.thenBlock b (pre ++ new ++ post) r) (q.subst τ) q' ∧
    d.Stays (q.subst τ) q' ∧ r.Stays (q.subst τ) q' ∧ (∀ j ∈ pre ++ post, q'.inst? j = (q.subst τ).inst? j) ∧
    Advances o p0 W (· ∈ c.writes) τ q q' ∧ c.LivesOn p0 q' (.ofLines (new.filterMap q'.line?)) ∧
    (W → Casted o p0 S q' (ρ.andThen τ) k c (.ofLines (new.filterMap q'.line?)))

/-- An instruction that stays as it is. -/
lemma PartCast.of_kept (h : ListAt L (d.thenBlock b (pre ++ i :: post) r) q) (hq : Advances o p0 W T ρ p0 q)
    (hinst : q.inst? i = some ⟨inst.subst ρ, b, predicate.map (Expr.subst ρ)⟩) (hsettled : (inst.subst ρ).Settled o S q)
    (hlike : (inst.subst ρ).Like inst)
    (hsim : W → inst.Castable (p0.scope o.globals) → ∀ calls, Step.Sim (Mirrors (p0.scope o.globals) ρ)
      (Mirrors (p0.scope o.globals) ρ) SameWorld (inst.step calls) ((inst.subst ρ).step calls)) :
    PartCast o p0 W S L d r b pre [i] post (.inst inst predicate .done) ρ 0 q q := by
  have hlines : [i].filterMap q.line? = [(inst.subst ρ, predicate.map (Expr.subst ρ))] := by
    rw [filterMap_cons, line?, hinst]
    rfl
  refine ⟨.id, [i], ?_⟩
  rw [subst_id, ← append_cons]
  refine ⟨Rewrites.refl h, Stays.refl d q, Stays.refl r q, fun _ _ => rfl, Advances.refl q, ?_, ?_⟩
  · rw [hlines]
    exact fun spared hlive => ⟨hq.liveIn_inst hlive.1, trivial⟩
  · intro hW
    rw [Subst.andThen_id, hlines]
    refine Casted.line (K := []) (J := []) (forall_mem_nil _) (forall_mem_nil _) rfl hsettled hlike
      fun calls hcast _ => Mimics.line (K := []) fun s s' f u hs hstep => ?_
    obtain ⟨u', hstep', hu⟩ := hsim hW hcast calls s s' f u hs hstep
    exact ⟨s', u', ⟨rfl, rfl⟩, hstep', hu⟩

/-- An instruction that reads what another one reads, or what new instructions define, names live
locals if that one did. -/
lemma Advances.live_named (hq : Advances o p0 W T ρ p0 q) (hlive : StaysLive (inst.subst ρ).uses insts inst'.uses q q1)
    (hkeeps : q.KeepsLive q1) (hdef : inst'.def? = inst.def?) (hinst : p0.LiveIn spared inst.named) :
    (∀ j ∈ insts, q1.LiveIn spared j.named) ∧ q1.LiveIn spared inst'.named := by
  obtain ⟨huses, hdefined⟩ := liveIn_append.mp hinst
  rw [Inst.uses_subst] at hlive
  obtain ⟨hinsts, huses'⟩ := hlive spared (hq.liveIn huses)
  refine ⟨hinsts, liveIn_append.mpr ⟨huses', ?_⟩⟩
  rw [hdef]
  exact (hdefined.mono hq.live).mono hkeeps

/-- An instruction is replaced after new ones were put in front of it. -/
lemma Rewrites.replaced (o : Outside) (p0 : Procedure) (W : Prop) (T : LocalId → Prop)
    {added : List (Inst × Option Expr)} (h : ListAt L (d.thenBlock b (pre ++ i :: post) r) q) (hi : i.index < p0.insts.size)
    (hinst : q.inst? i = some data) (hemit : Emitted b pre (i :: post) new added q q1)
    (hreplace : Yields (replaceInst i inst') q1 old q') :
    Rewrites L (d.thenBlock b (pre ++ [i] ++ post) r) (d.thenBlock b (pre ++ (new ++ [i]) ++ post) r) q q' ∧
      d.Stays q q' ∧ r.Stays q q' ∧ (∀ j ∈ pre ++ post, q'.inst? j = q.inst? j) ∧ q'.locals = q1.locals ∧
      Advances o p0 W T .id q1 q' ∧ new.filterMap q'.line? = added ∧ q'.inst? i = some { data with inst := inst' } := by
  obtain ⟨hrw1, hd1, hr1⟩ := Rewrites.emitted hemit h
  obtain ⟨_, _, _, hq'⟩ := yields_replaceInst.mp hreplace
  obtain ⟨hrw2, hd2, hr2, hinst2⟩ := Rewrites.modification hrw1.list (i := i) (by simp) (by exact fun _ => rfl) hq'
  obtain ⟨_, hnodup, _⟩ := h.blockAt
  have hlt := index_lt_of_inst? hinst
  have hnot : ∀ j ∈ pre ++ post, j ≠ i := by
    rintro j hj rfl
    exact (nodup_cons.mp (nodup_middle.mp hnodup)).1 hj
  have hfresh : ∀ j ∈ new, j ≠ i := by
    rintro j hj rfl
    exact Nat.not_lt.mpr (hemit.fresh j hj) hlt
  have hlocals : q'.locals = q1.locals := by rw [hq']
  refine ⟨?_, hd1.trans hd2, hr1.trans hr2, fun j hj => ?_, hlocals, ?_, ?_, ?_⟩
  · rw [← append_cons, ← List.append_assoc, ← append_cons]
    exact hrw1.trans hrw2
  · have hjlt := h.index_lt j (by simp only [mem_append, mem_cons] at hj ⊢; tauto)
    rw [hinst2, if_neg (hnot j hj), hemit.insts j hjlt]
  · refine Advances.of_locals hlocals (fun j data hj hdata => ⟨data, ?_, rfl⟩) ?_ (by rw [hq'])
    · rw [hinst2, if_neg, hdata]
      rintro rfl
      exact Nat.not_lt.mpr hj hi
    · rw [hq']
      exact (Arena.size_modify _ _ _).ge
  · rw [filterMap_congr fun j hj => line?_congr ((hinst2 j).trans (if_neg (hfresh j hj))), hemit.lines]
  · rw [hinst2, if_pos rfl, hemit.insts i hlt, hinst]
    rfl

/-- An instruction that is replaced after new ones were put in front of it. -/
lemma PartCast.of_emitted (h : ListAt L (d.thenBlock b (pre ++ i :: post) r) q) (hq : Advances o p0 W T ρ p0 q)
    (hi : i.index < p0.insts.size) (hinst : q.inst? i = some data)
    (hpred : data.predicate = predicate.map (Expr.subst ρ))
    (hprepared : Prepared o S b pre (i :: post) new insts k q q1) (hreplace : Yields (replaceInst i inst') q1 old q')
    (hsettled : inst'.Settled o S q1) (hlike : inst'.Like inst)
    (hlive : StaysLive (inst.subst ρ).uses insts inst'.uses q q1) (hdef : inst'.def? = inst.def?)
    (hsim : W → inst.Castable (p0.scope o.globals) → q1.WidensFrom o.globals p0.insts.size → ∀ calls s s' f u,
      Mirrors (p0.scope o.globals) ρ s s' → inst.step calls s f u →
      ∃ w u', (ofInsts insts).step calls s' .next w ∧ inst'.step calls w f u' ∧ match f with
        | .next => Mirrors (p0.scope o.globals) ρ u u'
        | .ret _ => SameWorld u u') :
    PartCast o p0 W S L d r b pre [i] post (.inst inst predicate .done) ρ k q q' := by
  obtain ⟨hrw, hd, hr, hothers, hlocals, hadvance, hlines, hself⟩ := Rewrites.replaced o p0 W
    (· ∈ (Code.inst inst predicate .done).writes) h hi hinst hprepared.emitted hreplace
  have hcode : Code.ofLines ((new ++ [i]).filterMap q'.line?) =
      (ofInsts insts).append (.inst inst' (predicate.map (Expr.subst ρ)) .done) := by
    rw [filterMap_append, hlines, ofLines_append, filterMap_cons, line?, hself, map_some, hpred]
    rfl
  refine ⟨.id, new ++ [i], ?_⟩
  rw [subst_id]
  refine ⟨hrw, hd, hr, hothers, (Advances.of_extends hprepared.emitted.toExtends).trans_id hadvance, ?_, ?_⟩
  · rw [hcode]
    intro spared hinst
    obtain ⟨hinsts, hinst'⟩ := hq.live_named hlive hprepared.emitted.keepsLive hdef hinst.1
    exact forall_append.mpr ⟨live_ofInsts fun j hj => (hinsts j hj).mono hadvance.live,
      hinst'.mono hadvance.live, trivial⟩
  · intro hW
    rw [Subst.andThen_id, hcode]
    refine Casted.line (J := []) ?_ ?_ ?_ (hadvance.keeps_settled hsettled) hlike fun calls hcast hwide =>
      Mimics.line (hsim hW hcast (hadvance.widens hwide) calls)
    · rw [List.append_nil, hlocals]
      exact fun j hj => (hprepared.defines j hj).mono hq.locals_size le_rfl
    · rw [List.append_nil]
      exact fun j hj => hadvance.keeps_settled (hprepared.settled j hj)
    · rw [List.append_nil]
      exact hprepared.casts

/-- Retyping the target of a load: a temporary of the declared type is read for the target, which
has the type of what is loaded. -/
lemma yields_retypeLoad (hlt : target.index < q.locals.size)
    (hy : Yields (retypeLoad i target loaded declared) q u q') :
    ∃ q1 k, q1 = { q.subst (.single target (.loc ⟨q.locals.size⟩)) with locals := q1.locals, nextTemp := q1.nextTemp } ∧
      q1.locals.size = q.locals.size + 1 ∧ q.BoundsTemps q1 ∧
      (∀ x, (q1.local? x).map (·.ty) = if x = target then (q.local? x).map fun _ => loaded
        else if x = ⟨q.locals.size⟩ then some declared else (q.local? x).map (·.ty)) ∧
      Yields (insertAfter i (.cast (.loc target) ⟨q.locals.size⟩ declared)) q1 k q' := by
  rw [retypeLoad, yields_get_bind] at hy
  simp only [yields_bind, yields_pure] at hy
  obtain ⟨casted, q1, htemp, n, q2, huses, _, q3, hretype, k, q4, hafter, _, rfl⟩ := hy
  obtain ⟨rfl, hq1⟩ := yields_newTemp.mp htemp
  have hq2 := yields_replaceUses huses
  have hq3 := yields_modify.mp hretype
  generalize tempName _ _ = name at hq1
  have hlocals : q3.locals = (q.locals.push { name := name, ty := declared }).modify target.index
      fun v => { v with ty := loaded } := by
    rw [hq3, hq2, hq1]
    rfl
  refine ⟨q3, k, ?_, ?_, ?_, fun x => ?_, hafter⟩
  · rw [hq3, hq2, hq1]
    rfl
  · rw [hlocals, Arena.size_modify, Arena.size_push]
  · have hbounds := BoundsTemps.of_newTemp htemp
    rw [hq3, BoundsTemps, Arena.size_modify, hq2]
    exact hbounds
  · rw [local?, hlocals, Arena.get?_modify, Arena.get?_push]
    by_cases hx : x = target
    · subst hx
      rw [if_pos rfl, if_pos rfl, if_neg (Nat.ne_of_lt hlt), Option.map_map]
      rfl
    · rw [if_neg fun heq => hx (LocalId.index_inj.mp heq.symm), if_neg hx]
      by_cases hx' : x = ⟨q.locals.size⟩
      · rw [if_pos hx', if_pos (congrArg LocalId.index hx')]
        rfl
      · rw [if_neg hx', if_neg fun heq => hx' (LocalId.index_inj.mp heq)]
        rfl


/-- Retyping the target of a load that stands in a block. The cast follows, into the temporary that
is read for the target from then on. -/
lemma Rewrites.retyped (h : ListAt L (d.thenBlock b (pre ++ i :: post) r) q)
    (hinsts : p0.insts.size ≤ q.insts.size) (hlt : W → target.index < p0.locals.size)
    (htype : (q.scope o.globals).ty? (.loc target) = some declared)
    (hτ : τ = .single target (.loc ⟨q.locals.size⟩)) (hy : Yields (retypeLoad i target loaded declared) q u q') :
    ∃ j, Rewrites L (d.thenBlock b (pre ++ i :: post) r) (d.thenBlock b (pre ++ i :: j :: post) r) (q.subst τ) q' ∧
      d.Stays (q.subst τ) q' ∧ r.Stays (q.subst τ) q' ∧
      (∀ x ∈ pre ++ i :: post, q'.inst? x = (q.subst τ).inst? x) ∧ p0.insts.size ≤ j.index ∧
      q'.inst? j = some { inst := .cast (.loc target) ⟨q.locals.size⟩ declared, block := b } ∧
      Advances o p0 W (· = target) τ q q' ∧ q'.locals.size = q.locals.size + 1 ∧
      (q'.scope o.globals).ty? (.loc target) = some loaded := by
  have hbelow : target.index < q.locals.size := VarRef.below_of_ty? htype
  obtain ⟨q1, k, hq1, hsize1, htemps, hlocal1, hafter⟩ := yields_retypeLoad hbelow hy
  rw [← hτ] at hq1
  generalize hcasted : LocalId.mk q.locals.size = casted at hτ hlocal1 hafter
  have hlive : q.KeepsLive q1 := by
    intro x hx
    rw [← Option.isSome_map, hlocal1]
    split_ifs
    · rw [Option.isSome_map]
      exact hx
    · rfl
    · rw [Option.isSome_map]
      exact hx
  -- up to the locals, the procedure is the substituted one
  have hedits : Edits [] [] (q.subst τ) q1 := by
    rw [hq1]
    exact ⟨fun _ _ _ => rfl, fun _ _ _ => rfl, le_rfl, le_rfl, rfl, rfl, hlive, htemps⟩
  have hrw1 := (Rewrites.refl (h.subst τ)).outside hedits (by rw [hq1])
    (fun _ hn => by cases hn) fun _ hi => by cases hi
  obtain ⟨hb, _, hblocks⟩ := hrw1.list.blockAt
  obtain ⟨data1, hinst1, hblock1⟩ := hblocks i (by simp)
  obtain ⟨rfl, hq'⟩ := (yields_insertAfter hb hrw1.list.not_mem_before hinst1 hblock1).mp hafter
  rw [append_cons] at hrw1 hq'
  have hemit : Emitted b (pre ++ [i]) post [⟨q1.insts.size⟩] [(.cast (.loc target) casted declared, none)] q1 q' :=
    .single hrw1.list.blockAt.1 hq'
  obtain ⟨hrw2, hd2, hr2⟩ := Rewrites.emitted hemit hrw1.list
  have hty : ∀ v, (q'.scope o.globals).ty? v = (q1.scope o.globals).ty? v := by
    intro v
    rw [hq']
    rfl
  have hne : casted ≠ target := by
    rintro rfl
    rw [← hcasted] at hbelow
    exact Nat.lt_irrefl _ hbelow
  have hτtarget : τ target = .loc casted := by rw [hτ, Subst.single, if_pos rfl]
  have hτother : ∀ x, x ≠ target → τ x = .loc x := by
    intro x hx
    rw [hτ, Subst.single, if_neg hx]
  have hmaps : (q.scope o.globals).Maps (q'.scope o.globals) τ := by
    intro v ty hv
    rw [hty]
    cases v with
    | glob g => exact hv
    | loc x =>
      by_cases hx : x = target
      · subst hx
        cases htype.symm.trans hv
        rw [Subst.apply, hτtarget]
        exact (hlocal1 casted).trans (by rw [if_neg hne, if_pos rfl])
      · have hxc : x ≠ casted := by
          rintro rfl
          have hbelow := VarRef.below_of_ty? hv
          rw [← hcasted] at hbelow
          exact Nat.lt_irrefl _ hbelow
        rw [Subst.apply, hτother x hx]
        exact (hlocal1 x).trans ((if_neg hx).trans ((if_neg hxc).trans hv))
  have hsize : q'.locals.size = q.locals.size + 1 := by
    rw [← hsize1, hq']
    rfl
  have hadvance : Advances o p0 W (· = target) τ q q' := by
    refine ⟨fun x => ?_, fun x hx => ?_, fun x k hk => ?_, hmaps,
      fun hwide => hwide.of_subst hmaps fun j data _ hdata => ?_, ?_, ?_, ?_⟩
    · by_cases hx : x = target
      · subst hx
        refine .inr ⟨⟨rfl, hlt⟩, casted, hτtarget, ?_, ?_⟩
        · rw [← hcasted]
        · rw [← hcasted, hsize]
          exact Nat.lt_succ_self _
      · exact .inl (hτother x hx)
    · rw [hq']
      exact hlive x hx
    · by_cases hx : x = target
      · subst hx
        cases hτtarget.symm.trans hk
        right
        rw [hq', ← Option.isSome_map]
        exact (congrArg Option.isSome (hlocal1 casted)).trans (by rw [if_neg hne, if_pos rfl]; rfl)
      · exact .inl (VarRef.loc.inj ((hτother x hx).symm.trans hk)).symm
    · have hj := index_lt_of_inst? hdata
      refine ⟨data.subst τ, ?_, rfl⟩
      rw [hq', inst?_setBlock, inst?_push, if_neg, hq1]
      · exact (inst?_subst τ q j).trans (by rw [hdata]; rfl)
      · rintro rfl
        rw [hq1] at hj
        exact absurd hj (Nat.not_lt.mpr (size_insts_subst τ q).ge)
    · rw [hsize]
      exact Nat.le_succ _
    · have hsizes := hedits.insts_size.trans hrw2.edits.insts_size
      rw [size_insts_subst] at hsizes
      exact hsizes
    · rw [hq', hq1]
      rfl
  obtain ⟨hd, hxr, _⟩ := sound_append.mp (h.subst τ).sound
  have hstays : ∀ t : Tree, t.Sound (q.subst τ) → t.Stays (q.subst τ) q1 := fun t ht =>
    ht.stays hedits ⟨fun _ _ => not_mem_nil, fun _ _ => not_mem_nil⟩
  refine ⟨⟨q1.insts.size⟩, ?_,
    (hstays d hd).trans hd2, (hstays r (sound_append.mp hxr).2.1).trans hr2, fun j hj => ?_, ?_,
    by simpa using hemit.data, hadvance, hsize, ?_⟩
  · rw [append_cons pre i post, append_cons pre i (_ :: post), append_cons (pre ++ [i])]
    exact hrw1.trans hrw2
  · rw [hemit.insts j (hrw1.list.index_lt j (append_cons .. ▸ hj)), hq1]
    rfl
  · rw [hq1]
    exact hinsts.trans (size_insts_subst τ q).ge
  · obtain ⟨v, hv, _⟩ := map_eq_some_iff.mp htype
    refine (hty _).trans ((hlocal1 target).trans ?_)
    rw [if_pos rfl]
    exact map_eq_some_iff.mpr ⟨v, hv, rfl⟩

lemma filterMap_line?_subst {ids : List InstId} (h : ∀ j ∈ ids, q'.inst? j = (q.subst τ).inst? j) :
    ids.filterMap q'.line? = (ids.filterMap q.line?).map (substLine τ) := by
  rw [map_filterMap]
  refine filterMap_congr fun j hj => ?_
  rw [← line?_subst]
  exact line?_congr (h j hj)

/-- A load whose target is retyped, after new instructions for its indexes. -/
lemma PartCast.of_retyped {indexes indexes' : List Expr} {q2 : Procedure}
    (h : ListAt L (d.thenBlock b (pre ++ i :: post) r) q) (hq : Advances o p0 W T ρ p0 q) (hi : i.index < p0.insts.size)
    (hinst : q.inst? i = some data) (hpred : data.predicate = predicate.map (Expr.subst ρ))
    (hlt : W → target.index < p0.locals.size) (hself : W → ρ target = .loc target)
    (hprepared : Prepared o S b pre (i :: post) new insts k q q1)
    (hreplace : Yields (replaceInst i (.load target (ρ.apply source) indexes')) q1 old q2)
    (hsettled : Expr.AllSettled (q1.scope o.globals) S none indexes') (hnil : indexes = [] → indexes' = [] ∧ insts = [])
    (hloaded : q2.Element o (ρ.apply source) indexes'.length loaded)
    (hdeclared : (q2.scope o.globals).ty? (.loc target) = some declared)
    (hlive : StaysLive ((Inst.load target source indexes).subst ρ).uses insts
      (Inst.load target (ρ.apply source) indexes').uses q q1)
    (hy : Yields (retypeLoad i target loaded declared) q2 u q') :
    PartCast o p0 W S L d r b pre [i] post (.inst (.load target source indexes) predicate .done) ρ (k + 1) q q' := by
  obtain ⟨hrw1, hd1, hr1, hothers1, hlocals1, hadvance1, hlines1, hself1⟩ :=
    Rewrites.replaced o p0 W (· = target) h hi hinst hprepared.emitted hreplace
  have hadvance2 : Advances o p0 W (· = target) .id q q2 :=
    (Advances.of_extends hprepared.emitted.toExtends).trans_id hadvance1
  have hq2 := hq.trans_id hadvance2
  have hlisted : pre ++ (new ++ [i]) ++ post = pre ++ new ++ i :: post := by
    simp only [List.append_assoc, cons_append, nil_append]
  rw [hlisted] at hrw1
  generalize hτ : Subst.single target (.loc ⟨q2.locals.size⟩) = τ
  obtain ⟨j, hrw2, hd2, hr2, hothers2, hj, hcast, hadvance3, hsize, hretyped⟩ :=
    Rewrites.retyped hrw1.list hq2.insts_size hlt hdeclared hτ.symm hy
  have hτtarget : τ target = .loc ⟨q2.locals.size⟩ := by rw [← hτ, Subst.single, if_pos rfl]
  have hadvance : Advances o p0 W (· ∈ (Code.inst (.load target source indexes) predicate .done).writes) (.andThen .id τ)
      q q' := by
    refine (hadvance2.trans hadvance3).mono fun x hx => ?_
    rw [or_self] at hx
    rw [hx]
    exact mem_cons_self
  have hcode : Code.ofLines ((new ++ [i, j]).filterMap q'.line?) = (ofInsts (insts.map (Inst.subst τ))).append
      (.inst (.load target ((ρ.andThen τ).apply source) (Expr.substAll τ indexes'))
        (predicate.map (Expr.subst (ρ.andThen τ)))
        (.inst (.cast (.loc target) ⟨q2.locals.size⟩ declared) none .done)) := by
    have hbefore : new.filterMap q'.line? = (insts.map (Inst.subst τ)).map (fun inst => (inst, none)) := by
      rw [filterMap_line?_subst (q := q2) fun x hx => hothers2 x (by simp [hx]), hlines1, map_map, map_map]
      rfl
    have hload : q'.line? i = some (.load target ((ρ.andThen τ).apply source) (Expr.substAll τ indexes'),
        predicate.map (Expr.subst (ρ.andThen τ))) := by
      have hguard : (predicate.map (Expr.subst ρ)).map (Expr.subst τ) = predicate.map (Expr.subst (ρ.andThen τ)) := by
        rw [Option.map_map]
        exact congrArg (predicate.map ·) (funext (Expr.subst_subst ρ τ))
      rw [line?, hothers2 i (by simp), inst?_subst, hself1, hpred, ← hguard, Subst.apply_andThen]
      rfl
    have hafter : q'.line? j = some (.cast (.loc target) ⟨q2.locals.size⟩ declared, none) := by
      rw [line?, hcast, map_some]
    rw [filterMap_append, hbefore, ofLines_append, filterMap_cons, hload, filterMap_cons, hafter, filterMap_nil]
    rfl
  refine ⟨τ, new ++ [i, j], ?_, (hd1.subst τ).trans hd2, (hr1.subst τ).trans hr2, fun x hx => ?_, hadvance, ?_, ?_⟩
  · have hlisted' : pre ++ (new ++ [i, j]) ++ post = pre ++ new ++ i :: j :: post := by
      simp only [List.append_assoc, cons_append, nil_append]
    rw [hlisted']
    exact (hrw1.subst τ).trans hrw2
  · rw [hothers2 x (by simp only [mem_append, mem_cons] at hx ⊢; tauto), inst?_subst, hothers1 x hx, inst?_subst]
  · rw [hcode]
    intro spared hlive0
    obtain ⟨hinsts, hinst'⟩ := hq.live_named hlive hprepared.emitted.keepsLive rfl hlive0.1
    have hdeclared' := hadvance3.maps _ _ hdeclared
    rw [Subst.apply, hτtarget] at hdeclared'
    refine forall_append.mpr ⟨live_ofInsts (forall_mem_map.mpr fun x hx => ?_), ?_,
      liveIn_append.mpr ⟨liveIn_of_ty? hretyped, liveIn_of_ty? hdeclared'⟩, trivial⟩
    · exact hadvance3.liveIn_inst ((hinsts x hx).mono hadvance1.live)
    · rw [Subst.apply_andThen]
      exact hadvance3.liveIn_inst (hinst'.mono hadvance1.live)
  · intro hW
    have hlt := hlt hW
    have hself := hself hW
    rw [hcode]
    have hdefines : ∀ x ∈ insts, x.Defines q.locals.size q2.locals.size := by
      rw [hlocals1]
      exact hprepared.defines
    refine Casted.line (J := [.cast (.loc target) ⟨q2.locals.size⟩ declared])
      (forall_mem_append.mpr ⟨forall_mem_map.mpr fun x hx => ?_, forall_mem_singleton.mpr ⟨?_, ?_⟩⟩)
      (forall_mem_append.mpr ⟨?_, forall_mem_singleton.mpr trivial⟩) ?_
      ⟨?_, loaded, loaded, hretyped, ?_, .refl loaded⟩ ⟨rfl, rfl, rfl⟩
      fun calls hcastable hwide => ?_
    · exact ((hdefines x hx).subst τ).mono hq.locals_size hadvance3.locals_size
    · exact hq2.locals_size
    · rw [hsize]
      exact Nat.lt_succ_self _
    · exact hadvance3.settled hW hdefines hq.locals_size le_rfl fun x hx =>
        hadvance1.keeps_settled (hprepared.settled x hx)
    · rw [countP_append, Inst.countP_isCast_subst, hprepared.casts]
      rfl
    · exact Expr.AllSettled.subst (hadvance1.maps.andThen hadvance3.maps).agrees hsettled
    · rw [Subst.apply_andThen, Expr.substAll_eq_map, length_map]
      exact hloaded.subst hadvance3.maps
    · obtain ⟨⟨ty, htarget, _⟩, ⟨ty', hsource, _⟩, hindexes⟩ := hcastable.plain
      obtain ⟨rfl, rfl⟩ := hnil hindexes
      cases hindexes
      have htarget' := hq2.maps _ _ htarget
      rw [Subst.apply, hself] at htarget'
      cases htarget'.symm.trans hdeclared
      obtain ⟨whole, hwhole, helem⟩ := hloaded
      cases helem
      cases (hq2.maps _ _ hsource).symm.trans hwhole
      refine Mimics.retyped ⟨q2.locals.size⟩ ?_ (fun x ty hx hxt => ?_) hsource htarget
        (hwide.cast hj hcast rfl hretyped)
      · rw [Subst.andThen, hself]
        exact hτtarget
      · -- what other locals are read from is none of the two
        have hτother : ∀ x, x ≠ target → τ x = .loc x := by
          intro x hx
          rw [← hτ, Subst.single, if_neg hx]
        have hxlt : x.index < p0.locals.size := VarRef.below_of_ty? hx
        rcases hq2.moves x with hself' | ⟨_, y, hy, hlow, hhigh⟩
        · rw [Subst.andThen, hself', Subst.apply, hτother x hxt]
          refine ⟨fun heq => hxt (VarRef.loc.inj heq), fun heq => ?_⟩
          rw [VarRef.loc.inj heq] at hxlt
          exact absurd hxlt (Nat.not_lt.mpr hq2.locals_size)
        · have hyt : y ≠ target := by
            rintro rfl
            exact absurd hlt (Nat.not_lt.mpr hlow)
          rw [Subst.andThen, hy, Subst.apply, hτother y hyt]
          refine ⟨fun heq => hyt (VarRef.loc.inj heq), fun heq => ?_⟩
          rw [VarRef.loc.inj heq] at hhigh
          exact Nat.lt_irrefl _ hhigh

/-- For no expressions no instructions are put. -/
lemma Prepared.eq_nil {spot : Spot} {es es' : List Expr} {k' : Nat} {required : Option Ty}
    (h : Prepared o S b pre post new insts k q q') (hat : spot.At b pre post q)
    (hy : Yields (castAll o spot required (Expr.substAll ρ es)) q (es', k') q') : es = [] → es' = [] ∧ insts = [] := by
  rintro rfl
  simp only [Expr.substAll, castAll, yields_pure, Prod.mk.injEq] at hy
  obtain ⟨⟨rfl, rfl⟩, rfl⟩ := hy
  exact ⟨rfl, h.emitted.eq_nil hat.node⟩

/-- Casting an instruction of a block. -/
lemma castInst_rewrites (h : ListAt L (d.thenBlock b (pre ++ i :: post) r) q)
    (hq : Advances o p0 W T ρ p0 q) (hi : i.index < p0.insts.size)
    (hinst : q.inst? i = some { inst := inst.subst ρ, block := b, predicate := predicate.map (Expr.subst ρ) })
    (hS : S → inst.ComparesScalars (p0.scope o.globals)) (hlive : W → ∀ x ∈ inst.def?, x.index < p0.locals.size)
    (hself : W → ∀ x, inst.writesLocal? = some x → ρ x = .loc x) (hy : Yields (castInst o i (inst.subst ρ)) q k q') :
    PartCast o p0 W S L d r b pre [i] post (.inst inst predicate .done) ρ k q q' := by
  obtain ⟨hb, _, _⟩ := h.blockAt
  have hat : (Spot.before i).At b pre (i :: post) q := ⟨post, _, rfl, hb, h.not_mem_before, hinst, rfl⟩
  have hmaps := hq.maps
  -- what is written is read for nothing else, and has kept its type
  have hwrites : W → ∀ v ty, inst.writes? = some v → (p0.scope o.globals).ty? v = some ty →
      ρ.Spares v ∧ (q.scope o.globals).ty? v = some ty := by
    intro hW v ty hv hty
    have happly : ρ.apply v = v := by
      cases v with
      | glob g => rfl
      | loc x => exact hself hW x (by rw [Inst.writesLocal?, hv]; rfl)
    exact ⟨hq.spares (VarRef.below_of_ty? hty) happly, happly ▸ hmaps v ty hty⟩
  cases inst with
  | assign target value =>
    simp only [Inst.subst, castInst, yields_bind, yields_pure, yields_liftM] at hy
    obtain ⟨required, q0, hty, ⟨value', m⟩, q1, hv, old, q2, hreplace, rfl, rfl⟩ := hy
    obtain ⟨hty, rfl⟩ := yields_requireTy.mp hty
    obtain ⟨new, insts, hcasted⟩ := castExpr_runs _ (fun hs => (hS hs).subst hmaps) hat hq.insts_size hv
    refine PartCast.of_emitted h hq hi hinst rfl hcasted.toPrepared hreplace
      ⟨required, hcasted.emitted.scope o.globals _ _ hty, hcasted.suits⟩ ⟨rfl, rfl, rfl⟩ hcasted.live rfl ?_
    rintro hW hcast hwide calls s s' f u hs ⟨y, hy, rfl, rfl⟩
    obtain ⟨⟨ty, htarget, _⟩, hplain⟩ := hcast.plain
    obtain ⟨hspares, htype⟩ := hwrites hW (.loc target) ty rfl htarget
    cases htype.symm.trans hty
    obtain ⟨w, hK, hw, hval, hyty⟩ := hcasted.evaluates hplain hcast.orderly hmaps hwide calls hs hy
    refine ⟨w, w.set target y, hK, ⟨y, hval, rfl, rfl⟩, hw.write hspares fun ty' hty' => ?_⟩
    cases htarget.symm.trans hty'
    exact hyty
  | load target source indexes =>
    simp only [Inst.subst, castInst, yields_bind, yields_liftM] at hy
    obtain ⟨⟨indexes', m⟩, q1, hv, old, q2, hreplace, loaded, q3, hloaded, declared, q4, hdeclared, hrest⟩ := hy
    obtain ⟨hloaded, rfl⟩ := yields_requireElement.mp hloaded
    obtain ⟨hdeclared, rfl⟩ := yields_requireTy.mp hdeclared
    obtain ⟨new, insts, hprepared, hsettled, hreads⟩ := castAll_runs _
      (fun hs => Expr.AllCompareScalars.subst hmaps (hS hs)) hat hq.insts_size hv
    have hstays : StaysLive ((Inst.load target source indexes).subst ρ).uses insts
        (Inst.load target (ρ.apply source) indexes').uses q q1 :=
      (StaysLive.refl [ρ.apply source] q).append hreads (fun _ => id) hprepared.emitted.keepsLive
    have hnil := hprepared.eq_nil hat hv
    split at hrest
    · simp only [yields_bind, yields_pure, yields_liftM] at hrest
      obtain ⟨u, q4, hretype, rfl, rfl⟩ := hrest
      exact PartCast.of_retyped h hq hi hinst rfl
        (fun hW => hlive hW target rfl) (fun hW => hself hW target rfl) hprepared
        hreplace hsettled hnil hloaded hdeclared hstays hretype
    · rename_i hneeds
      obtain ⟨rfl, rfl⟩ := yields_pure.mp hrest
      have hagrees := Ty.agrees_iff_not_needsCast.mpr (Bool.eq_false_iff.mpr hneeds)
      obtain ⟨_, _, _, hq2⟩ := yields_replaceInst.mp hreplace
      rw [hq2] at hloaded hdeclared
      refine PartCast.of_emitted h hq hi hinst rfl hprepared hreplace
        ⟨hsettled, declared, loaded, hdeclared, hloaded, hagrees⟩ ⟨rfl, rfl, rfl⟩ hstays rfl ?_
      rintro hW hcast _ calls s s' f u hs ⟨y, hy, rfl, rfl⟩
      obtain ⟨⟨ty, htarget, hplain⟩, ⟨ty', hsource, _⟩, hindexes⟩ := hcast.plain
      obtain ⟨hspares, htype⟩ := hwrites hW (.loc target) ty rfl htarget
      obtain ⟨rfl, rfl⟩ := hnil hindexes
      cases hindexes
      have htype' := hprepared.emitted.scope o.globals _ _ htype
      cases htype'.symm.trans hdeclared
      obtain ⟨whole, hwhole, helem⟩ := hloaded
      cases helem
      cases (hprepared.emitted.scope o.globals _ _ (hmaps _ _ hsource)).symm.trans
        (Subst.apply_id (ρ.apply source) ▸ hwhole)
      cases Ty.eq_of_not_needsCast hplain (Bool.eq_false_iff.mpr hneeds)
      rw [load_nil] at hy
      refine ⟨s', s'.set target y, ⟨rfl, rfl⟩, ⟨y, ?_, rfl, rfl⟩, hs.write hspares fun ty' hty' => ?_⟩
      · exact (load_nil _ _).trans ((hs.read hsource).trans hy)
      · cases htarget.symm.trans hty'
        exact hs.typed source _ hsource y hy
  | store target indexes value =>
    simp only [Inst.subst, castInst, yields_bind, yields_pure, yields_liftM] at hy
    obtain ⟨⟨indexes', m⟩, q1, hv, required, q2, hrequired, ⟨value', m'⟩, q3, hv', old, q4, hreplace, rfl, rfl⟩ := hy
    obtain ⟨hrequired, rfl⟩ := yields_requireElement.mp hrequired
    obtain ⟨new, insts, hprepared, hsettled, hstays⟩ := castAll_runs _
      (fun hs => Expr.AllCompareScalars.subst hmaps (hS hs).1) hat hq.insts_size hv
    have hprep : Advances o p0 W T .id q q2 := .of_extends hprepared.emitted.toExtends
    have hq1 := hq.trans_id hprep
    obtain ⟨new', insts', hcasted⟩ := castExpr_runs _ (fun hs => (hS hs).2.subst hq1.maps)
      (hprepared.emitted.further hat) hq1.insts_size hv'
    have hscope := hcasted.emitted.scope o.globals
    have hindexes : Expr.AllSettled (q3.scope o.globals) S none indexes' :=
      Expr.substAll_id indexes' ▸ Expr.AllSettled.subst hscope.agrees hsettled
    have helement := hrequired.subst hscope
    rw [Subst.apply_id] at helement
    refine PartCast.of_emitted h hq hi hinst rfl (hprepared.trans hcasted.toPrepared) hreplace
      ⟨hindexes, required, helement, hcasted.suits⟩ ⟨rfl, rfl, rfl⟩
      (hstays.append hcasted.live hprepared.emitted.keepsLive hcasted.emitted.keepsLive) rfl ?_
    rintro hW hcast hwide calls s s' f u hs ⟨y, z, hy, hz, rfl, rfl⟩
    obtain ⟨⟨ty, htarget, _⟩, rfl, hplain⟩ := hcast.plain
    obtain ⟨hspares, htype⟩ := hwrites hW target ty rfl htarget
    obtain ⟨rfl, rfl⟩ := hprepared.eq_nil hat hv rfl
    obtain ⟨whole, hwhole, helem⟩ := hrequired
    cases helem
    cases (hprepared.emitted.scope o.globals _ _ htype).symm.trans (Subst.apply_id target ▸ hwhole)
    cases (stored_nil s target y).symm.trans hz
    obtain ⟨w, hK, hw, hval, hyty⟩ := hcasted.evaluates hplain hcast.orderly hq1.maps hwide calls hs hy
    refine ⟨w, w.write target y, hK, ⟨y, y, hval, rfl, rfl, rfl⟩, hw.write hspares fun ty' hty' => ?_⟩
    cases htarget.symm.trans hty'
    exact hyty
  | call target callee args =>
    simp only [Inst.subst, castInst, yields_bind, yields_pure, yields_liftM] at hy
    obtain ⟨tys, q0, hparams, ⟨args', m⟩, q1, hv, old, q2, hreplace, rfl, rfl⟩ := hy
    obtain ⟨sig, hsig, hlength, rfl, rfl⟩ := yields_requireParams.mp hparams
    obtain ⟨new, insts, hprepared, hsuits, hstays⟩ := castArgs_runs hlength
      (fun hs => Expr.AllCompareScalars.subst hmaps (hS hs)) hat hq.insts_size hv
    refine PartCast.of_emitted h hq hi hinst rfl hprepared hreplace ⟨sig, hsig, hsuits⟩ ⟨rfl, rfl, rfl⟩ hstays rfl
      fun _ hcast => ?_
    cases hcast.noCall
  | phi target arms =>
    obtain ⟨rfl, rfl⟩ := yields_pure.mp hy
    refine PartCast.of_kept h hq hinst trivial ⟨rfl, rfl, rfl⟩ ?_
    -- without guards no operand is picked
    rintro _ hcast calls s s' f u hs ⟨arm, y, harm, _⟩
    rw [picks_of_unguarded s hcast.unguarded] at harm
    cases harm
  | ret value =>
    cases value with
    | none =>
      obtain ⟨rfl, rfl⟩ := yields_pure.mp hy
      refine PartCast.of_kept h hq hinst (fun _ he => by cases he) ⟨rfl, rfl, rfl⟩ ?_
      rintro _ _ calls s s' f u hs ⟨rfl, rfl⟩
      exact ⟨s', ⟨rfl, rfl⟩, hs.world⟩
    | some value =>
      simp only [Inst.subst, map_some, castInst, yields_read] at hy
      split at hy
      · simp at hy
      · rename_i hvoid
        simp only [yields_bind, yields_pure, yields_liftM] at hy
        obtain ⟨⟨value', m⟩, q1, hv, old, q2, hreplace, rfl, rfl⟩ := hy
        obtain ⟨new, insts, hcasted⟩ := castExpr_runs _ (fun hs => (hS hs value rfl).subst hmaps) hat hq.insts_size hv
        have hreturn : q1.returnTy = q.returnTy := by rw [hcasted.emitted.rest]
        refine PartCast.of_emitted h hq hi hinst rfl hcasted.toPrepared hreplace
          (fun e he => ?_) ⟨rfl, rfl, rfl⟩ hcasted.live rfl ?_
        · cases he
          rw [hreturn]
          exact ⟨hvoid, hcasted.suits⟩
        · rintro _ hcast hwide calls s s' f u hs ⟨y, hy, rfl, rfl⟩
          obtain ⟨w, hK, hw, hval, _⟩ := hcasted.evaluates (hcast.plain value rfl) (hcast.orderly value rfl) hmaps hwide
            calls hs hy
          exact ⟨w, w, hK, ⟨y, hval, rfl, rfl⟩, hw.world⟩
  | cast source target ty =>
    obtain ⟨rfl, rfl⟩ := yields_pure.mp hy
    refine PartCast.of_kept h hq hinst trivial ⟨rfl, rfl, rfl⟩ ?_
    rintro hW hcast calls s s' f u hs ⟨y, hy, rfl, rfl⟩
    obtain ⟨⟨a, hsource, _⟩, ⟨ty', htarget, hplain⟩⟩ := hcast.plain
    obtain ⟨hty, hone⟩ := hcast.converts
    cases hty.symm.trans htarget
    obtain ⟨hspares, _⟩ := hwrites hW (.loc target) ty rfl htarget
    obtain ⟨x, hx, hconv⟩ := converted_eq_some.mp hy
    refine ⟨s'.set target y, ⟨y, ?_, rfl, rfl⟩, hs.write hspares fun ty' hty' => ?_⟩
    · exact converted_eq_some.mpr ⟨x, (hs.read hsource).trans hx, hconv⟩
    · cases htarget.symm.trans hty'
      refine (hs.typed source a hsource x hx).of_convert hplain (fun hbool => hone ?_) hconv
      rw [← hbool]
      exact hsource

/-- Casting the instructions of a block. The induction is on the instructions that are left. -/
theorem castInsts_rewrites {ids : List InstId} (h : ListAt L (d.thenBlock b (pre ++ ids) r) q)
    (hq : Advances o p0 W T ρ p0 q) (hinst : ∀ i ∈ ids, q.inst? i = (p0.subst ρ).inst? i)
    (hSW : S → W) (hready : W → ∀ l ∈ ids.filterMap p0.line?, l.1.Ready o p0 S)
    (hnodup : W → (ofLines (ids.filterMap p0.line?)).writes.Nodup)
    (hself : W → ∀ x ∈ (ofLines (ids.filterMap p0.line?)).writes, ρ x = .loc x) (hy : Yields (castInsts o ids) q k q') :
    PartCast o p0 W S L d r b pre ids [] (.ofLines (ids.filterMap p0.line?)) ρ k q q' := by
  induction ids generalizing pre q ρ T k with
  | nil =>
    obtain ⟨rfl, rfl⟩ := yields_pure.mp hy
    refine ⟨.id, [], ?_⟩
    rw [subst_id, List.append_assoc]
    exact ⟨Rewrites.refl h, Stays.refl d _, Stays.refl r _, fun _ _ => rfl, Advances.refl _,
      fun _ _ => trivial, fun _ => ⟨Grown.done, fun _ _ _ => Mimics.done⟩⟩
  | cons i rest ih =>
    obtain ⟨data', hdata', hblock⟩ := h.blockAt.2.2 i (by simp)
    obtain ⟨data, hdata, rfl⟩ : ∃ data, p0.inst? i = some data ∧ data.subst ρ = data' := by
      have hi := hinst i mem_cons_self
      rw [hdata', inst?_subst] at hi
      exact map_eq_some_iff.mp hi.symm
    have hline : p0.line? i = some (data.inst, data.predicate) := by rw [line?, hdata, map_some]
    have hlines : (i :: rest).filterMap p0.line? = (data.inst, data.predicate) :: rest.filterMap p0.line? := by
      rw [filterMap_cons, hline]
    rw [hlines] at hready hnodup hself ⊢
    obtain ⟨inst, block', predicate⟩ := data
    have hcode : ofLines ((inst, predicate) :: rest.filterMap p0.line?) =
        (Code.inst inst predicate .done).append (.ofLines (rest.filterMap p0.line?)) := rfl
    rw [hcode, writes_append] at hnodup hself
    rw [castInsts, yields_read, hdata'] at hy
    simp only [yields_bind, yields_pure] at hy
    obtain ⟨k1, q1, hfirst, k2, q2, hrest, rfl, rfl⟩ := hy
    have hdata1 : q.inst? i = some ⟨inst.subst ρ, b, predicate.map (Expr.subst ρ)⟩ := by
      rw [hdata', ← hblock]
      rfl
    have hwrites : ∀ x, inst.writesLocal? = some x → x ∈ (Code.inst inst predicate .done).writes :=
      fun x hx => mem_filterMap.mpr ⟨inst, mem_cons_self, hx⟩
    have hpart : PartCast o p0 W S L d r b pre [i] rest (.inst inst predicate .done) ρ k1 q q1 :=
      castInst_rewrites h hq (index_lt_of_inst? hdata) hdata1 (fun hs => (hready (hSW hs) _ mem_cons_self).scalars hs)
        (fun hW => (hready hW _ mem_cons_self).live) (fun hW x hx => hself hW x (mem_append_left _ (hwrites x hx))) hfirst
    obtain ⟨τ1, new1, hrw1, hd1, hr1, hothers1, hadvance1, hlive1, hcasted1⟩ := hpart
    have hmoves : W → ∀ x ∈ (ofLines (rest.filterMap p0.line?)).writes, τ1 x = .loc x := by
      intro hW x hx
      rcases hadvance1.moves x with hx' | ⟨⟨hmem, _⟩, _⟩
      · exact hx'
      · exact absurd rfl ((nodup_append.mp (hnodup hW)).2.2 x hmem x hx)
    obtain ⟨τ2, new2, hrw2, hd2, hr2, hothers2, hadvance2, hlive2, hcasted2⟩ := ih hrw1.list
      (hq.trans hadvance1) (by
        intro j hj
        rw [hothers1 j (mem_append_right _ hj), ← subst_subst, inst?_subst, hinst j (mem_cons_of_mem i hj),
          ← inst?_subst]) (fun hW => (forall_mem_cons.mp (hready hW)).2) (fun hW => (nodup_append.mp (hnodup hW)).2.1) (by
        intro hW x hx
        rw [Subst.andThen, hself hW x (mem_append_right _ hx)]
        exact hmoves hW x hx) hrest
    rw [List.append_nil] at hrw2 hothers2
    have hlines1 : ofLines ((new1 ++ new2).filterMap q'.line?) =
        ((ofLines (new1.filterMap q1.line?)).subst τ2).append (ofLines (new2.filterMap q'.line?)) := by
      rw [filterMap_append, ofLines_append, filterMap_line?_subst (q :=
        q1) fun j hj => hothers2 j (mem_append_right _ hj), ← subst_ofLines]
    refine ⟨τ1.andThen τ2, new1 ++ new2, ?_, ?_, ?_, ?_, ?_, ?_, ?_⟩
    · rw [← subst_subst, List.append_nil, append_cons, ← List.append_assoc, List.append_nil]
      rw [List.append_nil] at hrw2
      exact (hrw1.subst τ2).trans hrw2
    · rw [← subst_subst]
      exact (hd1.subst τ2).trans hd2
    · rw [← subst_subst]
      exact (hr1.subst τ2).trans hr2
    · intro j hj
      rw [List.append_nil] at hj
      rw [hothers2 j (mem_append_left _ hj), ← subst_subst, inst?_subst,
        hothers1 j (mem_append_left _ hj), ← inst?_subst]
    · refine (hadvance1.trans hadvance2).mono fun x hx => ?_
      rw [hcode, writes_append]
      exact mem_append.mpr hx
    · rw [hlines1, hcode]
      intro spared hlive
      obtain ⟨hfirst, hrest⟩ := forall_append.mp hlive
      exact forall_append.mpr ⟨hadvance2.live_code (hlive1 spared hfirst), hlive2 spared hrest⟩
    · intro hW
      rw [hlines1, hcode, ← Subst.andThen_assoc]
      refine ((hcasted1 hW).advance hadvance2 hW (fun x hmem hx => ?_) ?_).append (hcasted2 hW)
      · exact (nodup_append.mp (hnodup hW)).2.2 x hmem x hx rfl
      · exact hq.locals_size.trans hadvance1.locals_size

end Block

end ActorNet
