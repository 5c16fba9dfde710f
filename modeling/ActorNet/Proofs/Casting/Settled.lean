import ActorNet.Proofs.Casting.Ranges
import ActorNet.Proofs.Semantics.Substitution
import ActorNet.Proofs.Structure.Edits

/-!
# Code in which no cast is missing

A place that requires a type takes an expression of that type, and a place for a list any list that
is as wide in all (`Ty.Agrees`). Code is settled if this holds at every place of it
(`Code.Settled`). It stays settled if variables are read as others whose types agree
(`Expr.Settled.subst`).
-/

namespace ActorNet

open List Procedure Text

variable {a b c ty required : Ty} {Γ Δ : Scope} {S : Prop} {σ τ : Subst} {e : Expr} {i : Inst} {o : Outside}
  {q q' : Procedure}

/-- The type that an operator requires of its operands, given their types and its own. -/
def BinaryOp.operand? (op : BinaryOp) (lhs rhs : Option Ty) (ty : Ty) : Option Ty :=
  if op.isLogical then some .bool
  else if op.isComparison then lhs.bind fun l => rhs.map fun r => (l.lub r).getD l
  else some ty

namespace Procedure

variable {args : List Expr} {tys : List Ty} {depth : Nat} {v : VarRef} {p p' : Procedure}

/-! ## Questions about types leave the procedure alone -/

@[simp] lemma yields_missingContext {α : Type} {reason : String} {x : α} :
    Yields (missingContext o e reason : Transform α) p x p' ↔ False := by
  simp [missingContext]

lemma yields_requireTy : Yields (requireTy o e) p ty p' ↔ e.ty? (p.scope o.globals) = some ty ∧ p' = p := by
  rw [requireTy, yields_read]
  cases e.ty? (p.scope o.globals) <;> simp [eq_comm]

/-- An index path of a length selects something of a type from a variable. -/
def Element (o : Outside) (p : Procedure) (v : VarRef) (depth : Nat) (ty : Ty) : Prop :=
  ∃ whole, (p.scope o.globals).ty? v = some whole ∧ whole.elemAt? depth = some ty

lemma yields_requireElement : Yields (requireElement o v depth) p ty p' ↔ p.Element o v depth ty ∧ p' = p := by
  simp only [requireElement, yields_bind, yields_requireTy, Element]
  constructor
  · rintro ⟨whole, _, ⟨hwhole, rfl⟩, hrest⟩
    cases helem : whole.elemAt? depth with
    | none => simp [helem] at hrest
    | some found =>
      rw [helem, yields_pure] at hrest
      exact ⟨⟨whole, hwhole, helem.trans (congrArg some hrest.1.symm)⟩, hrest.2⟩
  · rintro ⟨⟨whole, hwhole, helem⟩, rfl⟩
    refine ⟨whole, _, ⟨hwhole, rfl⟩, ?_⟩
    rw [helem, yields_pure]
    exact ⟨rfl, rfl⟩

lemma yields_operandTy {op : BinaryOp} {lhs rhs : Expr} {found : Ty} : Yields (operandTy o op lhs rhs ty) p found p' ↔
      op.operand? (lhs.ty? (p.scope o.globals)) (rhs.ty? (p.scope o.globals)) ty = some found ∧ p' = p := by
  unfold operandTy BinaryOp.operand?
  split
  · simp [eq_comm]
  · split
    · simp only [yields_bind, yields_pure, yields_requireTy]
      constructor
      · rintro ⟨l, _, ⟨hl, rfl⟩, r, _, ⟨hr, rfl⟩, rfl, rfl⟩
        rw [hl, hr]
        exact ⟨rfl, rfl⟩
      · rintro ⟨hfound, rfl⟩
        obtain ⟨l, hl, hfound⟩ := bind_eq_some_iff.mp hfound
        obtain ⟨r, hr, rfl⟩ := map_eq_some_iff.mp hfound
        exact ⟨l, _, ⟨hl, rfl⟩, r, _, ⟨hr, rfl⟩, rfl, rfl⟩
    · simp [eq_comm]

lemma yields_requireParams {callee : ProcId} : Yields (requireParams o callee args) p tys p' ↔
      ∃ s, o.callees[callee.index]? = some s ∧ s.params.length = args.length ∧ tys = s.params ∧ p' = p := by
  unfold requireParams
  cases o.callees[callee.index]? with
  | none => simp
  | some s =>
    by_cases hlength : s.params.length = args.length
    · simp [hlength, eq_comm]
    · simp [hlength]

end Procedure

/-! ## Types -/

namespace Ty

/-- The storage width in bits, with all elements of a list counted to the end. -/
def totalBits : Ty → Nat
  | list size elem => size * elem.totalBits
  | ty => ty.bits

/-- The width of a list is the count of its bits, up to the largest word of 32 bits. -/
lemma bits_list (size : Nat) (elem : Ty) :
    (list size elem).bits = min (list size elem).totalBits word32Max := by
  -- the count inside of an element may have stopped already, and then it stops here as well
  have hcut (k n : Nat) :
      min (k * min n word32Max) word32Max = min (k * n) word32Max := by
    rcases Nat.le_total n word32Max with hn | hn
    · rw [Nat.min_eq_left hn]
    · rw [Nat.min_eq_right hn]
      rcases Nat.eq_zero_or_pos k with rfl | hk
      · rw [Nat.zero_mul, Nat.zero_mul]
      · have hword : word32Max ≤ k * word32Max := Nat.le_mul_of_pos_left _ hk
        rw [Nat.min_eq_right hword, Nat.min_eq_right (hword.trans (Nat.mul_le_mul_left k hn))]
  induction elem generalizing size with
  | list size' elem ih =>
    rw [bits, ih, hcut]
    rfl
  | bool | int | uint | float | string | void => rfl

/-- Two types are the same, or lists with the same number of bits. Lists that reach the largest word
of 32 bits are not told apart: the count stops there. -/
def Agrees (a b : Ty) : Prop :=
  a = b ∨ a.isList = true ∧ b.isList = true ∧
    (a.totalBits = b.totalBits ∨ word32Max ≤ a.totalBits ∧ word32Max ≤ b.totalBits)

-- Lists of the same width may be grouped in any way.
example : (list 4 (int 8)).Agrees (list 2 (int 16)) := .inr ⟨rfl, rfl, .inl rfl⟩

lemma agrees_iff : a.Agrees b ↔ a.cls = b.cls ∧ a.bits = b.bits := by
  unfold Agrees
  cases a with
  | list size elem =>
    cases b with
    | list size' elem' =>
      rw [bits_list, bits_list]
      refine ⟨?_, fun h => .inr ⟨rfl, rfl, by omega⟩⟩
      rintro (h | ⟨_, _, h⟩)
      · rw [h]
        exact ⟨rfl, rfl⟩
      · exact ⟨rfl, by omega⟩
    | _ => simp [cls, isList]
  | _ => cases b <;> simp [cls, bits, isList]

lemma agrees_iff_not_needsCast : a.Agrees b ↔ a.needsCast b = false := by
  simp [agrees_iff, needsCast]

namespace Agrees

lemma refl (a : Ty) : a.Agrees a := .inl rfl

lemma trans (h : a.Agrees b) (h' : b.Agrees c) : a.Agrees c := by
  rw [agrees_iff] at h h' ⊢
  exact ⟨h.1.trans h'.1, h.2.trans h'.2⟩

lemma eq (h : a.Agrees b) (hb : b.isList = false) : a = b := by
  refine h.resolve_right fun hlists => ?_
  rw [hb] at hlists
  cases hlists.2.1

lemma widens (h : a.Agrees b) (hwiden : a.Widens c) : b.Widens c := by
  rcases h with rfl | ⟨ha, _⟩
  · exact hwiden
  · obtain ⟨_, r, hr, _⟩ := hwiden
    cases a <;> simp [isList, range?] at ha hr

end Agrees

lemma isList_lub (ha : a.isList = false) (b : Ty) : ((a.lub b).getD a).isList = false := by
  cases a with
  | list => cases ha
  | bool | int | uint | float | string | void => cases b <;> rfl

lemma lub_self (ha : a.isList = false) : a.lub a = some a := by
  cases a with
  | list => cases ha
  | bool | int | uint | float | string | void => simp [lub]

end Ty

/-- What is read for a variable of one scope has its type in another scope. -/
def Scope.Maps (Γ Δ : Scope) (σ : Subst) : Prop :=
  ∀ v ty, Γ.ty? v = some ty → Δ.ty? (σ.apply v) = some ty

/-- What is read for a variable of one scope has a type in another scope that agrees with its
type. -/
def Scope.Agrees (Γ Δ : Scope) (σ : Subst) : Prop :=
  ∀ v ty, Γ.ty? v = some ty → ∃ ty', Δ.ty? (σ.apply v) = some ty' ∧ ty'.Agrees ty

lemma Scope.Maps.agrees (h : Γ.Maps Δ σ) : Γ.Agrees Δ σ := fun v ty hv => ⟨ty, h v ty hv, .refl ty⟩

/-! ## Expressions -/

namespace Expr

/-- The type of an expression agrees with the one that its place requires. -/
def Fits (Γ : Scope) (e : Expr) (required : Ty) : Prop :=
  ∃ ty, e.ty? Γ = some ty ∧ ty.Agrees required

end Expr

/-- An operator of a type takes operands of another type. Those of a comparison may have any type,
but no list type if `S` holds. -/
def BinaryOp.Takes (op : BinaryOp) (S : Prop) (ty operand : Ty) : Prop :=
  if op.isLogical then operand = .bool
  else if op.isComparison then S → operand.isList = false
  else operand = ty

namespace Expr

lemma substAll_eq_map (σ : Subst) (es : List Expr) : substAll σ es = es.map (subst σ) := by
  induction es with
  | nil => rfl
  | cons e rest ih => rw [substAll, map_cons, ih]

mutual

/-- All parts of an expression have the types that their places require. -/
def Settled (Γ : Scope) (S : Prop) : Expr → Prop
  | .unary op e ty => e.Settled Γ S ∧ e.Fits Γ (unaryOperandTy op ty)
  | .binary op lhs rhs ty => lhs.Settled Γ S ∧ rhs.Settled Γ S ∧
      ∃ operand, op.Takes S ty operand ∧ lhs.Fits Γ operand ∧ rhs.Fits Γ operand
  | .list elems ty => AllSettled Γ S ty.elem? elems
  | _ => True

/-- Expressions and all their parts have the types that their places require. -/
def AllSettled (Γ : Scope) (S : Prop) (required : Option Ty) : List Expr → Prop
  | [] => True
  | e :: rest => (e.Settled Γ S ∧ ∀ ty ∈ required, e.Fits Γ ty) ∧ AllSettled Γ S required rest

end

/-- An expression and all its parts have the types that their places require. -/
def Suits (Γ : Scope) (S : Prop) (required : Option Ty) (e : Expr) : Prop :=
  e.Settled Γ S ∧ ∀ ty ∈ required, e.Fits Γ ty

/-- An expression has a type that is no list. -/
def IsScalar (Γ : Scope) (e : Expr) : Prop :=
  ∃ ty ∈ e.ty? Γ, ty.isList = false

mutual

/-- The operands of comparisons have types that are no lists. -/
def ComparesScalars (Γ : Scope) : Expr → Prop
  | .unary _ e _ => e.ComparesScalars Γ
  | .binary op lhs rhs _ => lhs.ComparesScalars Γ ∧ rhs.ComparesScalars Γ ∧
      (op.isComparison = true → lhs.IsScalar Γ ∧ rhs.IsScalar Γ)
  | .list elems _ => AllCompareScalars Γ elems
  | _ => True

/-- The operands of comparisons in the expressions have types that are no lists. -/
def AllCompareScalars (Γ : Scope) : List Expr → Prop
  | [] => True
  | e :: rest => e.ComparesScalars Γ ∧ AllCompareScalars Γ rest

end

lemma Fits.subst (h : Γ.Agrees Δ σ) (he : e.Fits Γ required) : (e.subst σ).Fits Δ required := by
  obtain ⟨ty, hty, hagrees⟩ := he
  cases e with
  | var v =>
    obtain ⟨ty', hty', hagrees'⟩ := h v ty hty
    exact ⟨ty', hty', hagrees'.trans hagrees⟩
  | _ => exact ⟨ty, hty, hagrees⟩

lemma ty?_subst (h : Γ.Maps Δ σ) (hty : e.ty? Γ = some ty) : (e.subst σ).ty? Δ = some ty := by
  cases e with
  | var v => exact h v ty hty
  | _ => exact hty

lemma IsScalar.subst (h : Γ.Maps Δ σ) (he : e.IsScalar Γ) : (e.subst σ).IsScalar Δ := by
  obtain ⟨ty, hty, hscalar⟩ := he
  exact ⟨ty, ty?_subst h hty, hscalar⟩

mutual

lemma Settled.subst (h : Γ.Agrees Δ σ) : ∀ {e : Expr}, e.Settled Γ S → (e.subst σ).Settled Δ S
  | .unary _ _ _, he => ⟨Settled.subst h he.1, he.2.subst h⟩
  | .binary _ _ _ _, ⟨hl, hr, operand, htakes, hfl, hfr⟩ =>
    ⟨Settled.subst h hl, Settled.subst h hr, operand, htakes, hfl.subst h, hfr.subst h⟩
  | .list _ _, he => AllSettled.subst h he
  | .bool _, _ | .int _ _, _ | .str _, _ | .var _, _ => trivial

lemma AllSettled.subst (h : Γ.Agrees Δ σ) {required : Option Ty} :
    ∀ {es : List Expr}, AllSettled Γ S required es → AllSettled Δ S required (substAll σ es)
  | [], _ => trivial
  | _ :: _, ⟨⟨he, hfits⟩, hrest⟩ =>
    ⟨⟨Settled.subst h he, fun ty hty => (hfits ty hty).subst h⟩, AllSettled.subst h hrest⟩

end

mutual

lemma ComparesScalars.subst (h : Γ.Maps Δ σ) : ∀ {e : Expr}, e.ComparesScalars Γ → (e.subst σ).ComparesScalars Δ
  | .unary _ e _, he => ComparesScalars.subst (e := e) h he
  | .binary _ _ _ _, ⟨hl, hr, hop⟩ => ⟨ComparesScalars.subst h hl, ComparesScalars.subst h hr, fun hcomp =>
      ⟨(hop hcomp).1.subst h, (hop hcomp).2.subst h⟩⟩
  | .list _ _, he => AllCompareScalars.subst h he
  | .bool _, _ | .int _ _, _ | .str _, _ | .var _, _ => trivial

lemma AllCompareScalars.subst (h : Γ.Maps Δ σ) :
    ∀ {es : List Expr}, AllCompareScalars Γ es → AllCompareScalars Δ (substAll σ es)
  | [], _ => trivial
  | _ :: _, ⟨he, hrest⟩ => ⟨ComparesScalars.subst h he, AllCompareScalars.subst h hrest⟩

end

lemma Suits.subst (h : Γ.Agrees Δ σ) {required : Option Ty} (he : e.Suits Γ S required) :
    (e.subst σ).Suits Δ S required :=
  ⟨he.1.subst h, fun ty hty => (he.2 ty hty).subst h⟩

end Expr

/-! ## Instructions and code -/

/-- The expressions of an instruction have the types that their places require, and so has what is
loaded. -/
def Inst.Settled (o : Outside) (S : Prop) (q : Procedure) : Inst → Prop
  | assign target value => ∃ ty, (q.scope o.globals).ty? (.loc target) = some ty ∧
      value.Suits (q.scope o.globals) S (some ty)
  | load target source indexes => Expr.AllSettled (q.scope o.globals) S none indexes ∧
      ∃ declared loaded, (q.scope o.globals).ty? (.loc target) = some declared ∧
        q.Element o source indexes.length loaded ∧ declared.Agrees loaded
  | store target indexes value => Expr.AllSettled (q.scope o.globals) S none indexes ∧
      ∃ ty, q.Element o target indexes.length ty ∧ value.Suits (q.scope o.globals) S (some ty)
  | call _ callee args => ∃ s, o.callees[callee.index]? = some s ∧
      List.Forall₂ (fun e ty => e.Suits (q.scope o.globals) S (some ty)) args s.params
  | ret value => ∀ e ∈ value, q.returnTy ≠ .void ∧ e.Suits (q.scope o.globals) S (some q.returnTy)
  | phi _ _ | cast _ _ _ => True

/-- The operands of a phi have the type of its target. -/
def Phi.Settled (Γ : Scope) (φ : Phi) : Prop :=
  ∃ ty, Γ.ty? (.loc φ.target) = some ty ∧ ∀ arm ∈ φ.arms, (Expr.var arm.var).Fits Γ ty

/-- The operands of comparisons in an instruction have types that are no lists. -/
def Inst.ComparesScalars (Γ : Scope) : Inst → Prop
  | assign _ value => value.ComparesScalars Γ
  | load _ _ indexes => Expr.AllCompareScalars Γ indexes
  | store _ indexes value => Expr.AllCompareScalars Γ indexes ∧ value.ComparesScalars Γ
  | call _ _ args => Expr.AllCompareScalars Γ args
  | ret value => ∀ e ∈ value, e.ComparesScalars Γ
  | phi _ _ | cast _ _ _ => True

def Inst.isCast : Inst → Bool
  | cast _ _ _ => true
  | _ => false

def Code.casts (c : Code) : Nat :=
  c.insts.countP Inst.isCast

lemma Inst.isCast_subst (σ : Subst) (i : Inst) : (i.subst σ).isCast = i.isCast := by
  cases i <;> rfl

/-- All expressions of code have the types that their places require, and so have the operands of
phis. -/
def Code.Settled (o : Outside) (S : Prop) (q : Procedure) : Code → Prop :=
  Code.Forall (fun i _ => i.Settled o S q)
    (fun e phis => e.Suits (q.scope o.globals) S (some .bool) ∧ ∀ φ ∈ phis, φ.Settled (q.scope o.globals))
    (fun e phis => e.Suits (q.scope o.globals) S (some .bool) ∧ ∀ φ ∈ phis, φ.Settled (q.scope o.globals))

section Subst

variable (hmaps : (q.scope o.globals).Maps (q'.scope o.globals) τ) (hreturn : q'.returnTy = q.returnTy)

include hmaps

lemma Procedure.Element.subst {v : VarRef} {depth : Nat} (h : q.Element o v depth ty) :
    q'.Element o (τ.apply v) depth ty := by
  obtain ⟨whole, hwhole, hty⟩ := h
  exact ⟨whole, hmaps v whole hwhole, hty⟩

lemma Phi.Settled.subst {φ : Phi} (h : φ.Settled (q.scope o.globals))
    (hself : τ φ.target = .loc φ.target) : (φ.subst τ).Settled (q'.scope o.globals) := by
  obtain ⟨ty, hty, harms⟩ := h
  refine ⟨ty, hself ▸ hmaps (.loc φ.target) ty hty, forall_mem_map.mpr fun arm harm => ?_⟩
  exact (harms arm harm).subst hmaps.agrees

include hreturn

lemma Inst.Settled.subst (h : i.Settled o S q) (hself : ∀ v ∈ i.writes?, τ.apply v = v) :
    (i.subst τ).Settled o S q' := by
  cases i with
  | assign target value =>
    obtain ⟨ty, hty, hvalue⟩ := h
    exact ⟨ty, hself _ rfl ▸ hmaps _ ty hty, hvalue.subst hmaps.agrees⟩
  | load target source indexes =>
    obtain ⟨hindexes, declared, loaded, hdeclared, hloaded, hagrees⟩ := h
    refine ⟨hindexes.subst hmaps.agrees, declared, loaded, hself _ rfl ▸ hmaps _ declared hdeclared, ?_, hagrees⟩
    rw [Expr.substAll_eq_map, length_map]
    exact hloaded.subst hmaps
  | store target indexes value =>
    obtain ⟨hindexes, ty, hty, hvalue⟩ := h
    refine ⟨hindexes.subst hmaps.agrees, ty, ?_, hvalue.subst hmaps.agrees⟩
    rw [Expr.substAll_eq_map, length_map]
    exact hself target rfl ▸ hty.subst hmaps
  | call target callee args =>
    obtain ⟨s, hs, hargs⟩ := h
    refine ⟨s, hs, ?_⟩
    rw [Expr.substAll_eq_map]
    exact forall₂_map_left_iff.mpr (hargs.imp fun _ _ he => he.subst hmaps.agrees)
  | ret value =>
    intro e' he'
    obtain ⟨e, he, rfl⟩ := map_eq_some_iff.mp he'
    rw [hreturn]
    exact ⟨(h e he).1, (h e he).2.subst hmaps.agrees⟩
  | phi | cast => trivial

lemma Code.Settled.subst {c : Code} (h : c.Settled o S q)
    (hself : ∀ i ∈ c.insts, ∀ v ∈ i.writes?, τ.apply v = v) : (c.subst τ).Settled o S q' := by
  induction c with
  | done => trivial
  | inst i predicate rest ih =>
    obtain ⟨hi, hrest⟩ := forall_mem_cons.mp hself
    exact ⟨h.1.subst hmaps hreturn hi, ih h.2 hrest⟩
  | branch e t f phis rest iht ihf ih =>
    simp only [insts, mem_append] at hself
    obtain ⟨⟨he, hphis⟩, ht, hf, hrest⟩ := h
    refine ⟨⟨he.subst hmaps.agrees, forall_mem_map.mpr fun φ hφ => ?_⟩,
      iht ht fun i hi => hself i (.inl (.inl (.inl hi))),
      ihf hf fun i hi => hself i (.inl (.inl (.inr hi))), ih hrest fun i hi => hself i (.inr hi)⟩
    exact (hphis φ hφ).subst hmaps (hself φ.inst (.inl (.inr (mem_map_of_mem hφ))) _ rfl)
  | loop e body phis rest ihb ih =>
    simp only [insts, mem_append] at hself
    obtain ⟨⟨he, hphis⟩, hbody, hrest⟩ := h
    refine ⟨⟨he.subst hmaps.agrees, forall_mem_map.mpr fun φ hφ => ?_⟩,
      ihb hbody fun i hi => hself i (.inl (.inr hi)), ih hrest fun i hi => hself i (.inr hi)⟩
    exact (hphis φ hφ).subst hmaps (hself φ.inst (.inl (.inl (mem_map_of_mem hφ))) _ rfl)

end Subst

end ActorNet
