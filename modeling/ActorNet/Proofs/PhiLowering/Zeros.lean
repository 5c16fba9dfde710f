import ActorNet.Pass.PhiLowering
import ActorNet.Proofs.Effects

/-!
# The size of zero constants

A zero is built for types of a limited number of scalars. If a type holds a scalar at all, then so
do the elements of every list inside of it, and no list of its zero is longer than the number of its
scalars (`listsWithin_zeroOf`). A list whose elements hold no scalar counts as nothing, whatever its
length.
-/

namespace ActorNet

/-- An expression stands somewhere inside of another one, or is that one. -/
inductive Expr.Inside (e : Expr) : Expr → Prop where
  | self : Inside e e
  | elem {elems : List Expr} {ty : Ty} {x : Expr} (mem : x ∈ elems) (inside : Inside e x) : Inside e (.list elems ty)
  | operand {op : UnaryOp} {x : Expr} {ty : Ty} (inside : Inside e x) : Inside e (.unary op x ty)
  | left {op : BinaryOp} {x y : Expr} {ty : Ty} (inside : Inside e x) : Inside e (.binary op x y ty)
  | right {op : BinaryOp} {x y : Expr} {ty : Ty} (inside : Inside e y) : Inside e (.binary op x y ty)

/-- No list inside of an expression has more elements than the given number. -/
def Expr.ListsWithin (bound : Nat) (e : Expr) : Prop :=
  ∀ elems ty, Inside (.list elems ty) e → elems.length ≤ bound

namespace Expr

variable {ty elem : Ty} {n bound : Nat}

lemma listsWithin_list {elems : List Expr} (hlength : elems.length ≤ bound)
    (helems : ∀ e ∈ elems, e.ListsWithin bound) : (Expr.list elems ty).ListsWithin bound := by
  intro xs t hinside
  cases hinside with
  | self => exact hlength
  | elem mem inside => exact helems _ mem xs t inside

/-- The zero of a type that holds scalars has no list with more elements than scalars. -/
theorem listsWithin_zeroOf (hpos : 0 < ty.scalars) (hle : ty.scalars ≤ bound)
    (hbound : bound < Text.word64Max) : (zeroOf ty).ListsWithin bound := by
  induction ty with
  | bool | int | uint | float | string | void =>
    intro xs t hinside
    cases hinside
  | list n elem ih =>
    simp only [Ty.scalars] at hpos hle
    have hproduct : n * elem.scalars ≤ bound := by omega
    have hn : 0 < n := Nat.pos_of_ne_zero (by rintro rfl; simp at hpos)
    have helem : 0 < elem.scalars := Nat.pos_of_ne_zero (by intro h; simp [h] at hpos)
    obtain ⟨n, rfl⟩ := Nat.exists_eq_add_one_of_ne_zero (Nat.ne_of_gt hn)
    rw [zeroOf]
    refine listsWithin_list ?_ fun e he => ?_
    · rw [List.length_replicate]
      exact Nat.le_trans (Nat.le_mul_of_pos_right _ helem) hproduct
    · rw [List.eq_of_mem_replicate he]
      exact ih helem (Nat.le_trans (Nat.le_mul_of_pos_left _ hn) hproduct)

lemma listsWithin_zero? (hty : ∀ elem ∈ ty.elem?, 0 < elem.scalars) {e : Expr}
    (h : zero? ty = some e) : e.ListsWithin maxZeroScalars := by
  rw [zero?, Option.ite_none_left_eq_some, gt_iff_lt, Nat.not_lt] at h
  obtain ⟨hle, he⟩ := h
  cases he
  by_cases hpos : 0 < ty.scalars
  · exact listsWithin_zeroOf hpos hle (by decide)
  · -- without a scalar, the type is that of an empty list
    cases ty with
    | bool | int | uint | float | string | void => exact absurd Nat.one_pos hpos
    | list n elem =>
      obtain rfl : n = 0 := by
        refine Nat.eq_zero_of_not_pos fun hn => hpos ?_
        exact Nat.lt_min.mpr ⟨Nat.mul_pos hn (hty elem rfl), by decide⟩
      rw [zeroOf]
      exact listsWithin_list (Nat.zero_le _) nofun

/-- If the elements of a type hold scalars, no list in its zero is longer than the limit on scalars,
and so it is with what phi lowering assigns to a local of the type. -/
theorem zero_within_limit (ty : Ty) (hty : ∀ elem ∈ ty.elem?, 0 < elem.scalars) :
    (∀ e, zero? ty = some e → e.ListsWithin maxZeroScalars) ∧
    ∀ (p p' : Procedure) (defined zeroed : List LocalId) (target : LocalId) (v : Variable) (source : VarRef)
      (value : Expr), p.local? target = some v → v.ty = ty →
      Yields (Procedure.copyValue defined target source) p (value, zeroed) p' → value.ListsWithin maxZeroScalars := by
  refine ⟨fun e => listsWithin_zero? hty, fun p p' defined zeroed target v source value hv hvty hy => ?_⟩
  have hvar : (Expr.var source).ListsWithin maxZeroScalars := nofun
  rw [Procedure.copyValue, yields_read, hv] at hy
  cases hid : source.local?.filter (p.isUnset defined) with
  | none =>
    rw [hid] at hy
    cases (yields_pure.mp hy).1
    exact hvar
  | some id =>
    rw [hid] at hy
    cases hzero : zero? v.ty with
    | none => simp only [hzero, yields_transform_fail] at hy
    | some zero =>
      simp only [hzero, yields_pure] at hy
      cases hy.1
      exact listsWithin_zero? (hvty ▸ hty) hzero

theorem zero_within_limit_nested : (∀ elem ∈ (Ty.list 3 (.list 2 (.int 8))).elem?, 0 < elem.scalars) ∧
      ∀ e, zero? (.list 3 (.list 2 (.int 8))) = some e → e.ListsWithin maxZeroScalars := by
  have hty : ∀ elem ∈ (Ty.list 3 (.list 2 (.int 8))).elem?, 0 < elem.scalars := by
    intro elem helem
    cases helem
    decide
  exact ⟨hty, (zero_within_limit _ hty).1⟩

/-- A list of empty lists holds no scalar, so its zero is built at any length. -/
theorem zero_exceeds_limit : ∃ e elems ty, zero? (.list 65537 (.list 0 (.int 8))) = some e ∧
    Inside (.list elems ty) e ∧ maxZeroScalars < elems.length := by
  refine ⟨_, _, _, if_neg (by decide), .self, ?_⟩
  rw [List.length_replicate]
  decide

end Expr

end ActorNet
