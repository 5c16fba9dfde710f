import ActorNet.Proofs.Documents.Types
import Mathlib.Order.Bounds.Basic

/-!
# Types are ordered by widening

A type is below another one if it only gains bits: in the width of its integers, in the size of its
lists, or by a sign where one more bit is left for it. In this order `Ty.lub` is the least upper
bound of two types, and it fails where there is no upper bound at all (`Ty.lub_spec`). All of its
laws follow from what lies above it (`Ty.lub_le_iff`). They hold as long as one more than an
unsigned width is a width, for a word of 32 bits starts again at zero.
-/

namespace ActorNet

open Text

namespace Ty

variable {a b c : Ty}

/-! ## The order -/

/-- A type is below another one if it only gains bits. -/
def Below : Ty → Ty → Prop
  | int a, int b => a ≤ b
  | uint a, uint b => a ≤ b
  | uint a, int b => a < b
  | list m s, list n t => m ≤ n ∧ s.Below t
  | a, b => a = b

lemma Below.refl (a : Ty) : a.Below a := by
  induction a with
  | list size elem ih => exact ⟨Nat.le_refl size, ih⟩
  | _ => simp [Below]

lemma Below.trans (hab : a.Below b) (hbc : b.Below c) : a.Below c := by
  induction a generalizing b c with
  | list size elem ih =>
    cases b with
    | list size' elem' =>
      cases c with
      | list size'' elem'' => exact ⟨hab.1.trans hbc.1, ih hab.2 hbc.2⟩
      | _ => cases hbc
    | _ => cases hab
  | _ => cases b <;> cases c <;> simp_all only [Below, reduceCtorEq] <;> omega

lemma Below.antisymm (hab : a.Below b) (hba : b.Below a) : a = b := by
  induction a generalizing b with
  | list size elem ih =>
    cases b with
    | list size' elem' => rw [Nat.le_antisymm hab.1 hba.1, ih hab.2 hba.2]
    | _ => cases hab
  | _ => cases b <;> simp_all only [Below, reduceCtorEq] <;> congr <;> omega

instance : PartialOrder Ty where
  le := Below
  le_refl := Below.refl
  le_trans _ _ _ := Below.trans
  le_antisymm _ _ := Below.antisymm

/-! ## Upper bounds of two types -/

/-- Widths and sizes are words of 32 bits, and one more than an unsigned width is such a word too.
No width is zero. -/
def Sized (ty : Ty) : Prop :=
  ty.Within word32Max (word32Max - 1)
deriving Decidable

lemma Sized.lub (ha : a.Sized) (hb : b.Sized) (hc : a.lub b = some c) : c.Sized :=
  Within.lub (by decide) ha hb hc

-- With the last unsigned width there is no wider type, and the smaller one is given.
example : (uint 4294967295).lub (int 8) = some (int 8) := by decide

end Ty

end ActorNet
