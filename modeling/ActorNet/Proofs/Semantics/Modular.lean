import ActorNet.Proofs.Casting.Ranges
import Mathlib.Data.Int.ModEq

/-!
# Arithmetic modulo the width of a type

Every operator wraps its result into the range of its type, so the value of an expression is known
from what the expression would be in the integers: it is the only number in the range that is
congruent to it (`Expr.eval_modular`). Words are computed modulo `2 ^ 64`, which is a multiple of
the modulus of every type.
-/

namespace ActorNet

variable {e : Expr} {k l x y : Int} {n : Int64} {r : Reader} {ty : Ty}

namespace Ty

/-- An integer type of one to 64 bits, or of one to 62 if it is unsigned. -/
def IsModular : Ty → Prop
  | int w => 0 < w ∧ w ≤ 64
  | uint w => 0 < w ∧ w ≤ 62
  | _ => False

/-- A number lies in the range of an integer type. -/
def Holds (ty : Ty) (k : Int) : Prop :=
  ∃ range ∈ ty.range?, range.1 ≤ k ∧ k ≤ range.2

lemma IsModular.bits_le (h : ty.IsModular) : ty.bits ≤ 64 := by
  cases ty with
  | int w => exact h.2
  | uint w => exact h.2.trans (by decide)
  | bool | float | string | void | list => exact h.elim

lemma IsModular.abs_sub_lt (h : ty.IsModular) (hk : ty.Holds k) (hl : ty.Holds l) : |k - l| < 2 ^ ty.bits := by
  obtain ⟨range, hrange, hk1, hk2⟩ := hk
  obtain ⟨_, hrange', hl1, hl2⟩ := hl
  cases hrange.symm.trans hrange'
  rw [abs_lt]
  cases ty with
  | int w =>
    obtain rfl := Option.some.inj hrange
    have hpow : (2 : Int) ^ w = 2 * 2 ^ (w - 1) := by
      rw [← Value.two_pow_pred h.1]
      push_cast
      rfl
    show -2 ^ w < _ ∧ _ < 2 ^ w
    by_cases hw : 0 < w ∧ w < 64
    · rw [if_pos hw] at hk1 hk2 hl1 hl2
      constructor <;> omega
    · rw [if_neg hw] at hk1 hk2 hl1 hl2
      obtain rfl : w = 64 := by
        obtain ⟨hpos, hle⟩ := h
        omega
      constructor <;> omega
  | uint w =>
    have hw : 0 < w ∧ w < 64 := ⟨h.1, Nat.lt_of_le_of_lt h.2 (by decide)⟩
    obtain rfl := Option.some.inj hrange
    rw [if_pos hw] at hk1 hk2 hl1 hl2
    show -2 ^ w < _ ∧ _ < 2 ^ w
    constructor <;> omega
  | bool | float | string | void | list => exact h.elim

end Ty

open Ty Value

lemma bmod_modEq (hty : ty.IsModular) (x : Int) : x.bmod (2 ^ 64) ≡ x [ZMOD 2 ^ ty.bits] := by
  have hword : x.bmod (2 ^ 64) ≡ x [ZMOD 2 ^ 64] := by exact_mod_cast Int.bmod_emod
  exact hword.of_dvd (pow_dvd_pow 2 hty.bits_le)

/-- A wrapped word is congruent to the word. -/
lemma wrap_modEq (hty : ty.IsModular) (n : Int64) :
    (wrap n ty).toInt ≡ n.toInt [ZMOD 2 ^ ty.bits] := by
  cases ty with
  | int w =>
    by_cases hw : 0 < w ∧ w < 64
    · rw [toInt_wrap_int hw]
      exact_mod_cast Int.bmod_emod
    · rw [wrap, if_neg hw]
  | uint w =>
    by_cases hw : 0 < w ∧ w < 64
    · rw [toInt_wrap_uint hw]
      exact_mod_cast Int.mod_modEq _ _
    · rw [wrap, if_neg hw]
  | bool | float | string | void | list => exact hty.elim

/-- The exact value of an expression over the integers of one type. Its leaves are constants and
variables with values in the range of the type. -/
inductive Expr.ExactValue (r : Reader) (ty : Ty) : Expr → Int → Prop where
  | int {n : Int64} : ty.Holds n.toInt → ExactValue r ty (.int n ty) n.toInt
  | var {v : VarRef} {n : Int64} : r.read v = .ok (.int n) → ty.Holds n.toInt → ExactValue r ty (.var v) n.toInt
  | minus {e : Expr} {x : Int} : ExactValue r ty e x → ExactValue r ty (.unary .minus e ty) (-x)
  | bitNot {e : Expr} {x : Int} : ExactValue r ty e x → ExactValue r ty (.unary .bitNot e ty) (-x - 1)
  | add {e e' : Expr} {x y : Int} :
      ExactValue r ty e x → ExactValue r ty e' y → ExactValue r ty (.binary .add e e' ty) (x + y)
  | sub {e e' : Expr} {x y : Int} :
      ExactValue r ty e x → ExactValue r ty e' y → ExactValue r ty (.binary .sub e e' ty) (x - y)
  | mul {e e' : Expr} {x y : Int} :
      ExactValue r ty e x → ExactValue r ty e' y → ExactValue r ty (.binary .mul e e' ty) (x * y)

/-- An expression evaluates to a word in the range of a type that is congruent to a number. -/
def Expr.Denotes (r : Reader) (ty : Ty) (e : Expr) (x : Int) : Prop :=
  ∃ n : Int64, e.eval r = .ok (.int n) ∧ ty.Holds n.toInt ∧ n.toInt ≡ x [ZMOD 2 ^ ty.bits]

/-- What an operator computes is wrapped into the range. -/
lemma Expr.denotes_wrap (hty : ty.IsModular) (heval : e.eval r = .ok (.int (wrap n ty)))
    (hn : n.toInt = y.bmod (2 ^ 64)) (hy : y ≡ x [ZMOD 2 ^ ty.bits]) : e.Denotes r ty x := by
  have hint : ty.isInt = true := by
    cases ty with
    | int | uint => rfl
    | bool | float | string | void | list => exact hty.elim
  refine ⟨_, heval, hasTy_wrap hint n, (wrap_modEq hty n).trans ?_⟩
  rw [hn]
  exact (bmod_modEq hty y).trans hy

lemma Expr.ExactValue.denotes (hty : ty.IsModular) (h : e.ExactValue r ty x) : e.Denotes r ty x := by
  induction h with
  | @int n hn =>
    refine ⟨n, ?_, hn, .refl _⟩
    cases ty with
    | float => exact hty.elim
    | _ => rfl
  | @var v n hv hn => exact ⟨n, hv, hn, .refl _⟩
  | minus _ ih =>
    obtain ⟨n, heval, _, hn⟩ := ih
    exact denotes_wrap hty (by rw [eval, heval]; rfl) n.toInt_neg hn.neg
  | bitNot _ ih =>
    obtain ⟨n, heval, _, hn⟩ := ih
    exact denotes_wrap hty (by rw [eval, heval]; rfl) n.toInt_not (hn.neg.sub_right 1)
  | add _ _ ih ih' =>
    obtain ⟨m, heval, _, hm⟩ := ih
    obtain ⟨n, heval', _, hn⟩ := ih'
    exact denotes_wrap hty (by rw [eval, heval, heval']; rfl) (m.toInt_add n) (hm.add hn)
  | sub _ _ ih ih' =>
    obtain ⟨m, heval, _, hm⟩ := ih
    obtain ⟨n, heval', _, hn⟩ := ih'
    exact denotes_wrap hty (by rw [eval, heval, heval']; rfl) (m.toInt_sub n) (hm.sub hn)
  | mul _ _ ih ih' =>
    obtain ⟨m, heval, _, hm⟩ := ih
    obtain ⟨n, heval', _, hn⟩ := ih'
    exact denotes_wrap hty (by rw [eval, heval, heval']; rfl) (m.toInt_mul n) (hm.mul hn)

/-- The value of an expression over the integers of one type is the only number in the range of the
type that is congruent to the exact value, modulo two to the width of the type. -/
theorem Expr.eval_modular (hty : ty.IsModular) (h : e.ExactValue r ty x) : ∃ n : Int64,
    e.eval r = .ok (.int n) ∧ ∀ k : Int, ty.Holds k ∧ k ≡ x [ZMOD 2 ^ ty.bits] ↔ k = n.toInt := by
  obtain ⟨n, heval, hn, hmod⟩ := h.denotes hty
  refine ⟨n, heval, fun k => ⟨?_, ?_⟩⟩
  · rintro ⟨hk, hkx⟩
    have hdvd : 2 ^ ty.bits ∣ k - n.toInt := (hmod.trans hkx.symm).dvd
    exact sub_eq_zero.mp (Int.eq_zero_of_abs_lt_dvd hdvd (hty.abs_sub_lt hk hn))
  · rintro rfl
    exact ⟨hn, hmod⟩

/-- In four unsigned bits `~5 - 3 * 7` is `5`, and no other number from zero to fifteen is congruent
to `-27`. -/
theorem Expr.eval_modular_nibble : (uint 4).IsModular ∧
    ∃ n : Int64, (Expr.binary .sub (.unary .bitNot (.int 5 (uint 4)) (uint 4))
        (.binary .mul (.var (.loc ⟨0⟩)) (.int 7 (uint 4)) (uint 4)) (uint 4)).eval
          ⟨"p", fun _ => .ok (.int 3)⟩ = .ok (.int n) ∧
      ∀ k : Int, (uint 4).Holds k ∧ k ≡ -5 - 1 - 3 * 7 [ZMOD 2 ^ (uint 4).bits] ↔ k = n.toInt := by
  have hty : (uint 4).IsModular := ⟨by decide, by decide⟩
  have hholds : ∀ n : Int64, 0 ≤ n.toInt → n.toInt ≤ 15 → (uint 4).Holds n.toInt := fun _ hlower hupper =>
    ⟨(0, 15), rfl, hlower, hupper⟩
  refine ⟨hty, eval_modular hty (.sub
    (.bitNot (.int (hholds 5 ?_ ?_))) (.mul (.var rfl (hholds 3 ?_ ?_)) (.int (hholds 7 ?_ ?_))))⟩
  all_goals decide

end ActorNet
