import ActorNet.Pass.Casts
import ActorNet.Proofs.Semantics.State
import Mathlib.Tactic.Positivity
import Mathlib.Tactic.Ring

/-!
# Values in the range of their type

An integer type has a range of words, and a value has the type if it lies in the range. What an
operator computes is wrapped into the range of its type, so an expression over variables whose
values have their types has a value of its own type (`Expr.hasTy_of_eval`). A conversion to a type
with a wider range leaves a value as it is (`Value.HasTy.convert`).
-/

namespace ActorNet

variable {op : BinaryOp} {e lhs rhs : Expr} {n : Int64} {Γ : Scope} {s : State} {a b ty : Ty} {x y : Value}

/-! ## Ranges -/

namespace Ty

/-- The least and the greatest value of an integer type. A type that is as wide as a word has all
words. -/
def range? : Ty → Option (Int × Int)
  | int w => some (if 0 < w ∧ w < 64 then (-2 ^ (w - 1), 2 ^ (w - 1) - 1) else (-2 ^ 63, 2 ^ 63 - 1))
  | uint w => some (if 0 < w ∧ w < 64 then (0, 2 ^ w - 1) else (-2 ^ 63, 2 ^ 63 - 1))
  | _ => none

def isInt (ty : Ty) : Bool :=
  ty.range?.isSome

/-- Whether a type is `bool` or an integer type. -/
def isPlain (ty : Ty) : Bool :=
  ty = bool || ty.isInt

/-- Both types are integer types, and the range of the second contains that of the first. It is not
`uint 63`: the mask of 63 bits is not computed without an overflow (`Value.wrap`). -/
def Widens (a b : Ty) : Prop :=
  b ≠ uint 63 ∧ ∃ r ∈ a.range?, ∃ q ∈ b.range?, q.1 ≤ r.1 ∧ r.2 ≤ q.2
deriving Decidable

lemma eq_of_not_needsCast (ha : a.isPlain = true) (h : a.needsCast b = false) : a = b := by
  simp only [needsCast, Bool.or_eq_false_iff, decide_eq_false_iff_not, not_not] at h
  cases a <;> cases b <;> simp_all [cls, bits, isPlain, isInt, range?]

lemma needsCast_self (a : Ty) : a.needsCast a = false := by
  simp [needsCast]

end Ty

namespace Value

/-- A value has a type: a truth value has type `bool`, a word every integer type in whose range it
lies. -/
def HasTy (x : Value) (ty : Ty) : Prop :=
  match x with
  | bool _ => ty = .bool
  | int n => ∃ r ∈ ty.range?, r.1 ≤ n.toInt ∧ n.toInt ≤ r.2
  | _ => False

instance (ty : Ty) : (x : Value) → Decidable (x.HasTy ty)
  | bool _ => inferInstanceAs (Decidable (_ = _))
  | int n => inferInstanceAs (Decidable (∃ r ∈ ty.range?, r.1 ≤ n.toInt ∧ n.toInt ≤ r.2))
  | float _ | str _ | list _ => isFalse id

lemma two_pow_pred {w : Nat} (h : 0 < w) : ((2 ^ w : Nat) : Int) = 2 * 2 ^ (w - 1) := by
  obtain ⟨k, rfl⟩ : ∃ k, w = k + 1 := ⟨w - 1, by omega⟩
  push_cast
  rw [pow_succ]
  ring

/-! ## Wrapping -/

/-- A word below 64 is the number of places that a shift by it goes. -/
lemma toNat_shift {k : Nat} (hk : k < 64) : ((Int64.ofNat k).toBitVec.smod 64).toNat = k := by
  have hall : ∀ k : Fin 64, ((Int64.ofNat k).toBitVec.smod 64).toNat = k := by decide
  exact hall ⟨k, hk⟩

/-- Shifting the upper bits out and the sign back in gives the balanced remainder. -/
lemma toInt_wrap_int {w : Nat} (hw : 0 < w ∧ w < 64) (n : Int64) :
    (wrap n (.int w)).toInt = n.toInt.bmod (2 ^ w) := by
  have hshift : 64 - w < 64 := by omega
  have hle : w ≤ 64 := hw.2.le
  -- what is left are the lower bits, with the sign of the highest of them
  have hbits : (n.toBitVec <<< (64 - w)).sshiftRight (64 - w) =
      (n.toBitVec.signExtend w).signExtend 64 := by
    ext i hi
    simp only [BitVec.getElem_sshiftRight, BitVec.getLsbD_shiftLeft, BitVec.getElem_signExtend,
      BitVec.msb_eq_getLsbD_last]
    grind
  rw [wrap, if_pos hw, ← Int64.toInt_toBitVec, Int64.toBitVec_shiftRight, BitVec.sshiftRight_eq',
    toNat_shift hshift, Int64.toBitVec_shiftLeft, BitVec.shiftLeft_eq', toNat_shift hshift, hbits,
    BitVec.toInt_signExtend, BitVec.toInt_signExtend, Nat.min_eq_left hle, Nat.min_eq_right hle,
    Int.bmod_bmod, Int64.toInt_toBitVec]

/-- Masking the upper bits off gives the remainder. -/
lemma toInt_wrap_uint {w : Nat} (hw : 0 < w ∧ w < 64) (n : Int64) :
    (wrap n (.uint w)).toInt = n.toInt % ((2 ^ w : Nat) : Int) := by
  have hmask : ((1 <<< Int64.ofNat w) - 1 : Int64).toBitVec.toNat = 2 ^ w - 1 := by
    have hall : ∀ k : Fin 64, ((1 <<< Int64.ofNat k) - 1 : Int64).toBitVec.toNat = 2 ^ k.val - 1 := by
      decide
    exact hall ⟨w, hw.2⟩
  have hbits : (wrap n (.uint w)).toBitVec.toNat = n.toBitVec.toNat % 2 ^ w := by
    rw [wrap, if_pos hw, Int64.toBitVec_and, BitVec.toNat_and, hmask, Nat.and_two_pow_sub_one_eq_mod]
  have hlt : n.toBitVec.toNat % 2 ^ w < 2 ^ 63 :=
    lt_of_lt_of_le (Nat.mod_lt _ (by positivity)) (Nat.pow_le_pow_right (by decide) (by omega))
  have hdvd : ((2 ^ w : Nat) : Int) ∣ ((2 ^ 64 : Nat) : Int) := by
    exact_mod_cast Nat.pow_dvd_pow 2 hw.2.le
  -- a word and the number that its bits spell differ by a multiple of the modulus
  have hword : n.toInt % ((2 ^ w : Nat) : Int) = n.toBitVec.toNat % ((2 ^ w : Nat) : Int) := by
    rw [← Int64.toInt_toBitVec, BitVec.toInt_eq_toNat_bmod, ← Int.emod_emod_of_dvd _ hdvd,
      Int.bmod_emod, Int.emod_emod_of_dvd _ hdvd]
  rw [← Int64.toInt_toBitVec, BitVec.toInt_eq_toNat_of_lt (by omega), hbits, hword, Int.natCast_emod]

/-- What is wrapped into an integer type lies in its range. -/
lemma hasTy_wrap (hty : ty.isInt = true) (n : Int64) : (int (wrap n ty)).HasTy ty := by
  have hword : -2 ^ 63 ≤ n.toInt ∧ n.toInt ≤ 2 ^ 63 - 1 :=
    ⟨n.le_toInt, Int.le_sub_one_of_lt n.toInt_lt⟩
  cases ty with
  | int w =>
    refine ⟨_, rfl, ?_⟩
    by_cases hw : 0 < w ∧ w < 64
    · have hpow := two_pow_pred hw.1
      have hpos : (0 : Int) < 2 ^ (w - 1) := by positivity
      have hlower := Int.le_bmod (x := n.toInt) (m := 2 ^ w) (by positivity)
      have hupper := Int.bmod_lt (x := n.toInt) (m := 2 ^ w) (by positivity)
      rw [toInt_wrap_int hw, if_pos hw]
      constructor <;> dsimp only <;> omega
    · rw [wrap, if_neg hw, if_neg hw]
      exact hword
  | uint w =>
    refine ⟨_, rfl, ?_⟩
    by_cases hw : 0 < w ∧ w < 64
    · have hpos : (0 : Int) < ((2 ^ w : Nat) : Int) := by positivity
      have hcast : ((2 ^ w : Nat) : Int) = 2 ^ w := by push_cast; rfl
      have hlower := Int.emod_nonneg n.toInt (Int.ne_of_gt hpos)
      have hupper := Int.emod_lt_of_pos n.toInt hpos
      rw [toInt_wrap_uint hw, if_pos hw]
      constructor <;> dsimp only <;> omega
    · rw [wrap, if_neg hw, if_neg hw]
      exact hword
  | bool | float | string | void | list => cases hty

/-- A word in the range of a type is not changed by wrapping. -/
lemma wrap_of_hasTy (h : (int n).HasTy ty) : wrap n ty = n := by
  obtain ⟨r, hr, hlower, hupper⟩ := h
  cases ty with
  | int w =>
    obtain rfl := Option.some.inj hr
    by_cases hw : 0 < w ∧ w < 64
    · rw [if_pos hw] at hlower hupper
      have hpow := two_pow_pred hw.1
      rw [← Int64.toInt_inj, toInt_wrap_int hw]
      exact Int.bmod_eq_of_le (by omega) (by omega)
    · rw [wrap, if_neg hw]
  | uint w =>
    obtain rfl := Option.some.inj hr
    by_cases hw : 0 < w ∧ w < 64
    · rw [if_pos hw] at hlower hupper
      have hcast : ((2 ^ w : Nat) : Int) = 2 ^ w := by push_cast; rfl
      rw [← Int64.toInt_inj, toInt_wrap_uint hw]
      exact Int.emod_eq_of_lt hlower (by omega)
    · rw [wrap, if_neg hw]
  | bool | float | string | void | list => cases hr

lemma HasTy.widen (h : x.HasTy a) (hab : a.Widens b) : x.HasTy b := by
  obtain ⟨_, r, hr, q, hq, hlower, hupper⟩ := hab
  cases x with
  | int n =>
    obtain ⟨r', hr', hl, hu⟩ := h
    cases hr.symm.trans hr'
    exact ⟨q, hq, Int.le_trans hlower hl, Int.le_trans hu hupper⟩
  | bool b =>
    cases (show a = .bool from h)
    cases hr
  | float | str | list => cases h

lemma HasTy.isPlain (h : x.HasTy a) : a.isPlain = true := by
  cases x with
  | int n =>
    obtain ⟨r, hr, _⟩ := h
    rw [Ty.isPlain, Ty.isInt, hr]
    exact Bool.or_true _
  | bool b =>
    cases (show a = .bool from h)
    rfl
  | float | str | list => cases h

lemma HasTy.convert (h : x.HasTy a) (hab : a.Widens b) (proc : String) : x.convert proc b = .ok x := by
  have hx := h.widen hab
  cases x with
  | int n =>
    have hwrap := wrap_of_hasTy hx
    cases b with
    | int | uint => rw [Value.convert, hwrap]
    | bool | float | string | void | list =>
      obtain ⟨r, hr, _⟩ := hx
      cases hr
  | bool c =>
    obtain ⟨_, r, hr, _⟩ := hab
    cases (show a = .bool from h)
    cases hr
  | float | str | list => cases h

end Value

/-! ## Values of operations -/

namespace State

lemma eval_unary {op : UnaryOp} :
    s.eval (.unary op e ty) = some y ↔ ∃ x, s.eval e = some x ∧ op.apply "" x ty = .ok y := by
  simp only [eval_eq_some, Expr.eval, bind_eq_ok]
  rfl

lemma eval_binary (hop : op.isLogical = false) : s.eval (.binary op lhs rhs ty) = some y ↔
      ∃ a b, s.eval lhs = some a ∧ s.eval rhs = some b ∧ op.apply "" a b ty = .ok y := by
  simp only [eval_eq_some, Expr.eval_binary_ok hop]
  rfl

lemma eval_logical (hop : op.isLogical = true) : s.eval (.binary op lhs rhs ty) = some y ↔
      ∃ a, s.eval lhs = some (.bool a) ∧ ((a = decide (op = .or) ∧ y = .bool a) ∨
        (a ≠ decide (op = .or) ∧ ∃ b, s.eval rhs = some (.bool b) ∧ y = .bool b)) := by
  simp only [eval_eq_some, Expr.eval_logical_ok hop]

end State

/-! ## Expressions over truth values and integers -/

/-- An operator has results of a type. -/
def UnaryOp.Makes (op : UnaryOp) (ty : Ty) : Prop :=
  if op = .not then ty = .bool else ty.isInt = true
deriving Decidable

/-- An operator has results of a type. -/
def BinaryOp.Makes (op : BinaryOp) (ty : Ty) : Prop :=
  if op.isLogical || op.isComparison then ty = .bool else ty.isInt = true
deriving Decidable

/-- An expression over truth values and integers: its variables are declared so, its constants lie
in the range of their type, and operations are declared with a type that they have results of. -/
def Expr.Plain (Γ : Scope) : Expr → Prop
  | .bool _ => True
  | .int value ty => (Value.int value).HasTy ty
  | .var v => ∃ ty ∈ Γ.ty? v, ty.isPlain = true
  | .unary op e ty => e.Plain Γ ∧ op.Makes ty
  | .binary op lhs rhs ty => lhs.Plain Γ ∧ rhs.Plain Γ ∧ op.Makes ty
  | .str _ | .list _ _ => False

/-- Whether an expression is one over truth values and integers can be computed. -/
def Expr.decidePlain (Γ : Scope) : (e : Expr) → Decidable (e.Plain Γ)
  | .bool _ => isTrue trivial
  | .int value ty => inferInstanceAs (Decidable ((Value.int value).HasTy ty))
  | .var v => inferInstanceAs (Decidable (∃ ty ∈ Γ.ty? v, ty.isPlain = true))
  | .unary _ e _ => @instDecidableAnd _ _ (e.decidePlain Γ) inferInstance
  | .binary _ lhs rhs _ =>
    @instDecidableAnd _ _ (lhs.decidePlain Γ) (@instDecidableAnd _ _ (rhs.decidePlain Γ) inferInstance)
  | .str _ | .list _ _ => isFalse id

instance (Γ : Scope) (e : Expr) : Decidable (e.Plain Γ) := e.decidePlain Γ

/-- The values of variables have the types that they are declared with. -/
def State.HasTypes (s : State) (Γ : Scope) (vars : List VarRef) : Prop :=
  ∀ v ∈ vars, ∀ ty, Γ.ty? v = some ty → ∀ x, s.read v = some x → x.HasTy ty

lemma State.hasTypes_append {l m : List VarRef} : s.HasTypes Γ (l ++ m) ↔ s.HasTypes Γ l ∧ s.HasTypes Γ m := by
  simp only [HasTypes, List.mem_append, or_imp, forall_and]

lemma UnaryOp.hasTy_of_apply {op : UnaryOp} (hmakes : op.Makes ty) (hx : x.HasTy a) (h : op.apply "" x ty = .ok y) :
    y.HasTy ty := by
  cases op with
  | not =>
    cases x with
    | bool b =>
      cases h
      exact hmakes
    | int | float | str | list => cases h
  | minus =>
    cases x with
    | int n =>
      cases h
      exact Value.hasTy_wrap hmakes _
    | float => exact hx.elim
    | bool | str | list => cases h
  | bitNot =>
    cases x with
    | int n =>
      cases h
      exact Value.hasTy_wrap hmakes _
    | bool | float | str | list => cases h

lemma BinaryOp.hasTy_of_applyInt {m : Int64} (hmakes : op.Makes ty) (h : op.applyInt "" m n ty = .ok y) :
    y.HasTy ty := by
  cases op
  case eq | ne | lt | le | gt | ge =>
    cases h
    exact hmakes
  case and | or => cases h
  case div | mod =>
    simp only [applyInt] at h
    split at h
    · cases h
    · cases h
      exact Value.hasTy_wrap hmakes _
  all_goals
    cases h
    exact Value.hasTy_wrap hmakes _

lemma BinaryOp.hasTy_of_apply {x' : Value} (hmakes : op.Makes ty) (hx : x.HasTy a) (hx' : x'.HasTy b)
    (h : op.apply "" x x' ty = .ok y) : y.HasTy ty := by
  cases x with
  | int m =>
    cases x' with
    | int n => exact hasTy_of_applyInt hmakes h
    | bool | float | str | list => cases h
  | bool m =>
    cases x' with
    | bool n =>
      simp only [apply] at h
      split at h
      · rename_i hop
        subst hop
        cases h
        exact hmakes
      · split at h
        · rename_i hop
          subst hop
          cases h
          exact hmakes
        · cases h
    | int | float | str | list => cases h
  | float | str | list => exact hx.elim

namespace Expr

lemma Plain.exists_ty (h : e.Plain Γ) : ∃ ty, e.ty? Γ = some ty := by
  cases e with
  | var v => exact h.imp fun _ hty => hty.1
  | bool | int | unary | binary => exact ⟨_, rfl⟩
  | str | list => exact h.elim

/-- The value of an expression over variables whose values have their types has the type of the
expression. -/
theorem hasTy_of_eval : ∀ (e : Expr) {y : Value} {ty : Ty}, e.Plain Γ → s.HasTypes Γ e.uses → s.eval e = some y →
    e.ty? Γ = some ty → y.HasTy ty
  | .bool b, y, ty, he, hs, hy, hty => by
    cases hty
    cases hy
    rfl
  | .int value ty', y, ty, he, hs, hy, hty => by
    cases hty
    have hvalue : y = .int value := by
      obtain ⟨r, hr, _⟩ := he
      cases ty' <;> cases hy <;> first | rfl | cases hr
    rw [hvalue]
    exact he
  | .var v, y, ty, he, hs, hy, hty => by
    rw [State.eval_var] at hy
    exact hs v List.mem_cons_self ty hty y hy
  | .unary op e ty', y, ty, he, hs, hy, hty => by
    cases hty
    obtain ⟨x, hx, happly⟩ := State.eval_unary.mp hy
    obtain ⟨a, ha⟩ := he.1.exists_ty
    exact UnaryOp.hasTy_of_apply he.2 (hasTy_of_eval e he.1 hs hx ha) happly
  | .binary op lhs rhs ty', y, ty, he, hs, hy, hty => by
    cases hty
    obtain ⟨hl, hr⟩ := State.hasTypes_append.mp hs
    cases hop : op.isLogical with
    | true =>
      have hbool : ty' = .bool := by
        have hmakes := he.2.2
        rw [BinaryOp.Makes, hop, Bool.true_or, if_pos rfl] at hmakes
        exact hmakes
      rw [hbool]
      obtain ⟨a, _, ⟨_, rfl⟩ | ⟨_, b, _, rfl⟩⟩ := (State.eval_logical hop).mp hy <;> rfl
    | false =>
      obtain ⟨x, x', hx, hx', happly⟩ := (State.eval_binary hop).mp hy
      obtain ⟨a, ha⟩ := he.1.exists_ty
      obtain ⟨b, hb⟩ := he.2.1.exists_ty
      exact BinaryOp.hasTy_of_apply he.2.2 (hasTy_of_eval lhs he.1 hl hx ha) (hasTy_of_eval rhs he.2.1 hr hx' hb) happly
  | .str _, y, ty, he, hs, hy, hty => he.elim
  | .list _ _, y, ty, he, hs, hy, hty => he.elim

end Expr

end ActorNet
