import ActorNet.Proofs.Casting.Ranges

/-!
# Converting a converted value

Truth values become zero and one, and one has no signed type of one bit. Apart from that a
conversion gives a value that lies in its type, and converting it again changes nothing
(`Value.convert_convert`).
-/

namespace ActorNet

/-- The type of the elements inside of all lists. -/
def Ty.leaf : Ty → Ty
  | list _ elem => elem.leaf
  | ty => ty

namespace Value

/-- Every integer at the place of an integer type lies in the range of all integers of its width. -/
def Within : Ty → Value → Prop
  | .list _ elem, list items => ∀ x ∈ items, Within elem x
  | .int w, int n => -2 ^ (w - 1) ≤ n.toInt ∧ n.toInt < 2 ^ (w - 1)
  | .uint w, int n => 0 ≤ n.toInt ∧ n.toInt < 2 ^ w
  | _, _ => True

/-- A truth value stands somewhere in a value. -/
inductive HasBool : Value → Prop
  | bool (b : Bool) : HasBool (bool b)
  | list {items : List Value} {x : Value} : x ∈ items → HasBool x → HasBool (list items)

variable {proc : String} {ty : Ty} {v w : Value} {vs ws : List Value}

lemma within_of_hasTy {n : Int64} (h : (int n).HasTy ty) (hwidth : 0 < ty.bits)
    (hword : ∀ k, ty = .uint k → k < 64) : Within ty (int n) := by
  obtain ⟨r, hr, hlower, hupper⟩ := h
  cases ty with
  | int k =>
    obtain rfl := Option.some.inj hr
    have hk : 0 < k := hwidth
    by_cases hlt : k < 64
    · rw [if_pos ⟨hk, hlt⟩] at hlower hupper
      exact ⟨hlower, by omega⟩
    · rw [if_neg fun h => hlt h.2] at hlower hupper
      have hle : (2 : Int) ^ 63 ≤ 2 ^ (k - 1) := pow_le_pow_right₀ (by norm_num) (by omega)
      exact ⟨by omega, by omega⟩
  | uint k =>
    obtain rfl := Option.some.inj hr
    rw [if_pos ⟨hwidth, hword k rfl⟩] at hlower hupper
    exact ⟨hlower, by omega⟩
  | bool | float | string | void | list => cases hr

lemma wrap_zero (ty : Ty) : wrap 0 ty = 0 := by
  cases ty with
  | int | uint => simp [wrap]
  | bool | float | string | void | list => rfl

lemma hasTy_bit (hint : ty.isInt = true) (hone : ty ≠ .int 1) (b : Bool) : (int (if b then 1 else 0)).HasTy ty := by
  cases b with
  | false => exact wrap_zero ty ▸ hasTy_wrap hint 0
  | true =>
    have hpow : ∀ {k}, 1 ≤ k → (2 : Int) ^ 1 ≤ 2 ^ k := fun hk => pow_le_pow_right₀ (by norm_num) hk
    cases ty with
    | int k | uint k =>
      refine ⟨_, rfl, ?_⟩
      show _ ≤ (1 : Int) ∧ (1 : Int) ≤ _
      by_cases hk : 0 < k ∧ k < 64
      · have hle := hpow hk.1
        have hless : k ≠ 1 → (2 : Int) ^ 1 ≤ 2 ^ (k - 1) := fun hne => hpow (by omega)
        rw [if_pos hk]
        simp_all only [ne_eq, Ty.int.injEq, not_false_eq_true, true_implies, reduceCtorEq]
        exact ⟨by omega, by omega⟩
      · rw [if_neg hk]
        decide
    | bool | float | string | void | list => cases hint

/-- What a conversion to an integer type gives is an integer of the type. -/
lemma exists_of_convert (hint : ty.isInt = true) (h : v.convert proc ty = .ok w)
    (hone : ty = .int 1 → ¬ v.HasBool) : ∃ n, w = int n ∧ (int n).HasTy ty := by
  cases ty with
  | int | uint =>
    cases v with
    | int n =>
      cases h
      exact ⟨_, rfl, hasTy_wrap rfl n⟩
    | float x =>
      cases h
      exact ⟨_, rfl, hasTy_wrap rfl x.toInt64⟩
    | bool b =>
      cases h
      exact ⟨_, rfl, hasTy_bit rfl (fun hty => hone hty (.bool b)) b⟩
    | str | list => cases h
  | bool | float | string | void | list => cases hint

lemma convertAll_convertAll {P : Value → Prop} (h : convertAll proc vs ty = .ok ws)
    (hall : ∀ v ∈ vs, ∀ w, v.convert proc ty = .ok w → w.convert proc ty = .ok w ∧ P w) :
    convertAll proc ws ty = .ok ws ∧ ∀ w ∈ ws, P w := by
  induction vs generalizing ws with
  | nil =>
    cases h
    exact ⟨rfl, by simp⟩
  | cons v rest ih =>
    obtain ⟨hv, hrest⟩ := List.forall_mem_cons.mp hall
    simp only [convertAll, bind_eq_ok] at h
    obtain ⟨w, hw, ws', hws, ⟨⟩⟩ := h
    obtain ⟨hsame, hP⟩ := hv w hw
    obtain ⟨hsames, hPs⟩ := ih hws hrest
    refine ⟨?_, List.forall_mem_cons.mpr ⟨hP, hPs⟩⟩
    rw [convertAll, hsame, hsames]
    rfl

/-- Converting a converted value changes nothing, and its integers lie in their type, except that
one is no integer of one signed bit, and that the words of a type without a width or of an unsigned
type of 64 bits and more are not confined to its range. -/
theorem convert_convert (h : v.convert proc ty = .ok w) (hone : ty.leaf = .int 1 → ¬ v.HasBool) :
    w.convert proc ty = .ok w ∧ (0 < ty.leaf.bits → (∀ k, ty.leaf = .uint k → k < 64) → Within ty w) := by
  induction ty generalizing v w with
  | int | uint =>
    obtain ⟨n, rfl, hn⟩ := exists_of_convert rfl h hone
    refine ⟨?_, within_of_hasTy hn⟩
    rw [convert, wrap_of_hasTy hn]
  | list size elem ih =>
    cases v with
    | list items =>
      obtain ⟨ws, hws, rfl⟩ := map_eq_ok.mp h
      obtain ⟨hsame, hwithin⟩ := convertAll_convertAll hws
        fun x hx y hy => ih hy fun hleaf hbool => hone hleaf (.list hx hbool)
      refine ⟨?_, fun hwidth hword x hx => hwithin x hx hwidth hword⟩
      rw [convert, hsame]
      rfl
    | bool | int | float | str => cases h
  | bool | float | string | void =>
    cases v <;> cases h <;> exact ⟨rfl, fun _ _ => by simp [Within]⟩

/-- Truth values and words that are cut off, inside of a list. -/
theorem convert_convert_mixed : (list [bool true, int 300]).convert "" (.list 2 (.int 8)) = .ok (list [int 1, int 44]) ∧
    (list [int 1, int 44]).convert "" (.list 2 (.int 8)) = .ok (list [int 1, int 44]) ∧
    Within (.list 2 (.int 8)) (list [int 1, int 44]) := by
  have hfirst : (list [bool true, int 300]).convert "" (.list 2 (.int 8)) = .ok (list [int 1, int 44]) := by rfl
  obtain ⟨hsecond, hwithin⟩ := convert_convert hfirst fun hleaf => (by cases hleaf)
  exact ⟨hfirst, hsecond, hwithin (by decide) fun k hk => (by cases hk)⟩

/-- The exceptions: `true` becomes one, which becomes minus one, and a negative word stays negative
at 64 unsigned bits. -/
theorem convert_outside : (bool true).convert "" (.int 1) = .ok (int 1) ∧ ¬ Within (.int 1) (int 1) ∧
    (int 1).convert "" (.int 1) = .ok (int (-1)) ∧ (int (-1)).convert "" (.uint 64) = .ok (int (-1)) ∧
    ¬ Within (.uint 64) (int (-1)) := by
  refine ⟨rfl, fun h => ?_, rfl, rfl, fun h => ?_⟩
  · exact absurd h.2 (by decide)
  · exact absurd h.1 (by decide)

end Value

end ActorNet
