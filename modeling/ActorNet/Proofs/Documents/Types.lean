import ActorNet.Proofs.Documents.Text
import ActorNet.Ty.Text

/-!
# The types that have a readable text

A type can be read from its text exactly if its integers are between 1 and 64 bits wide and its list
sizes are 32-bit words. `Ty.Within` is that range, with the two widest integer types as parameters:
the least upper bound of two types stays within it as soon as the signed limit is above the unsigned
one (`Ty.Within.lub`), and with 64 bits for both of them it does not.
-/

namespace ActorNet

open List Text

variable {cs : List Char} {levels limit n width : Nat}

/-! ## Reading numerals and trimmed texts -/

namespace Text

lemma isBlank_of_isDigit {c : Char} (h : isDigit c = true) : isBlank c = false := by
  rw [isDigit, Bool.and_eq_true, decide_eq_true_eq, decide_eq_true_eq] at h
  have hlow : '0'.toNat ≤ c.toNat := h.1
  have hhigh : c.toNat ≤ '9'.toNat := h.2
  have hrange : 48 ≤ c.toNat ∧ c.toNat ≤ 57 := ⟨hlow, hhigh⟩
  simp only [isBlank, inRanges, blankRanges, any_cons, any_nil, Bool.or_false, Bool.or_eq_false_iff,
    Bool.and_eq_false_iff, decide_eq_false_iff_not]
  omega

lemma trim_of_ends (hhead : ∀ c ∈ cs.head?, isBlank c = false)
    (hlast : ∀ c ∈ cs.getLast?, isBlank c = false) : trim cs = cs := by
  have hdrop : ∀ {l : List Char}, (∀ c ∈ l.head?, isBlank c = false) → l.dropWhile isBlank = l := by
    intro l hl
    cases l with
    | nil => rfl
    | cons c l => exact dropWhile_cons_of_neg (by rw [hl c rfl]; decide)
  rw [trim, hdrop hhead, hdrop (by rwa [head?_reverse]), reverse_reverse]

lemma trim_blank (cs : List Char) : trim (' ' :: cs) = trim cs := by
  rw [trim, dropWhile_cons_of_pos (by decide), trim]

lemma isBlank_ends_toDigits (n : Nat) : (∀ c ∈ (Nat.toDigits 10 n).head?, isBlank c = false) ∧
    ∀ c ∈ (Nat.toDigits 10 n).getLast?, isBlank c = false :=
  ⟨fun _ hc => isBlank_of_isDigit (isDigit_of_mem_toDigits (mem_of_mem_head? hc)),
    fun _ hc => isBlank_of_isDigit (isDigit_of_mem_toDigits (mem_of_mem_getLast? hc))⟩

lemma unsigned?_toDigits (h : n ≤ limit) : unsigned? limit (Nat.toDigits 10 n) = some n := by
  have hplus : ∀ rest, Nat.toDigits 10 n = '+' :: rest → False := by
    intro rest heq
    have hdigit : isDigit '+' = true := isDigit_of_mem_toDigits (n := n) (by rw [heq]; exact mem_cons_self)
    exact absurd hdigit (by decide)
  have hall : (Nat.toDigits 10 n).all isDigit = true :=
    all_eq_true.mpr fun c hc => isDigit_of_mem_toDigits hc
  simp only [unsigned?, natural?, ne_eq, Nat.toDigits_ne_nil, not_false_eq_true, hall, and_self,
    if_true, digitsValue_toDigits, bind, Option.bind_some, if_pos h]

lemma le_of_unsigned? (h : unsigned? limit cs = some n) : n ≤ limit := by
  simp only [unsigned?, bind, Option.bind_eq_some_iff] at h
  obtain ⟨m, -, hm⟩ := h
  split at hm
  · rename_i hle
    cases hm
    exact hle
  · cases hm

end Text

namespace Ty

/-- Integers are at least one bit and at most the given number of bits wide, and list sizes are
32-bit words. -/
def Within (signed unsigned : Nat) : Ty → Prop
  | int width => 0 < width ∧ width ≤ signed
  | uint width => 0 < width ∧ width ≤ unsigned
  | list size elem => size ≤ word32Max ∧ elem.Within signed unsigned
  | _ => True

variable {s u s' u' : Nat} {ty a b c : Ty}

instance decidableWithin (s u : Nat) : (ty : Ty) → Decidable (ty.Within s u)
  | bool | float | string | void => .isTrue trivial
  | int _ | uint _ => inferInstanceAs (Decidable (_ ∧ _))
  | list _ elem => @instDecidableAnd _ _ inferInstance (decidableWithin s u elem)

lemma Within.mono (h : ty.Within s u) (hs : s ≤ s') (hu : u ≤ u') : ty.Within s' u' := by
  induction ty with
  | int width => exact ⟨h.1, Nat.le_trans h.2 hs⟩
  | uint width => exact ⟨h.1, Nat.le_trans h.2 hu⟩
  | list size elem ih => exact ⟨h.1, ih h.2⟩
  | _ => trivial

lemma Within.lub (hlimit : u < s) (ha : a.Within s u) (hb : b.Within s u) (hc : a.lub b = some c) : c.Within s u := by
  induction a generalizing b c with
  | list size elem ih =>
    cases b with
    | list size' elem' =>
      obtain ⟨d, hd, rfl⟩ := Option.map_eq_some_iff.mp hc
      exact ⟨Nat.max_le.mpr ⟨ha.1, hb.1⟩, ih ha.2 hb.2 hd⟩
    | _ => cases hc
  | int width | uint width =>
    obtain ⟨hpos, hle⟩ := ha
    cases b with
    | int width' | uint width' =>
      obtain ⟨_, hle'⟩ := hb
      cases hc
      exact ⟨by omega, by omega⟩
    | _ => cases hc
  | _ => cases b <;> cases hc <;> trivial

-- With one width for all integers, the least upper bound may be outside of the range.
example : ∃ c, (uint 64).lub (int 8) = some c ∧ ¬ c.Within 64 64 :=
  ⟨int 65, rfl, by decide⟩

/-! ## Texts -/

lemma toList_int (width : Nat) : (int width).text.toList = 'i' :: 'n' :: 't' :: Nat.toDigits 10 width := by
  simp [text]

lemma toList_uint (width : Nat) : (uint width).text.toList = 'u' :: 'i' :: 'n' :: 't' :: Nat.toDigits 10 width := by
  simp [text]

lemma toList_list (size : Nat) (elem : Ty) : (list size elem).text.toList =
    '[' :: ((elem.text.toList ++ ';' :: ' ' :: Nat.toDigits 10 size) ++ [']']) := by
  simp [text]

lemma plain?_of_head {c : Char} (cs : List Char) (h : c ∉ ['b', 'f', 'S', 's', 'v']) : plain? (c :: cs) = none := by
  simp only [mem_cons, not_mem_nil, or_false, not_or] at h
  simp [plain?, h]

lemma bracketed?_of_head {c : Char} (cs : List Char) (h : c ≠ '[') : bracketed? (c :: cs) = none := by
  simp [bracketed?, h]

lemma width?_toDigits (h : 0 < width) (hle : width ≤ 64) : width? (Nat.toDigits 10 width) = .ok width := by
  have hword : width ≤ word32Max := Nat.le_trans hle (by decide)
  rw [width?, unsigned?_toDigits hword]
  simp only [Nat.ne_of_gt h, Nat.not_lt.mpr hle, or_self, if_false]

lemma splitLast?_list (elem digits : List Char) (h : ∀ c ∈ digits, c ≠ ';') :
    splitLast? (elem ++ ';' :: ' ' :: digits) = some (elem, ' ' :: digits) := by
  have hrev : (elem ++ ';' :: ' ' :: digits).reverse = (digits.reverse ++ [' ']) ++ ';' :: elem.reverse := by simp
  have hsize : ∀ c ∈ digits.reverse ++ [' '], decide (c ≠ ';') = true := by
    intro c hc
    rcases mem_append.mp hc with hc | hc
    · exact decide_eq_true (h c (mem_reverse.mp hc))
    · cases mem_singleton.mp hc
      rfl
  rw [splitLast?, hrev, dropWhile_append_of_pos hsize, takeWhile_append_of_pos hsize,
    dropWhile_cons_of_neg (by decide), takeWhile_cons_of_neg (by decide)]
  simp

lemma trim_text (ty : Ty) : trim ty.text.toList = ty.text.toList := by
  -- a numeral ends the text of an integer type
  have hnumeral : ∀ (word : List Char) (width : Nat), ∀ c ∈ (word ++ Nat.toDigits 10 width).getLast?,
      isBlank c = false := by
    intro word width c hc
    rw [getLast?_append] at hc
    rcases hlast : (Nat.toDigits 10 width).getLast? with _ | d
    · exact absurd (getLast?_eq_none_iff.mp hlast) Nat.toDigits_ne_nil
    · rw [hlast] at hc
      cases hc
      exact (isBlank_ends_toDigits width).2 _ hlast
  cases ty with
  | int width =>
    rw [toList_int]
    exact trim_of_ends (by rintro c ⟨⟩; decide) (hnumeral ['i', 'n', 't'] width)
  | uint width =>
    rw [toList_uint]
    exact trim_of_ends (by rintro c ⟨⟩; decide) (hnumeral ['u', 'i', 'n', 't'] width)
  | list size elem =>
    rw [toList_list]
    refine trim_of_ends (by rintro c ⟨⟩; decide) fun c hc => ?_
    rw [← cons_append, getLast?_concat] at hc
    cases hc
    decide
  | _ => decide

section Reading

variable {inner elemText sizeText : List Char} {elem : Ty} {size : Nat}

lemma readAt?_plain (h : plain? (trim cs) = some ty) : readAt? levels cs = .ok ty := by
  rw [readAt?.eq_def]
  simp only [h]

lemma readAt?_integer (hplain : plain? (trim cs) = none) (hinner : bracketed? (trim cs) = none)
    (h : integer? (trim cs) = .ok ty) : readAt? levels cs = .ok ty := by
  rw [readAt?.eq_def]
  simp only [hplain, hinner, h]

lemma readAt?_list (hplain : plain? (trim cs) = none) (hinner : bracketed? (trim cs) = some inner)
    (hsplit : splitLast? inner = some (elemText, sizeText)) (helem : readAt? levels elemText = .ok elem)
    (hsize : unsigned? word32Max (trim sizeText) = some size) : readAt? (levels + 1) cs = .ok (list size elem) := by
  rw [readAt?.eq_def]
  simp only [hplain, hinner, hsplit, helem, hsize]

/-- A type is read as a plain name, as a list, or as an integer. -/
lemma cases_of_readAt? (h : readAt? levels cs = .ok ty) : plain? (trim cs) = some ty ∨ integer? (trim cs) = .ok ty ∨
      ∃ levels' elemText sizeText size elem, levels = levels' + 1 ∧ readAt? levels' elemText = .ok elem ∧
        unsigned? word32Max sizeText = some size ∧ ty = list size elem := by
  rw [readAt?.eq_def] at h
  simp only at h
  split at h
  · rename_i heq
    cases h
    exact .inl heq
  · split at h
    · split at h
      · cases h
      · cases h
      · split at h
        · cases h
        · rename_i helem
          split at h
          · cases h
          · rename_i hsize
            cases h
            exact .inr (.inr ⟨_, _, _, _, _, rfl, helem, hsize, rfl⟩)
    · split at h
      · rename_i heq
        cases h
        exact .inr (.inl heq)
      · cases h

end Reading

lemma readAt?_text (h : ty.Within 64 64) (hlevels : ty.text.toList.length ≤ levels) :
    readAt? levels ty.text.toList = .ok ty := by
  induction ty generalizing levels with
  | int width | uint width =>
    refine readAt?_integer ?_ ?_ ?_ <;> rw [trim_text] <;> first | rw [toList_int] | rw [toList_uint]
    · exact plain?_of_head _ (by decide)
    · exact bracketed?_of_head _ (by decide)
    · simp [integer?, after?, width?_toDigits h.1 h.2, Except.map]
  | list size elem ih =>
    rw [toList_list, length_cons, length_append, length_append] at hlevels
    obtain _ | levels := levels
    · omega
    have helem : readAt? levels elem.text.toList = .ok elem := ih h.2 (by omega)
    have hdigits : ∀ c ∈ Nat.toDigits 10 size, c ≠ ';' := by
      rintro c hc rfl
      exact absurd (isDigit_of_mem_toDigits hc) (by decide)
    refine readAt?_list ?_ ?_ (splitLast?_list _ _ hdigits) helem ?_
    · rw [trim_text, toList_list]
      exact plain?_of_head _ (by decide)
    · rw [trim_text, toList_list, bracketed?, reverse_append]
      simp
    · obtain ⟨hhead, hlast⟩ := isBlank_ends_toDigits size
      rw [trim_blank, trim_of_ends hhead hlast, unsigned?_toDigits h.1]
  | _ => exact readAt?_plain (by rw [trim_text]; decide)

lemma within_of_width? {digits : List Char} (h : width? digits = .ok width) : 0 < width ∧ width ≤ 64 := by
  rw [width?] at h
  split at h
  · cases h
  · split at h
    · cases h
    · rename_i hrange
      cases h
      omega

lemma within_of_plain? (h : plain? cs = some ty) : ty.Within s u := by
  rw [plain?] at h
  repeat' split at h
  all_goals cases h
  all_goals trivial

lemma within_of_integer? (h : integer? cs = .ok ty) : ty.Within 64 64 := by
  have hwidth : ∀ {digits : List Char} {f : Nat → Ty}, (width? digits).map f = .ok ty →
      ∃ width, f width = ty ∧ 0 < width ∧ width ≤ 64 := by
    intro digits f hmap
    rcases hw : width? digits with e | width
    · rw [hw] at hmap
      cases hmap
    · rw [hw] at hmap
      exact ⟨width, Except.ok.inj hmap, within_of_width? hw⟩
  rw [integer?] at h
  split at h
  · obtain ⟨width, rfl, hrange⟩ := hwidth h
    exact hrange
  · split at h
    · obtain ⟨width, rfl, hrange⟩ := hwidth h
      exact hrange
    · cases h

lemma within_of_readAt? (h : readAt? levels cs = .ok ty) : ty.Within 64 64 := by
  induction levels generalizing cs ty with
  | zero =>
    rcases cases_of_readAt? h with hplain | hint | ⟨levels, _, _, _, _, hlevels, -⟩
    · exact within_of_plain? hplain
    · exact within_of_integer? hint
    · cases hlevels
  | succ levels ih =>
    rcases cases_of_readAt? h with hplain | hint | ⟨_, _, _, size, elem, hlevels, helem, hsize, rfl⟩
    · exact within_of_plain? hplain
    · exact within_of_integer? hint
    · cases hlevels
      exact ⟨le_of_unsigned? hsize, ih helem⟩

lemma within_of_ofJson? {j : Json} (h : ofJson? j = some ty) : ty.Within 64 64 := by
  obtain ⟨text, -, hread⟩ := Option.bind_eq_some_iff.mp h
  rcases hty : read text with e | ty'
  · rw [hty] at hread
    cases hread
  · rw [hty] at hread
    cases hread
    exact within_of_readAt? hty

lemma read_text (h : ty.Within 64 64) : read ty.text = .ok ty :=
  readAt?_text h (Nat.le_of_eq String.length_toList)

lemma ofJson?_toJson (h : ty.Within 64 64) : ofJson? ty.toJson = some ty := by
  simp [ofJson?, toJson, Json.asString?, read_text h, Except.toOption]

/-- Text and types determine each other: a type with integers of 1 to 64 bits is read from its text,
and only such types are ever read, so the text of whatever was read is read as the same type. -/
theorem text_round_trip (ty : Ty) : (ty.Within 64 64 → read ty.text = .ok ty) ∧
    ∀ text, read text = .ok ty → ty.Within 64 64 ∧ read ty.text = .ok ty :=
  ⟨read_text, fun _ h => ⟨within_of_readAt? h, read_text (within_of_readAt? h)⟩⟩

theorem text_round_trip_nested : (list 4294967295 (list 0 (uint 64))).Within 64 64 ∧
    read (list 4294967295 (list 0 (uint 64))).text = .ok (list 4294967295 (list 0 (uint 64))) :=
  ⟨by decide, (text_round_trip _).1 (by decide)⟩

end Ty

end ActorNet
