import ActorNet.Json.Decode
import ActorNet.Json.Reader
import Mathlib.Tactic.Lemma

/-!
# Text can be read again

Reading the compact or the indented text of a value gives the value back, if its integers fit 64
bits and it is not nested too deeply (`Json.parse?_compact`, `Json.parse?_pretty`). Both texts are
spellings of the value that differ in where blanks stand (`Layout`), and the reader is followed
along a spelling: every lemma says what it makes of one part and of whatever comes after it, as long
as that cannot go on with a number.

The budget of the reader is the length of the text that is left, which every nested call shortens.
-/

namespace ActorNet

open List
open List (append_assoc append_nil)

variable {c : Char} {n : Nat}

namespace Text

lemma isDigit_of_mem_toDigits (h : c ∈ Nat.toDigits 10 n) : isDigit c = true := by
  have hd : c.isDigit = true := Nat.isDigit_of_mem_toDigits (by decide) (by decide) h
  rw [Char.isDigit, Bool.and_eq_true, decide_eq_true_eq, decide_eq_true_eq] at hd
  rw [isDigit, Bool.and_eq_true, decide_eq_true_eq, decide_eq_true_eq]
  exact hd

/-- A numeral starts with a digit. -/
lemma exists_toDigits_eq_cons (n : Nat) : ∃ d ds, Nat.toDigits 10 n = d :: ds ∧ isDigit d = true := by
  obtain ⟨d, ds, hdigits⟩ := exists_cons_of_ne_nil (Nat.toDigits_ne_nil (n := n) (b := 10))
  exact ⟨d, ds, hdigits, isDigit_of_mem_toDigits (hdigits ▸ mem_cons_self)⟩

@[simp] lemma digitsValue_toDigits (n : Nat) : digitsValue (Nat.toDigits 10 n) = n :=
  Nat.ofDigitChars_ten_toDigits

lemma head?_toDigits_ne (hn : 0 < n) : (Nat.toDigits 10 n).head? ≠ some '0' := by
  induction n using Nat.strongRecOn with
  | ind n ih =>
    rw [Nat.toDigits_eq_if (by decide)]
    split
    · simp only [head?_cons, ne_eq, Option.some.injEq, Nat.digitChar_eq_zero]
      omega
    · rename_i hten
      have hrec := ih (n / 10) (by omega) (by omega)
      obtain ⟨d, ds, hdigits, _⟩ := exists_toDigits_eq_cons (n / 10)
      rw [hdigits] at hrec ⊢
      exact hrec

lemma takeWhile_append_of_stop {p : Char → Bool} {word rest : List Char} (hword : ∀ d ∈ word, p d = true)
    (hrest : ∀ d ∈ rest.head?, p d = false) : (word ++ rest).takeWhile p = word := by
  rw [takeWhile_append_of_pos hword]
  cases rest with
  | nil => simp
  | cons d rest => rw [takeWhile_cons_of_neg (by rw [hrest d rfl]; decide), append_nil]

end Text

namespace Json

open Text

variable {rest rest' cs cs' : List Char} {L : Layout} {budget depth : Nat}

/-! ## What may follow a value -/

/-- What follows cannot go on with a number. -/
def Closed (rest : List Char) : Prop :=
  ∀ c ∈ rest.head?, isDigit c = false ∧ c ≠ '.' ∧ c ≠ 'e' ∧ c ≠ 'E'

lemma closed_cons (rest : List Char)
    (h : isDigit c = false ∧ c ≠ '.' ∧ c ≠ 'e' ∧ c ≠ 'E' := by decide) : Closed (c :: rest) := by
  intro c' hc
  cases hc
  exact h

variable {blanks : List Char}

lemma closed_blanks (hblanks : ∀ c ∈ blanks, isSpace c = true) (h : Closed rest) :
    Closed (blanks ++ rest) := by
  cases blanks with
  | nil => exact h
  | cons c blanks =>
    refine closed_cons _ ?_
    have hc := hblanks c mem_cons_self
    simp only [isSpace, Bool.or_eq_true, decide_eq_true_eq] at hc
    rcases hc with ((rfl | rfl) | rfl) | rfl <;> decide

lemma skipSpace_blanks (h : ∀ c ∈ blanks, isSpace c = true) (cs : List Char) :
    skipSpace (blanks ++ cs) = skipSpace cs :=
  dropWhile_append_of_pos h

lemma skipSpace_cons (cs : List Char) (h : isSpace c = false := by decide) : skipSpace (c :: cs) = c :: cs :=
  dropWhile_cons_of_neg (by rw [h]; decide)

/-! ## Numbers -/

lemma takeWhile_toDigits (n : Nat) (h : Closed rest) :
    (Nat.toDigits 10 n ++ rest).takeWhile isDigit = Nat.toDigits 10 n :=
  takeWhile_append_of_stop (fun _ => isDigit_of_mem_toDigits) fun c hc => (h c hc).1

lemma dropWhile_toDigits (n : Nat) (h : Closed rest) : (Nat.toDigits 10 n ++ rest).dropWhile isDigit = rest := by
  rw [dropWhile_append_of_pos fun c hc => isDigit_of_mem_toDigits hc]
  cases rest with
  | nil => rfl
  | cons c rest => rw [dropWhile_cons_of_neg (by rw [(h _ rfl).1]; decide)]

lemma digitRun?_toDigits (n : Nat) (h : Closed rest) :
    digitRun? (Nat.toDigits 10 n ++ rest) = some (Nat.toDigits 10 n, rest) := by
  have hne : (Nat.toDigits 10 n).isEmpty = false := by
    rw [isEmpty_eq_false_iff]
    exact Nat.toDigits_ne_nil
  simp only [digitRun?, takeWhile_toDigits n h, dropWhile_toDigits n h, hne, Bool.false_eq_true, if_false]

lemma wholeDigits?_toDigits (n : Nat) (h : Closed rest) :
    wholeDigits? (Nat.toDigits 10 n ++ rest) = some (Nat.toDigits 10 n, rest) := by
  rcases Nat.eq_zero_or_pos n with rfl | hn
  · cases rest with
    | nil => rfl
    | cons c rest =>
      have hc : isDigit c = false := (h _ rfl).1
      simp [wholeDigits?, hc]
  · rw [← digitRun?_toDigits n h]
    have hhead := head?_toDigits_ne hn
    obtain ⟨d, ds, hdigits, _⟩ := exists_toDigits_eq_cons n
    rw [hdigits, head?_cons, ne_eq, Option.some.injEq] at hhead
    rw [hdigits, cons_append, wholeDigits?]
    exact fun _ heq => hhead (List.cons.inj heq).1

lemma fraction?_closed (h : Closed rest) : fraction? rest = some ([], rest) := by
  rw [fraction?]
  rintro rest' rfl
  exact (h '.' rfl).2.1 rfl

lemma exponent?_closed (h : Closed rest) : exponent? rest = some (none, rest) := by
  rw [exponent?]
  · rintro rest' rfl
    exact (h 'e' rfl).2.2.1 rfl
  · rintro rest' rfl
    exact (h 'E' rfl).2.2.2 rfl

lemma number?_natural (hn : n ≤ word64Max) (h : Closed rest) :
    number? (Nat.toDigits 10 n ++ rest) = some (.int n, rest) := by
  -- the sign is looked for by a pattern, which the first digit does not match
  have hsign : ∀ cs, Nat.toDigits 10 n ++ rest = '-' :: cs → False := by
    intro cs heq
    obtain ⟨d, ds, hdigits, hd⟩ := exists_toDigits_eq_cons n
    rw [hdigits] at heq
    rw [(List.cons.inj heq).1] at hd
    exact absurd hd (by decide)
  simp only [number?, wholeDigits?_toDigits n h, fraction?_closed h, exponent?_closed h, bind, pure,
    Option.bind_some]
  simp [numberOf, hn]

lemma number?_negative (hpos : 0 < n) (hn : n ≤ int64Max + 1) (h : Closed rest) :
    number? ('-' :: (Nat.toDigits 10 n ++ rest)) = some (.int (-n), rest) := by
  simp only [number?, wholeDigits?_toDigits n h, fraction?_closed h, exponent?_closed h, bind, pure, Option.bind_some]
  simp [numberOf, hpos, hn]

/-! ## Strings -/

lemma hexValue?_hexDigit : ∀ n < 16, hexValue? (hexDigit n) = some n := by
  decide

lemma stringUnits?_escapeChar (seen : List Nat) (c : Char) (cs : List Char) :
    stringUnits? seen (escapeChar c ++ cs) = stringUnits? (c.toNat :: seen) cs := by
  unfold escapeChar
  split
  iterate 7 · rfl
  rename_i hquote hslash _ _ _ _ _
  split
  · rename_i hctrl
    have hhigh : hexValue? (hexDigit (c.toNat / 16)) = some (c.toNat / 16) := hexValue?_hexDigit _ (by omega)
    have hlow : hexValue? (hexDigit (c.toNat % 16)) = some (c.toNat % 16) := hexValue?_hexDigit _ (by omega)
    have hzero : hexValue? '0' = some 0 := by decide
    have hunit : hexUnit? '0' '0' (hexDigit (c.toNat / 16)) (hexDigit (c.toNat % 16)) = some c.toNat := by
      simp only [hexUnit?, hzero, hhigh, hlow, bind, pure, Option.bind_some, Option.some.injEq]
      omega
    simp only [cons_append, nil_append, stringUnits?, hunit]
  · rename_i hplain
    rw [singleton_append, stringUnits?.eq_def]
    split
    · rename_i heq
      cases heq
    · rename_i heq
      exact absurd (List.cons.inj heq).1 hquote
    · rename_i heq
      exact absurd (List.cons.inj heq).1 hslash
    · rename_i heq
      exact absurd (List.cons.inj heq).1 hslash
    · rename_i heq
      obtain ⟨rfl, rfl⟩ := List.cons.inj heq
      rw [if_neg hplain]

lemma stringUnits?_escaped (s : List Char) (seen : List Nat) (rest : List Char) :
    stringUnits? seen (s.flatMap escapeChar ++ '"' :: rest) = some ((s.map Char.toNat).reverse ++ seen, rest) := by
  induction s generalizing seen with
  | nil => rfl
  | cons c s ih =>
    rw [flatMap_cons, append_assoc, stringUnits?_escapeChar, ih]
    simp

lemma not_half (c : Char) : isLowHalf c.toNat = false ∧ isHighHalf c.toNat = false := by
  have hvalid : c.toNat < 0xd800 ∨ 0xdfff < c.toNat ∧ c.toNat < 0x110000 := c.valid
  rw [isLowHalf, isHighHalf]
  simp only [Bool.and_eq_false_iff, decide_eq_false_iff_not]
  omega

lemma joinUnits?_chars (s tail : List Char) : joinUnits? tail (s.map Char.toNat) = some (s.reverse ++ tail) := by
  induction s generalizing tail with
  | nil => rfl
  | cons c s ih =>
    obtain ⟨hlow, hhigh⟩ := not_half c
    cases s with
    | nil => simp [joinUnits?, hlow, hhigh]
    | cons d s =>
      rw [map_cons, map_cons, joinUnits?, hlow, hhigh, if_neg (by decide), if_neg (by decide),
        ← map_cons, ih, Char.ofNat_toNat]
      simp

lemma string?_escaped (s : String) (rest : List Char) :
    string? (s.toList.flatMap escapeChar ++ '"' :: rest) = some (some s, rest) := by
  have hjoin : joinUnits? [] (s.toList.map Char.toNat).reverse = some s.toList := by
    rw [← map_reverse, joinUnits?_chars, reverse_reverse, append_nil]
  simp only [string?, stringUnits?_escaped, append_nil, bind, pure, Option.bind_some, hjoin,
    Option.map_some, String.ofList_toList]

lemma toList_quoted (s : String) : (quoted s).toList = '"' :: (s.toList.flatMap escapeChar ++ ['"']) := by
  rw [quoted, String.toList_ofList]

/-! ## Values -/

mutual

/-- The value has integers of 64 bits and no other numbers, and can be read everywhere. -/
def Plain : Json → Prop
  | .int n => -(int64Max + 1 : Nat) ≤ n ∧ n ≤ word64Max
  | .real _ | .unreadable => False
  | .arr elems => PlainElems elems
  | .obj fields => PlainFields fields
  | _ => True

def PlainElems : List Json → Prop
  | [] => True
  | j :: rest => j.Plain ∧ PlainElems rest

def PlainFields : List (String × Json) → Prop
  | [] => True
  | (_, j) :: rest => j.Plain ∧ PlainFields rest

end

lemma isSpace_of_isDigit (h : isDigit c = true) : isSpace c = false := by
  rw [isDigit, Bool.and_eq_true, decide_eq_true_eq, decide_eq_true_eq] at h
  rw [isSpace]
  simp only [Bool.or_eq_false_iff, decide_eq_false_iff_not]
  refine ⟨⟨⟨?_, ?_⟩, ?_⟩, ?_⟩ <;> rintro rfl <;> exact absurd h (by decide)

def Starts (cs : List Char) : Prop :=
  ∃ c rest, cs = c :: rest ∧ isSpace c = false ∧ c ≠ ']'

lemma Starts.skipSpace (h : Starts cs) (rest : List Char) : skipSpace (cs ++ rest) = cs ++ rest := by
  obtain ⟨c, cs, rfl, hc, -⟩ := h
  exact skipSpace_cons _ hc

lemma Starts.head_ne (h : Starts cs) : cs ++ rest ≠ ']' :: cs' := by
  obtain ⟨c, cs, rfl, -, hc⟩ := h
  exact fun heq => hc (List.cons.inj heq).1

lemma starts_toDigits (n : Nat) : Starts (Nat.toDigits 10 n) := by
  obtain ⟨d, ds, hdigits, hd⟩ := exists_toDigits_eq_cons n
  refine ⟨d, ds, hdigits, isSpace_of_isDigit hd, ?_⟩
  rintro rfl
  exact absurd hd (by decide)

/-! ## What the reader does at the first character of a value -/

section Dispatch

-- their equations are made here, once
attribute [local simp] value? elements? members?

lemma value?_string (h : skipSpace cs = '"' :: rest) :
    value? (budget + 1) depth cs = (string? rest).map fun (text, rest) => (match text with
      | some s => .str s
      | none => .unreadable, rest) := by
  rcases hs : string? rest with _ | ⟨_ | s, after⟩ <;> simp only [value?, h, hs, Option.map_none, Option.map_some]

lemma value?_number (h : skipSpace cs = c :: rest) (hc : isDigit c = true ∨ c = '-') :
    value? (budget + 1) depth cs = number? (c :: rest) := by
  rw [value?, h]
  split <;> first
    | rfl
    | rename_i heq
      obtain ⟨rfl, -⟩ := List.cons.inj heq
      exact absurd hc (by decide)

lemma value?_array (h : skipSpace cs = '[' :: rest) (hne : ∀ rest', skipSpace rest ≠ ']' :: rest') :
    value? (budget + 1) depth cs = (elements? budget (depth + 1) [] rest).map
      fun (elems, rest) => (arrayAt (depth + 1) elems, rest) := by
  simp only [value?, h]

lemma value?_object (h : skipSpace cs = '\x7b' :: rest) (hne : ∀ rest', skipSpace rest ≠ '\x7d' :: rest') :
    value? (budget + 1) depth cs =
      (members? budget (depth + 1) [] rest).map fun (fields, rest) => (objectAt (depth + 1) fields, rest) := by
  simp only [value?, h]

lemma elements?_more {j : Json} (seen : List Json) (hj : value? budget depth cs = some (j, rest))
    (hrest : skipSpace rest = ',' :: rest') :
    elements? (budget + 1) depth seen cs = elements? budget depth (j :: seen) rest' := by
  simp only [elements?, hj, hrest]

lemma elements?_last {j : Json} (seen : List Json) (hj : value? budget depth cs = some (j, rest))
    (hrest : skipSpace rest = ']' :: rest') :
    elements? (budget + 1) depth seen cs = some ((j :: seen).reverse, rest') := by
  simp only [elements?, hj, hrest]

section Members

variable {j : Json} {name : String} (seen : List (Option String × Json))
  (hcs : skipSpace cs = '"' :: (name.toList.flatMap escapeChar ++ '"' :: ':' :: cs'))
  (hj : value? budget depth cs' = some (j, rest))

include hcs hj

lemma members?_more (hrest : skipSpace rest = ',' :: rest') :
    members? (budget + 1) depth seen cs = members? budget depth ((some name, j) :: seen) rest' := by
  simp only [members?, hcs, string?_escaped, skipSpace_cons (c := ':') cs', hj, hrest]

lemma members?_last (hrest : skipSpace rest = '\x7d' :: rest') :
    members? (budget + 1) depth seen cs = some (((some name, j) :: seen).reverse, rest') := by
  simp only [members?, hcs, string?_escaped, skipSpace_cons (c := ':') cs', hj, hrest]

end Members

end Dispatch

/-! ## Spellings -/

/-- Where blanks stand in a text: in front of the elements and the closing bracket at a nesting
level, and after the name of a field. -/
structure Layout where
  line : Nat → List Char
  space : List Char
  blank_line : ∀ level, ∀ c ∈ line level, isSpace c = true
  blank_space : ∀ c ∈ space, isSpace c = true

/-- No blanks at all. -/
def Layout.compact : Layout where
  line _ := []
  space := []
  blank_line := by simp
  blank_space := by simp

def Layout.indented : Layout where
  line level := '\n' :: List.replicate (2 * level) ' '
  space := [' ']
  blank_line := by
    intro level c hc
    rw [mem_cons, mem_replicate] at hc
    rcases hc with rfl | ⟨-, rfl⟩ <;> decide
  blank_space := by
    intro c hc
    cases mem_singleton.mp hc
    decide

mutual

/-- The characters of a value that stands at a nesting level. -/
def spelled (L : Layout) (level : Nat) : Json → List Char
  | .arr [] => ['[', ']']
  | .arr (j :: rest) => '[' :: (spelledElems L (level + 1) (j :: rest) ++ (L.line level ++ [']']))
  | .obj [] => ['\x7b', '\x7d']
  | .obj (field :: rest) => '\x7b' :: (spelledFields L (level + 1) (field :: rest) ++ (L.line level ++ ['\x7d']))
  | .null => ['n', 'u', 'l', 'l']
  | .bool true => ['t', 'r', 'u', 'e']
  | .bool false => ['f', 'a', 'l', 's', 'e']
  | .int n => if 0 ≤ n then Nat.toDigits 10 n.toNat else '-' :: Nat.toDigits 10 (-n).toNat
  | .str s => '"' :: (s.toList.flatMap escapeChar ++ ['"'])
  | .real numeral => numeral.toList
  | .unreadable => ['n', 'u', 'l', 'l']

/-- The characters of elements with commas between them. -/
def spelledElems (L : Layout) (level : Nat) : List Json → List Char
  | [] => []
  | [j] => L.line level ++ j.spelled L level
  | j :: k :: rest => L.line level ++ (j.spelled L level ++ ',' :: spelledElems L level (k :: rest))

/-- The characters of fields with commas between them. -/
def spelledFields (L : Layout) (level : Nat) : List (String × Json) → List Char
  | [] => []
  | [(name, j)] => L.line level ++ ((quoted name).toList ++ ':' :: (L.space ++ j.spelled L level))
  | (name, j) :: next :: rest => L.line level ++
      ((quoted name).toList ++ ':' :: (L.space ++ (j.spelled L level ++ ',' :: spelledFields L level (next :: rest))))

end

lemma toList_scalarText (L : Layout) (level : Nat) (j : Json) (harr : ∀ elems, j ≠ .arr elems)
    (hobj : ∀ fields, j ≠ .obj fields) : j.scalarText.toList = j.spelled L level := by
  cases j with
  | null | real _ | unreadable => simp [scalarText, spelled]
  | bool b => cases b <;> simp [scalarText, spelled]
  | int n =>
    simp only [scalarText, spelled, Int.toString_eq_repr, Int.repr_eq_if]
    split
    · rw [Nat.toList_repr]
    · rw [String.toList_append, Nat.toList_repr]
      rfl
  | str s => rw [scalarText, spelled, toList_quoted]
  | arr elems => exact absurd rfl (harr elems)
  | obj fields => exact absurd rfl (hobj fields)

mutual

lemma toList_compact (level : Nat) : (j : Json) → j.compact.toList = j.spelled .compact level
  | .arr [] => by simp [compact, compactElems, spelled]
  | .arr (j :: rest) => by simp [compact, spelled, toList_compactElems (level + 1) (j :: rest), Layout.compact]
  | .obj [] => by simp [compact, compactFields, spelled]
  | .obj (field :: rest) => by simp [compact, spelled, toList_compactFields (level + 1) (field :: rest), Layout.compact]
  | .null | .bool _ | .int _ | .real _ | .str _ | .unreadable => by
    rw [compact, toList_scalarText .compact level] <;> simp

lemma toList_compactElems (level : Nat) : (elems : List Json) →
    (compactElems elems).toList = spelledElems .compact level elems
  | [] => rfl
  | [j] => by simp [compactElems, spelledElems, toList_compact level j, Layout.compact]
  | j :: k :: rest => by
    simp [compactElems, spelledElems, toList_compact level j, toList_compactElems level (k :: rest), Layout.compact]

lemma toList_compactFields (level : Nat) : (fields : List (String × Json)) →
    (compactFields fields).toList = spelledFields .compact level fields
  | [] => rfl
  | [(name, j)] => by simp [compactFields, spelledFields, toList_compact level j, Layout.compact]
  | (name, j) :: next :: rest => by
    simp [compactFields, spelledFields, toList_compact level j,
      toList_compactFields level (next :: rest), Layout.compact]

end

mutual

lemma toList_prettyAt (level : Nat) : (j : Json) → (j.prettyAt level).toList = j.spelled .indented level
  | .arr [] | .obj [] => by simp [prettyAt, spelled]
  | .arr (j :: rest) => by
    simp [prettyAt, spelled, toList_prettyElems (level + 1) (j :: rest), Layout.indented, breakLine]
  | .obj (field :: rest) => by
    simp [prettyAt, spelled, toList_prettyFields (level + 1) (field :: rest), Layout.indented, breakLine]
  | .null | .bool _ | .int _ | .real _ | .str _ | .unreadable => by
    rw [prettyAt, toList_scalarText .indented level] <;> simp

lemma toList_prettyElems (level : Nat) : (elems : List Json) →
    (prettyElems level elems).toList = spelledElems .indented level elems
  | [] => rfl
  | [j] => by simp [prettyElems, spelledElems, toList_prettyAt level j, Layout.indented, breakLine]
  | j :: k :: rest => by
    simp [prettyElems, spelledElems, toList_prettyAt level j, toList_prettyElems level (k :: rest),
      Layout.indented, breakLine]

lemma toList_prettyFields (level : Nat) : (fields : List (String × Json)) →
    (prettyFields level fields).toList = spelledFields .indented level fields
  | [] => rfl
  | [(name, j)] => by simp [prettyFields, spelledFields, toList_prettyAt level j, Layout.indented, breakLine]
  | (name, j) :: next :: rest => by
    simp [prettyFields, spelledFields, toList_prettyAt level j,
      toList_prettyFields level (next :: rest), Layout.indented, breakLine]

end

lemma Plain.starts {j : Json} (h : j.Plain) (level : Nat) : Starts (j.spelled L level) := by
  cases j with
  | null => exact ⟨'n', _, rfl, by decide, by decide⟩
  | bool b =>
    cases b
    · exact ⟨'f', _, rfl, by decide, by decide⟩
    · exact ⟨'t', _, rfl, by decide, by decide⟩
  | int n =>
    rw [spelled]
    split
    · exact starts_toDigits _
    · exact ⟨'-', _, rfl, by decide, by decide⟩
  | real _ => exact h.elim
  | str s => exact ⟨'"', _, rfl, by decide, by decide⟩
  | arr elems => cases elems <;> exact ⟨'[', _, rfl, by decide, by decide⟩
  | obj fields => cases fields <;> exact ⟨'\x7b', _, rfl, by decide, by decide⟩
  | unreadable => exact h.elim

/-! ## Reading spellings -/

/-- The reader takes the name of a field off a text. -/
lemma skipSpace_field (L : Layout) (level : Nat) (name : String) (cs : List Char) :
    skipSpace (L.line level ++ ((quoted name).toList ++ ':' :: cs)) =
      '"' :: (name.toList.flatMap escapeChar ++ '"' :: ':' :: cs) := by
  rw [skipSpace_blanks (L.blank_line level), toList_quoted, cons_append, skipSpace_cons,
    append_assoc, singleton_append]

lemma mapM_named (fields : List (String × Json)) : (fields.map fun field => (some field.1, field.2)).mapM
      (fun (name, value) => name.map (·, value) : Option String × Json → Option (String × Json)) = some fields := by
  induction fields with
  | nil => rfl
  | cons field rest ih => simp [mapM_cons, ih]

lemma value?_int {n : Int} (h : (Json.int n).Plain) {level budget depth : Nat}
    (hcs : skipSpace cs = (Json.int n).spelled L level ++ rest) (hrest : Closed rest) :
    value? (budget + 1) depth cs = some (.int n, rest) := by
  rw [spelled] at hcs
  obtain ⟨hlow, hhigh⟩ := h
  by_cases hn : 0 ≤ n
  · rw [if_pos hn] at hcs
    have hnumber := number?_natural (n := n.toNat) (by omega) hrest
    obtain ⟨d, ds, hdigits, hd⟩ := exists_toDigits_eq_cons n.toNat
    rw [hdigits, cons_append] at hcs hnumber
    rw [value?_number hcs (.inl hd), hnumber, Int.toNat_of_nonneg hn]
  · rw [if_neg hn, cons_append] at hcs
    rw [value?_number hcs (.inr rfl), number?_negative (by omega) (by omega) hrest,
      Int.toNat_of_nonneg (by omega), Int.neg_neg]

/-- Wherever a spelling of a value stands, the reader reads the value, given a budget of its
length. -/
def Reads (L : Layout) (j : Json) : Prop :=
  ∀ ⦃level budget depth : Nat⦄ ⦃cs rest : List Char⦄, skipSpace cs = j.spelled L level ++ rest →
    (j.spelled L level).length ≤ budget → depth + j.height ≤ maxDepth → Closed rest →
    value? budget depth cs = some (j, rest)

/-- The text of a value is not empty, so the reader has a budget for it. -/
lemma Plain.reads_of_succ {j : Json} (h : j.Plain)
    (hj : ∀ ⦃level budget depth : Nat⦄ ⦃cs rest : List Char⦄, skipSpace cs = j.spelled L level ++ rest →
      (j.spelled L level).length ≤ budget + 1 → depth + j.height ≤ maxDepth → Closed rest →
      value? (budget + 1) depth cs = some (j, rest)) : j.Reads L := by
  intro level budget depth cs rest hcs hbudget hdepth hrest
  cases budget with
  | zero =>
    obtain ⟨c, cs, heq, -⟩ := h.starts (L := L) level
    rw [heq] at hbudget
    cases hbudget
  | succ budget => exact hj hcs hbudget hdepth hrest

/-- The first element of a list, behind its blanks. -/
lemma Reads.element {j : Json} (h : j.Reads L) (hplain : j.Plain)
    (hblanks : ∀ c ∈ blanks, isSpace c = true) (level budget depth : Nat)
    (hbudget : (j.spelled L level).length ≤ budget) (hdepth : depth + j.height ≤ maxDepth) (hrest : Closed rest) :
    value? budget depth (blanks ++ (j.spelled L level ++ rest)) = some (j, rest) :=
  h (by rw [skipSpace_blanks hblanks, (hplain.starts level).skipSpace]) hbudget hdepth hrest

lemma Layout.closes (L : Layout) (level : Nat) (rest : List Char) (hc : c = ']' ∨ c = '\x7d') :
    Closed (L.line level ++ c :: rest) ∧ skipSpace (L.line level ++ c :: rest) = c :: rest := by
  rw [skipSpace_blanks (L.blank_line level)]
  rcases hc with rfl | rfl <;> exact ⟨closed_blanks (L.blank_line level) (closed_cons _), skipSpace_cons _⟩

variable {elems : List Json}

lemma elements?_of_reads {j : Json} (hplain : PlainElems (j :: elems))
    (h : ∀ k ∈ j :: elems, k.Reads L) {level budget depth : Nat} (seen : List Json) (close : Nat)
    (rest : List Char) (hbudget : (spelledElems L level (j :: elems)).length < budget)
    (hdepth : depth + elemsHeight (j :: elems) ≤ maxDepth) : elements? budget depth seen
    (spelledElems L level (j :: elems) ++ (L.line close ++ ']' :: rest)) =
      some (seen.reverse ++ j :: elems, rest) := by
  induction elems generalizing j seen budget with
  | nil =>
    obtain _ | budget := budget
    · omega
    rw [elemsHeight] at hdepth
    rw [spelledElems, length_append] at hbudget
    obtain ⟨hclosed, hskip⟩ := L.closes close rest (.inl rfl)
    have hj := (h j mem_cons_self).element hplain.1 (L.blank_line level) level budget depth (by omega) (by omega) hclosed
    rw [spelledElems, append_assoc, elements?_last seen hj hskip, reverse_cons]
  | cons k more ih =>
    obtain _ | budget := budget
    · omega
    rw [elemsHeight] at hdepth
    rw [spelledElems, length_append, length_append, length_cons] at hbudget
    have hj := (h j mem_cons_self).element hplain.1 (L.blank_line level) level budget depth (by omega) (by omega)
      (closed_cons (c := ',') (spelledElems L level (k :: more) ++ (L.line close ++ ']' :: rest)))
    rw [spelledElems, append_assoc, append_assoc, cons_append, elements?_more seen hj (skipSpace_cons _),
      ih hplain.2 (fun k' hk' => h k' (mem_cons_of_mem _ hk')) (j :: seen) (by omega) (by omega)]
    simp

variable {fields : List (String × Json)}

lemma members?_of_reads {name : String} {j : Json} (hplain : PlainFields ((name, j) :: fields))
    (h : ∀ field ∈ (name, j) :: fields, field.2.Reads L)
    {level budget depth : Nat} (seen : List (Option String × Json)) (close : Nat) (rest : List Char)
    (hbudget : (spelledFields L level ((name, j) :: fields)).length < budget)
    (hdepth : depth + fieldsHeight ((name, j) :: fields) ≤ maxDepth) : members? budget depth seen
    (spelledFields L level ((name, j) :: fields) ++ (L.line close ++ '\x7d' :: rest)) = some
      (seen.reverse ++ ((name, j) :: fields).map fun field => (some field.1, field.2), rest) := by
  induction fields generalizing name j seen budget with
  | nil =>
    obtain _ | budget := budget
    · omega
    rw [fieldsHeight] at hdepth
    rw [spelledFields] at hbudget
    simp only [length_append, length_cons] at hbudget
    obtain ⟨hclosed, hskip⟩ := L.closes close rest (.inr rfl)
    have hread : j.Reads L := h (name, j) mem_cons_self
    have hj := hread.element hplain.1 L.blank_space level budget depth (by omega) (by omega) hclosed
    rw [spelledFields, append_assoc, append_assoc, cons_append, append_assoc,
      members?_last seen (skipSpace_field L level name _) hj hskip, reverse_cons]
    rfl
  | cons next more ih =>
    obtain _ | budget := budget
    · omega
    obtain ⟨nextName, k⟩ := next
    rw [fieldsHeight] at hdepth
    rw [spelledFields] at hbudget
    simp only [length_append, length_cons] at hbudget
    have hread : j.Reads L := h (name, j) mem_cons_self
    have hj := hread.element hplain.1 L.blank_space level budget depth (by omega) (by omega)
      (closed_cons (c := ',') (spelledFields L level ((nextName, k) :: more) ++ (L.line close ++ '\x7d' :: rest)))
    rw [spelledFields, append_assoc, append_assoc, cons_append, append_assoc, append_assoc,
      cons_append, members?_more seen (skipSpace_field L level name _) hj (skipSpace_cons _),
      ih hplain.2 (fun field hfield => h field (mem_cons_of_mem _ hfield)) ((some name, j) :: seen) (by omega)
        (by omega)]
    simp

lemma reads_arr (hplain : PlainElems elems) (h : ∀ k ∈ elems, k.Reads L) : (arr elems).Reads L := by
  have harr : (arr elems).Plain := hplain
  refine harr.reads_of_succ fun level budget depth cs rest hcs hbudget hdepth _ => ?_
  rw [height] at hdepth
  have hwithin : depth + 1 ≤ maxDepth := by omega
  rcases elems with _ | ⟨j, elems⟩
  · rw [spelled] at hcs
    simp [value?, hcs, skipSpace_cons (c := ']') rest, arrayAt, hwithin]
  · have hstart := hplain.1.starts (L := L) (level + 1)
    rw [spelled, cons_append, append_assoc, append_assoc, singleton_append] at hcs
    rw [spelled, length_cons, length_append, length_append, length_singleton] at hbudget
    have hne : ∀ rest', skipSpace (spelledElems L (level + 1) (j :: elems) ++ (L.line level ++ ']' :: rest)) ≠
        ']' :: rest' := by
      intro rest' heq
      cases elems <;> rw [spelledElems, append_assoc, skipSpace_blanks (L.blank_line _)] at heq
      · rw [hstart.skipSpace] at heq
        exact hstart.head_ne heq
      · rw [append_assoc, hstart.skipSpace] at heq
        exact hstart.head_ne heq
    rw [value?_array hcs hne, elements?_of_reads hplain h [] level rest (by omega) (by omega)]
    simp [arrayAt, hwithin]

lemma reads_obj (hplain : PlainFields fields)
    (h : ∀ field ∈ fields, field.2.Reads L) : (obj fields).Reads L := by
  have hobj : (obj fields).Plain := hplain
  refine hobj.reads_of_succ fun level budget depth cs rest hcs hbudget hdepth _ => ?_
  rw [height] at hdepth
  have hwithin : depth + 1 ≤ maxDepth := by omega
  rcases fields with _ | ⟨⟨name, j⟩, fields⟩
  · rw [spelled] at hcs
    simp [value?, hcs, skipSpace_cons (c := '\x7d') rest, objectAt, hwithin]
  · rw [spelled, cons_append, append_assoc, append_assoc, singleton_append] at hcs
    rw [spelled, length_cons, length_append, length_append, length_singleton] at hbudget
    have hne : ∀ rest', skipSpace (spelledFields L (level + 1) ((name, j) :: fields) ++
        (L.line level ++ '\x7d' :: rest)) ≠ '\x7d' :: rest' := by
      intro rest' heq
      cases fields <;>
        rw [spelledFields, append_assoc, append_assoc, cons_append, skipSpace_field] at heq <;>
        exact absurd (List.cons.inj heq).1 (by decide)
    rw [value?_object hcs hne, members?_of_reads hplain h [] level rest (by omega) (by omega)]
    simp only [Option.map_some, objectAt, if_pos hwithin, reverse_nil, nil_append, mapM_named]

mutual

lemma Plain.reads : (j : Json) → j.Plain → j.Reads L
  | .null, h | .bool true, h | .bool false, h => Plain.reads_of_succ h fun _ _ _ _ _ hcs _ _ _ => by
    rw [spelled] at hcs
    simp [value?, hcs, dropWord?]
  | .int n, h => Plain.reads_of_succ h fun _ _ _ _ _ hcs _ _ hrest => value?_int h hcs hrest
  | .str s, h => Plain.reads_of_succ h fun _ _ _ _ _ hcs _ _ _ => by
    rw [spelled, cons_append, append_assoc, singleton_append] at hcs
    rw [value?_string hcs, string?_escaped]
    rfl
  | .arr elems, h => reads_arr h (Plain.readsElems elems h)
  | .obj fields, h => reads_obj h (Plain.readsFields fields h)
  | .real _, h => h.elim
  | .unreadable, h => h.elim

lemma Plain.readsElems : (elems : List Json) → PlainElems elems → ∀ k ∈ elems, k.Reads L
  | [], _ => forall_mem_nil _
  | j :: rest, h => forall_mem_cons.mpr ⟨Plain.reads j h.1, Plain.readsElems rest h.2⟩

lemma Plain.readsFields : (fields : List (String × Json)) → PlainFields fields → ∀ field ∈ fields, field.2.Reads L
  | [], _ => forall_mem_nil _
  | (_, j) :: rest, h => forall_mem_cons.mpr ⟨Plain.reads j h.1, Plain.readsFields rest h.2⟩

end

lemma parse?_spelled {j : Json} (h : j.Plain) (hdepth : j.height ≤ maxDepth) (L : Layout)
    {text : String} (htext : text.toList = j.spelled L 0) : parse? text = some j := by
  have hread : value? (text.length + 1) 0 text.toList = some (j, []) := by
    have hskip : skipSpace text.toList = j.spelled L 0 ++ [] := by rw [htext, ← (h.starts 0).skipSpace [], append_nil]
    refine Plain.reads j h hskip ?_ (by omega) nofun
    rw [← htext, String.length_toList]
    exact Nat.le_succ _
  rw [parse?, hread]
  rfl

lemma parse?_compact {j : Json} (h : j.Plain) (hdepth : j.height ≤ maxDepth) : parse? j.compact = some j :=
  parse?_spelled h hdepth .compact (toList_compact 0 j)

lemma parse?_pretty {j : Json} (h : j.Plain) (hdepth : j.height ≤ maxDepth) : parse? j.pretty = some j :=
  parse?_spelled h hdepth .indented (toList_prettyAt 0 j)

end Json

end ActorNet
