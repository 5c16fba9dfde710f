import ActorNet.Proofs.Documents.Text
import ActorNet.Proofs.Network.Lexing

/-!
# Cutting a spelled text

Every token has a canonical spelling. Cutting a text that spells tokens one after the other, with
blanks and comments between them, gives these tokens back and no error (`lex_spelled`). What follows
a token is the end of the text, a blank or a comment, and none of them goes on with a number or a
word (`Divided`).
-/

namespace ActorNet

open List Lexer Text

/-! ## Spellings -/

def Lexer.escape (c : Char) : List Char :=
  if c = '"' ∨ c = '\\' then ['\\', c] else [c]

/-- The canonical spelling: integers in decimal, strings in quotes with quotes and backslashes
escaped. -/
def Token.spelling : Token → List Char
  | str s => '"' :: (s.toList.flatMap escape ++ ['"'])
  | ident name => name.toList
  | t => t.text.toList

/-- Identifiers are words other than the keywords. -/
def Token.Spellable : Token → Prop
  | ident name => name ∉ ["network", "instance", "true", "false"] ∧
      ∃ c word, name.toList = c :: word ∧ isWordStart c = true ∧ ∀ d ∈ word, isWordChar d = true
  | _ => True

namespace Lexer

/-- A run of blanks and of comments that end with their line. -/
inductive Gap : List Char → Prop where
  | nil : Gap []
  | blank {c : Char} {gap : List Char} (hc : isSpace c = true) (rest : Gap gap) : Gap (c :: gap)
  | comment {body gap : List Char} (hbody : '\n' ∉ body) (rest : Gap gap) : Gap ('/' :: '/' :: (body ++ '\n' :: gap))

/-- What a token can be followed by without going on. -/
def Divided (rest : List Char) : Prop :=
  ∀ c ∈ rest.head?, isWordChar c = false

variable {c : Char} {cs word gap rest digits : List Char} {t : Token} {ts : List Token}

lemma Gap.divided (h : Gap gap) (hne : gap ≠ []) (rest : List Char) : Divided (gap ++ rest) := by
  rintro c hc
  cases h with
  | nil => exact absurd rfl hne
  | @blank c _ hspace =>
    cases hc
    simp only [isSpace, Bool.or_eq_true, decide_eq_true_eq] at hspace
    rcases hspace with ((rfl | rfl) | rfl) | rfl <;> decide
  | comment =>
    cases hc
    decide

/-! ## One piece -/

/-- What starts a word or a number is no blank, and starts neither a comment nor a sign. -/
lemma starts_of_class {p : Char → Bool} (hc : p c = true)
    (hp : [' ', '\t', '\r', '\n', '/', '-'].any p = false := by decide) : isSpace c = false ∧ c ≠ '/' ∧ c ≠ '-' := by
  have hne : ∀ d ∈ [' ', '\t', '\r', '\n', '/', '-'], c ≠ d := by
    rintro d hd rfl
    exact any_eq_false.mp hp c hd hc
  simp_all [isSpace]

lemma front_word (hstart : isWordStart c = true) (hword : ∀ d ∈ word, isWordChar d = true) (hrest : Divided rest) :
    front c (word ++ rest) = (.token (.ofWord (String.ofList (c :: word))), word.length) := by
  have hdigit : isDigit c = false := by
    by_contra hdigit
    simp only [isDigit, Bool.not_eq_false, Bool.and_eq_true, decide_eq_true_eq] at hdigit
    simp only [isWordStart, Bool.or_eq_true, Bool.and_eq_true, decide_eq_true_eq] at hstart
    rcases hstart with (⟨hlow, -⟩ | ⟨hlow, -⟩) | rfl
    · exact absurd (Char.le_trans hlow hdigit.2) (by decide)
    · exact absurd (Char.le_trans hlow hdigit.2) (by decide)
    · exact absurd hdigit (by decide)
  simp [front, starts_of_class hstart, hdigit, hstart, takeWhile_append_of_stop hword hrest]

lemma Divided.isDigit (h : Divided rest) : ∀ c ∈ rest.head?, isDigit c = false :=
  fun c hc => (Bool.or_eq_false_iff.mp (h c hc)).2

lemma front_minus (hne : digits ≠ []) (hdigits : ∀ d ∈ digits, isDigit d = true) (hrest : Divided rest) :
    front '-' (digits ++ rest) = (.ofOption ((int? true digits).map .int), digits.length) := by
  obtain ⟨d, ds, rfl⟩ := exists_cons_of_ne_nil hne
  have hgreater : d ≠ '>' := by rintro rfl; exact absurd (hdigits _ mem_cons_self) (by decide)
  have htake := takeWhile_append_of_stop hdigits hrest.isDigit
  rw [cons_append] at htake ⊢
  simp [front, isSpace, hgreater, htake]

lemma front_digits (hdigits : ∀ d ∈ c :: digits, isDigit d = true) (hrest : Divided rest) : front c
    (digits ++ rest) = (.ofOption ((int? false (c :: digits)).map .int), digits.length) := by
  have hc := hdigits c mem_cons_self
  simp [front, starts_of_class hc, hc,
    takeWhile_append_of_stop (fun d hd => hdigits d (mem_cons_of_mem c hd)) hrest.isDigit]

lemma stringExtent_escaped (s rest : List Char) :
    stringExtent (s.flatMap escape ++ '"' :: rest) = ((s.flatMap escape).length + 1, true) := by
  induction s with
  | nil => rfl
  | cons c s ih =>
    by_cases hc : c = '"' ∨ c = '\\'
    · rcases hc with rfl | rfl <;> simp [escape, stringExtent, ih]
    · have hquote := not_or.mp hc
      simp [escape, stringExtent, hquote, ih]

lemma unescape?_escaped (s : List Char) : unescape? (s.flatMap escape) = some s := by
  induction s with
  | nil => rfl
  | cons c s ih =>
    by_cases hc : c = '"' ∨ c = '\\'
    · rcases hc with rfl | rfl <;> simp [escape, unescape?, ih]
    · have hquote := not_or.mp hc
      simp [escape, unescape?, hquote, ih]

/-- A spelled token is the piece at the front of the text, up to where it ends. -/
lemma front_spelling (ht : t.Spellable) (hrest : Divided rest) :
    ∃ c word, t.spelling = c :: word ∧ front c (word ++ rest) = (.token t, word.length) := by
  cases t with
  | int n =>
    have hlow := n.le_toInt
    have hhigh := n.toInt_lt
    have hmax : int64Max = 2 ^ 63 - 1 := rfl
    have hdigits (m : Nat) : ∀ d ∈ Nat.toDigits 10 m, isDigit d = true := fun d => isDigit_of_mem_toDigits
    simp only [Token.spelling, Token.text, Int.toString_eq_repr, Int.repr_eq_if]
    split
    · obtain ⟨c, word, hword, _⟩ := exists_toDigits_eq_cons n.toInt.toNat
      refine ⟨c, word, by rw [Nat.toList_repr, hword], ?_⟩
      rw [front_digits (by rw [← hword]; exact hdigits _) hrest, ← hword]
      have hint : int? false (Nat.toDigits 10 n.toInt.toNat) = some n := by
        simp only [int?, digitsValue_toDigits, Bool.false_eq_true, if_false]
        rw [if_pos (by omega), Int.toNat_of_nonneg ‹_›, Int64.ofInt_toInt]
      rw [hint]
      rfl
    · refine ⟨'-', Nat.toDigits 10 (-n.toInt).toNat, by rw [String.toList_append, Nat.toList_repr]; rfl, ?_⟩
      rw [front_minus Nat.toDigits_ne_nil (hdigits _) hrest]
      have hint : int? true (Nat.toDigits 10 (-n.toInt).toNat) = some n := by
        simp only [int?, digitsValue_toDigits, if_true]
        rw [if_pos (by omega), Int.toNat_of_nonneg (by omega), Int.neg_neg, Int64.ofInt_toInt]
      rw [hint]
      rfl
  | str s =>
    refine ⟨'"', _, rfl, ?_⟩
    rw [List.append_assoc, singleton_append]
    simp [front, isSpace, isDigit, isWordStart, stringExtent_escaped, unescape?_escaped, Piece.ofOption]
  | ident name =>
    obtain ⟨hkeyword, c, word, hname, hstart, hword⟩ := ht
    refine ⟨c, word, hname, ?_⟩
    rw [front_word hstart hword hrest, ← hname, String.ofList_toList]
    simp_all [Token.ofWord]
  | kwNetwork | kwInstance | kwTrue | kwFalse =>
    exact ⟨_, _, rfl, front_word (by decide) (all_eq_true.mp (by decide)) hrest⟩
  | arrow => exact ⟨'-', ['>'], rfl, rfl⟩
  | _ => exact ⟨_, [], rfl, rfl⟩

/-! ## All pieces -/

/-- Cutting the text gives the tokens and nothing else. -/
def Lexes (ts : List Token) (cs : List Char) : Prop :=
  ∀ offset, (lexemesFrom offset cs).map (·.1) = ts.map .token

lemma Lexes.token (h : Lexes ts rest) (hfront : front c (word ++ rest) = (.token t, word.length)) :
    Lexes (t :: ts) (c :: (word ++ rest)) := by
  intro offset
  simp [lexemesFrom, hfront, h _]

lemma Lexes.skip (h : Lexes ts rest) (hfront : front c (word ++ rest) = (.skip, word.length)) :
    Lexes ts (c :: (word ++ rest)) := by
  intro offset
  simp [lexemesFrom, hfront, h _]

lemma Lexes.after_gap (h : Lexes ts rest) (hgap : Gap gap) : Lexes ts (gap ++ rest) := by
  induction hgap with
  | nil => exact h
  | @blank c gap hc _ ih => exact ih.skip (show front c ([] ++ _) = (.skip, [].length) by simp [front, hc])
  | @comment body gap hbody _ ih =>
    have hnewline : Lexes ts ('\n' :: (gap ++ rest)) :=
      ih.skip (show front '\n' ([] ++ _) = (.skip, [].length) from rfl)
    have htake : ('/' :: body ++ '\n' :: (gap ++ rest)).takeWhile (· ≠ '\n') = '/' :: body := by
      refine takeWhile_append_of_stop (fun d hd => decide_eq_true ?_) (by simp)
      rintro rfl
      simp_all
    have hfront : front '/' ('/' :: body ++ '\n' :: (gap ++ rest)) = (.skip, ('/' :: body).length) :=
      congrArg (fun skipped => (Piece.skip, skipped.length)) htake
    simpa using hnewline.skip hfront

lemma lexes_spelled {items : List (Token × List Char)} (h : ∀ x ∈ items, x.1.Spellable ∧ Gap x.2)
    (hgaps : ∀ x ∈ items.dropLast, x.2 ≠ []) :
    Lexes (items.map (·.1)) (items.flatMap fun x => x.1.spelling ++ x.2) := by
  induction items with
  | nil => intro offset; simp [lexemesFrom]
  | cons x items ih =>
    obtain ⟨⟨hspell, hgap⟩, hrest⟩ := forall_mem_cons.mp h
    have htail : Lexes _ (x.2 ++ items.flatMap fun x => x.1.spelling ++ x.2) :=
      (ih hrest fun y hy => hgaps y (by cases items <;> simp_all)).after_gap hgap
    have hdivided : Divided (x.2 ++ items.flatMap fun x => x.1.spelling ++ x.2) := by
      cases items with
      | nil =>
        by_cases hne : x.2 = []
        · simp [hne, Divided]
        · exact hgap.divided hne _
      | cons y items => exact hgap.divided (hgaps x (by simp)) _
    obtain ⟨c, word, hword, hfront⟩ := front_spelling hspell hdivided
    simpa [hword] using htail.token hfront

lemma Lexes.lex {source : String} (h : Lexes ts source.toList) :
    (lex source).tokens.map (·.1) = ts ∧ (lex source).errors = [] := by
  have hlexemes := h 0
  simp only [ActorNet.lex]
  generalize lexemesFrom 0 source.toList = lexemes at hlexemes
  clear h
  induction lexemes generalizing ts with
  | nil => cases ts <;> simp_all
  | cons x lexemes ih =>
    obtain ⟨lexeme, span⟩ := x
    cases ts with
    | nil => cases hlexemes
    | cons t ts =>
      obtain ⟨rfl, htail⟩ := List.cons.inj hlexemes
      simpa using ih htail

end Lexer

/-- Tokens that are spelled one after the other, with blanks and comments between them, are found
again without errors. -/
theorem lex_spelled (source : String) (lead : List Char) (items : List (Token × List Char)) (hlead : Gap lead)
    (h : ∀ x ∈ items, x.1.Spellable ∧ Gap x.2) (hgaps : ∀ x ∈ items.dropLast, x.2 ≠ [])
    (hsource : source.toList = lead ++ items.flatMap fun x => x.1.spelling ++ x.2) :
    (lex source).tokens.map (·.1) = items.map (·.1) ∧ (lex source).errors = [] := by
  have hlexes : Lexes (items.map (·.1)) source.toList := hsource ▸ (lexes_spelled h hgaps).after_gap hlead
  exact hlexes.lex

theorem lex_spelled_extremes : (lex "// least\n\t-9223372036854775808 \"a\\\"//\\\\\"//\n-> x").tokens.map (·.1) =
      [.int (-9223372036854775808), .str "a\"//\\", .arrow, .ident "x"] :=
  (lex_spelled _ "// least\n\t".toList [(.int (-9223372036854775808), [' ']), (.str "a\"//\\", "//\n".toList),
      (.arrow, [' ']), (.ident "x", [])] (@Gap.comment " least".toList ['\t'] (by decide) (.blank rfl .nil))
    (forall_mem_cons.mpr ⟨⟨trivial, .blank rfl .nil⟩, forall_mem_cons.mpr ⟨⟨trivial,
      @Gap.comment [] [] (by decide) .nil⟩, forall_mem_cons.mpr ⟨⟨trivial, .blank rfl .nil⟩,
        forall_mem_singleton.mpr ⟨⟨by decide, 'x', [], rfl, by decide, by simp⟩, .nil⟩⟩⟩⟩)
    (by decide) (by decide)).1

end ActorNet
