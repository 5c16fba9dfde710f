import ActorNet.Network.Token
import Mathlib.Data.List.Basic
import Mathlib.Data.List.TakeWhile

/-!
# Every character of a text is accounted for

Cutting a text goes on right where the piece before has ended. So a text is the sequence of the
texts of its pieces (`Cut`), each of which was skipped, is reported, or spells a token
(`Piece.Fits`). Tokens and errors have the spans of their pieces (`located`).
-/

namespace ActorNet

open List

namespace Lexer

/-- A text with its quotes and backslashes escaped, and nothing else. -/
inductive Escapes : List Char → List Char → Prop where
  | nil : Escapes [] []
  | plain {c : Char} {s cs : List Char} (hc : c ≠ '"' ∧ c ≠ '\\') (rest : Escapes s cs) : Escapes (c :: s) (c :: cs)
  | escaped {c : Char} {s cs : List Char} (hc : c = '"' ∨ c = '\\') (rest : Escapes s cs) :
    Escapes (c :: s) ('\\' :: c :: cs)

end Lexer

open Lexer

/-- A token is spelled by a text: an integer by its sign and its digits, a string by its contents in
quotes, an identifier by itself, and every other token by its own text. -/
def Token.SpelledBy (text : List Char) : Token → Prop
  | int n => ∃ digits, digits ≠ [] ∧ (∀ d ∈ digits, Text.isDigit d = true) ∧
      (text = digits ∧ n.toInt = Text.digitsValue digits ∨ text = '-' :: digits ∧ n.toInt = -Text.digitsValue digits)
  | str s => ∃ body, Escapes s.toList body ∧ text = '"' :: body ++ ['"']
  | ident name => text = name.toList ∧ ∃ c word, text = c :: word ∧ isWordStart c = true ∧
      ∀ d ∈ word, isWordChar d = true
  | t => text = t.text.toList

namespace Lexer

variable {c : Char} {cs text after : List Char} {piece : Piece} {parts : List (Piece × List Char)}

/-! ## One piece -/

/-- What is skipped: a blank, or a comment up to the end of its line. -/
def Skipped (text after : List Char) : Prop :=
  (∃ c, (c = ' ' ∨ c = '\t' ∨ c = '\r' ∨ c = '\n') ∧ text = [c]) ∨
    ∃ body, text = '/' :: '/' :: body ∧ '\n' ∉ body ∧ ∀ c ∈ after.head?, c = '\n'

/-- What the text of a piece is like, given what follows it. -/
def Piece.Fits (text after : List Char) : Piece → Prop
  | .skip => Skipped text after
  | .token t => t.SpelledBy text
  | .bad => True

lemma fits_ofOption {o : Option Token} (h : ∀ t ∈ o, t.SpelledBy text) : (Piece.ofOption o).Fits text after := by
  cases o with
  | none => trivial
  | some t => exact h t rfl

lemma fits_int {negative : Bool} {digits : List Char} (hne : digits ≠ [])
    (hdigits : ∀ d ∈ digits, Text.isDigit d = true) :
    (Piece.ofOption ((int? negative digits).map .int)).Fits (if negative then '-' :: digits else digits) after := by
  refine fits_ofOption fun t ht => ?_
  obtain ⟨n, hn, rfl⟩ := Option.map_eq_some_iff.mp ht
  have hmax : Text.int64Max = 2 ^ 63 - 1 := rfl
  unfold int? at hn
  cases negative with
  | true =>
    obtain ⟨hle, rfl⟩ : _ ∧ Int64.ofInt (-_) = n := by simpa using hn
    exact ⟨digits, hne, hdigits, .inr ⟨rfl, Int64.toInt_ofInt_of_le (by omega) (by omega)⟩⟩
  | false =>
    obtain ⟨hle, rfl⟩ : _ ∧ Int64.ofInt _ = n := by simpa using hn
    exact ⟨digits, hne, hdigits, .inl ⟨rfl, Int64.toInt_ofInt_of_le (by omega) (by omega)⟩⟩

lemma spelledBy_ofWord {word : List Char} (hstart : isWordStart c = true) (hword : ∀ d ∈ word, isWordChar d = true) :
    (Token.ofWord (String.ofList (c :: word))).SpelledBy (c :: word) := by
  have hlist (s : String) (h : String.ofList (c :: word) = s) : c :: word = s.toList := by
    rw [← h, String.toList_ofList]
  unfold Token.ofWord
  split
  · next h => exact hlist _ h
  split
  · next h => exact hlist _ h
  split
  · next h => exact hlist _ h
  split
  · next h => exact hlist _ h
  · exact ⟨hlist _ rfl, c, word, rfl, hstart, hword⟩

/-- A closed string ends with its first quote that is not escaped. -/
lemma exists_body_of_stringExtent {extent : Nat} (h : stringExtent cs = (extent, true)) :
    ∃ body rest, cs = body ++ '"' :: rest ∧ extent = body.length + 1 ∧
      ∀ s, unescape? body = some s → Escapes s body := by
  fun_induction stringExtent cs generalizing extent with
  | case1 => cases h
  | case2 rest =>
    cases h
    exact ⟨[], rest, rfl, rfl, fun s hs => by cases hs; exact .nil⟩
  | case3 => cases h
  | case4 => cases h
  | case5 c rest hc n closed hrec ih =>
    cases h
    obtain ⟨body, after, rfl, hn, hescapes⟩ := ih hrec
    refine ⟨'\\' :: c :: body, after, rfl, by simp [hn], fun s hs => ?_⟩
    -- only a quote or a backslash may follow
    by_cases hescaped : c = '"' ∨ c = '\\'
    · obtain ⟨s', hbody, rfl⟩ : ∃ s', unescape? body = some s' ∧ c :: s' = s := by
        rcases hescaped with rfl | rfl <;> simpa [unescape?] using hs
      exact .escaped hescaped (hescapes s' hbody)
    · rw [not_or] at hescaped
      simp [unescape?, hescaped] at hs
  | case6 c rest hquote hlast hpair n closed hrec ih =>
    cases h
    obtain ⟨body, after, rfl, hn, hescapes⟩ := ih hrec
    have hc : c ≠ '"' ∧ c ≠ '\\' := by
      refine ⟨hquote, ?_⟩
      rintro rfl
      cases body with
      | nil => exact hpair '"' after rfl rfl
      | cons d body => exact hpair d (body ++ '"' :: after) rfl rfl
    refine ⟨c :: body, after, rfl, by simp [hn], fun s hs => ?_⟩
    obtain ⟨s', hbody, rfl⟩ : ∃ s', unescape? body = some s' ∧ c :: s' = s := by simpa [unescape?, hc] using hs
    exact .plain hc (hescapes s' hbody)

lemma take_length_takeWhile (p : Char → Bool) (cs : List Char) : cs.take (cs.takeWhile p).length = cs.takeWhile p :=
  (prefix_iff_eq_take.mp <| takeWhile_prefix p).symm

lemma head?_drop_length_takeWhile (p : Char → Bool) (cs : List Char) :
    ∀ c ∈ (cs.drop (cs.takeWhile p).length).head?, p c = false := by
  induction cs with
  | nil => simp
  | cons d cs ih => by_cases hd : p d = true <;> simp_all

lemma fits_front (c : Char) (cs : List Char) :
    (front c cs).1.Fits (c :: cs.take (front c cs).2) (cs.drop (front c cs).2) := by
  unfold front
  split
  · next hspace =>
    simp only [isSpace, Bool.or_eq_true, decide_eq_true_eq, or_assoc] at hspace
    exact .inl ⟨c, hspace, rfl⟩
  split
  · next hslash =>
    split
    · next rest =>
      rw [take_length_takeWhile, hslash]
      refine .inr ⟨rest.takeWhile (· ≠ '\n'), by simp, fun hmem => ?_, fun d hd => ?_⟩
      · simpa using mem_takeWhile_imp hmem
      · simpa using head?_drop_length_takeWhile (· ≠ '\n') _ d hd
    · trivial
  split
  · next hminus =>
    rw [hminus]
    split
    · rfl
    · dsimp only
      split
      · trivial
      · next hdigits =>
        rw [take_length_takeWhile]
        exact fits_int (by simpa using hdigits) fun d => mem_takeWhile_imp
  split
  · next hdigit =>
    rw [take_length_takeWhile]
    exact fits_int (cons_ne_nil _ _) (forall_mem_cons.mpr ⟨hdigit, fun d => mem_takeWhile_imp⟩)
  split
  · next hstart =>
    rw [take_length_takeWhile]
    exact spelledBy_ofWord hstart fun d => mem_takeWhile_imp
  split
  · next hquote =>
    generalize hextent : stringExtent cs = found
    obtain ⟨extent, _ | _⟩ := found
    · trivial
    obtain ⟨body, rest, rfl, rfl, hescapes⟩ := exists_body_of_stringExtent hextent
    refine fits_ofOption fun t ht => ?_
    obtain ⟨s, hs, rfl⟩ := Option.map_eq_some_iff.mp ht
    simp only [Nat.add_sub_cancel, take_left] at hs
    refine ⟨body, by simpa using hescapes s hs, ?_⟩
    simp [hquote, take_append, take_of_length_le]
  · refine fits_ofOption fun t ht => ?_
    unfold Token.ofPunctuation? at ht
    split at ht <;> cases ht <;> rfl

/-! ## All pieces -/

/-- A text is the sequence of the texts of pieces, none of which is empty. -/
inductive Cut : List Char → List (Piece × List Char) → Prop where
  | nil : Cut [] []
  | cons {piece : Piece} {text rest : List Char} {parts : List (Piece × List Char)} (nonempty : text ≠ [])
    (fits : piece.Fits text rest) (cut : Cut rest parts) : Cut (text ++ rest) ((piece, text) :: parts)

/-- Pieces with their texts and byte spans, from an offset on. -/
def located (offset : Nat) : List (Piece × List Char) → List (Piece × List Char × Span)
  | [] => []
  | (piece, text) :: parts =>
    (piece, text, ⟨offset, offset + byteLength text⟩) :: located (offset + byteLength text) parts

/-- The lexeme of a piece that is not skipped. -/
def lexeme? : Piece × List Char × Span → Option (Lexeme × Span)
  | (.skip, _) => none
  | (.token t, _, span) => some (.token t, span)
  | (.bad, text, span) => some (.bad (String.ofList text), span)

def token? : Piece × List Char × Span → Option (Token × Span)
  | (.token t, _, span) => some (t, span)
  | _ => none

def error? : Piece × List Char × Span → Option LexError
  | (.bad, text, span) => some ⟨String.ofList text, span⟩
  | _ => none

lemma byteLength_append (cs ds : List Char) : byteLength (cs ++ ds) = byteLength cs + byteLength ds := by
  induction cs <;> simp_all [byteLength, Nat.add_assoc]

lemma byteLength_pos (h : text ≠ []) : 0 < byteLength text := by
  obtain ⟨c, cs, rfl⟩ := exists_cons_of_ne_nil h
  exact Nat.add_pos_left c.utf8Size_pos _

lemma exists_cut (cs : List Char) : ∃ parts,
    Cut cs parts ∧ ∀ offset, lexemesFrom offset cs = (located offset parts).filterMap lexeme? := by
  induction hlen : cs.length using Nat.strongRecOn generalizing cs with
  | ind n ih =>
  rcases cs with _ | ⟨c, cs⟩
  · exact ⟨[], .nil, fun offset => by rw [lexemesFrom]; rfl⟩
  have hfits := fits_front c cs
  generalize hfront : front c cs = found at hfits
  obtain ⟨piece, covered⟩ := found
  obtain ⟨parts, hcut, hlexemes⟩ := ih _ (by simp at hlen ⊢; omega) (cs.drop covered) rfl
  have hcs : c :: cs = c :: cs.take covered ++ cs.drop covered := by simp
  refine ⟨(piece, c :: cs.take covered) :: parts, hcs ▸ .cons (cons_ne_nil _ _) hfits hcut, fun offset => ?_⟩
  rw [lexemesFrom, hfront]
  cases piece <;> simp only [located, lexeme?, hlexemes, filterMap_cons]

/-- A piece stands in the text where its span says. -/
lemma Cut.holds (h : Cut cs parts) {offset : Nat} : ∀ x ∈ located offset parts, ∃ before after,
    cs = before ++ x.2.1 ++ after ∧ x.2.1 ≠ [] ∧ x.1.Fits x.2.1 after ∧
      x.2.2 = ⟨offset + byteLength before, offset + byteLength (before ++ x.2.1)⟩ := by
  induction h generalizing offset with
  | nil => exact fun _ hx => absurd hx not_mem_nil
  | @cons piece text rest parts nonempty fits _ ih =>
    refine forall_mem_cons.mpr ⟨⟨[], rest, rfl, nonempty, fits, rfl⟩, fun x hx => ?_⟩
    obtain ⟨before, after, rfl, hne, hfits, hspan⟩ := ih x hx
    refine ⟨text ++ before, after, by simp, hne, hfits, ?_⟩
    simp only [hspan, byteLength_append, Nat.add_assoc]

lemma le_start_of_mem_located {offset : Nat} : ∀ x ∈ located offset parts, offset ≤ x.2.2.start := by
  induction parts generalizing offset with
  | nil => exact fun _ hx => absurd hx not_mem_nil
  | cons part parts ih =>
    exact forall_mem_cons.mpr ⟨le_rfl, fun x hx => Nat.le_trans (Nat.le_add_right _ _) (ih x hx)⟩

lemma pairwise_located (offset : Nat) : (located offset parts).Pairwise fun x y => x.2.2.stop ≤ y.2.2.start := by
  induction parts generalizing offset with
  | nil => exact .nil
  | cons part parts ih => exact .cons le_start_of_mem_located (ih _)

end Lexer

/-- The tokens and the errors of a text are its pieces that are not skipped. -/
lemma exists_cut_lex (source : String) : ∃ parts, Cut source.toList parts ∧
    (lex source).tokens = (located 0 parts).filterMap token? ∧
    (lex source).errors = (located 0 parts).filterMap error? := by
  obtain ⟨parts, hcut, hlexemes⟩ := exists_cut source.toList
  refine ⟨parts, hcut, ?_, ?_⟩
  all_goals
    simp only [lex, hlexemes, filterMap_filterMap]
    refine filterMap_congr ?_
    rintro ⟨_ | _ | _, text, span⟩ _ <;> rfl

/-- Cutting a text accounts for all of it: the text is the sequence of the texts of its pieces, and
those that are not skipped are the tokens and the errors. The spans are not empty, lie in the text
and follow each other; a token is spelled by what its span holds, and what is skipped is a blank or
a comment. -/
theorem lex_accounts_for_source (source : String) : ∃ parts, Cut source.toList parts ∧
    (lex source).tokens = (located 0 parts).filterMap token? ∧
    (lex source).errors = (located 0 parts).filterMap error? ∧
    (located 0 parts).Pairwise (fun x y => x.2.2.stop ≤ y.2.2.start) ∧
    ∀ x ∈ located 0 parts, x.2.2.start < x.2.2.stop ∧ ∃ before after,
      source.toList = before ++ x.2.1 ++ after ∧ x.1.Fits x.2.1 after ∧
        x.2.2 = ⟨byteLength before, byteLength (before ++ x.2.1)⟩ := by
  obtain ⟨parts, hcut, htokens, herrors⟩ := exists_cut_lex source
  refine ⟨parts, hcut, htokens, herrors, pairwise_located 0, fun x hx => ?_⟩
  obtain ⟨before, after, hsource, hne, hfits, hspan⟩ := hcut.holds x hx
  simp only [Nat.zero_add] at hspan
  refine ⟨?_, before, after, hsource, hfits, hspan⟩
  rw [hspan, byteLength_append]
  exact Nat.lt_add_of_pos_right (byteLength_pos hne)

end ActorNet
