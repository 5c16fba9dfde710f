import ActorNet.Proofs.Network.Reading

/-!
# The first token that cannot continue

A sequence of tokens is viable if a sentence of the grammar starts with it. The reader gets past
exactly the viable sequences (`viable_iff`): from every place on, `Place.closing` leads it token by
token to the end of a description (`Reading.exists_completion`). So where `parse` fails, its one
syntax error stands at the first token up to which the tokens are not viable, or at the end of the
text (`parse_reports_first_misfit`).
-/

namespace ActorNet

open Lexer

namespace Grammar

open List

variable {r next : Reading} {tokens rest : List (Token × Span)} {e : SyntaxError}

/-- A sentence of the grammar starts with the tokens. -/
def Viable (ts : List Token) : Prop :=
  ∃ (tree : NetworkTree) (after : List Token), tree.tokens = ts ++ after

/-! ## Ways to the end -/

/-- A token that leads on from a place, past everything that may be left out. -/
def Place.closing : Place → Token
  | start => .kwNetwork
  | networkOpen _ => .lbrace
  | item => .rbrace
  | instanceColon _ => .colon
  | srcDot _ | dstDot _ _ _ => .dot
  | arrow _ _ => .arrow
  | afterClass _ _ | afterTarget _ _ _ _ | afterParams _ | done => .semi
  | param owner | afterValue owner => owner.closer
  | paramEquals _ _ => .equals
  | paramValue _ _ => .kwTrue
  | listItem _ _ _ _ | afterItem _ _ _ _ => .rbracket
  | networkName | instanceId | instanceClass _ | srcPort _ | dst _ _ | dstPort _ _ _ => .ident "x"

/-- How many such tokens there are up to the end. -/
def Place.distance : Place → Nat
  | done => 0
  | item => 1
  | networkOpen _ | afterClass _ _ | afterTarget _ _ _ _ | afterParams _ => 2
  | networkName | instanceClass _ | dstPort _ _ _ | param _ | afterValue _ => 3
  | start | instanceColon _ | dstDot _ _ _ | paramValue _ _ => 4
  | instanceId | dst _ _ | paramEquals _ _ => 5
  | arrow _ _ => 6
  | srcPort _ => 7
  | srcDot _ => 8
  | listItem _ _ _ outer | afterItem _ _ _ outer => outer.length + 4

namespace Reading

lemma step_closing (h : r.place ≠ .done) (span : Span) :
    ∃ next, r.step r.place.closing span = some next ∧ next.place.distance < r.place.distance := by
  have hliteral (owner : Owner) (name : String) (value : Literal) (outer : List (List Literal)) :
      (r.endLiteral owner name value outer).place.distance < outer.length + 4 := by
    cases outer <;> simp [endLiteral, goto, Place.distance]
  have hitem (owner : Owner) : (r.endItem owner span.stop).place.distance < 2 := by
    cases owner <;> simp [endItem, Place.distance]
  cases hplace : r.place with
  | done => exact absurd hplace h
  | afterClass | afterTarget | afterParams => simpa [step, hplace, Place.closing, Place.distance] using hitem _
  | listItem owner name inner outer | afterItem owner name inner outer =>
    simpa [step, hplace, Place.closing, Place.distance] using hliteral owner name _ outer
  | paramValue owner name =>
    simpa [step, hplace, Place.closing, Place.distance, literal?, scalar?] using hliteral owner name _ []
  | param owner | afterValue owner =>
    cases owner <;> simp [step, hplace, Place.closing, Owner.closer, goto, Place.distance]
  | _ => simp [step, hplace, Place.closing, goto, Place.distance]

lemma exists_completion (r : Reading) :
    ∃ tokens last decl, r.advance tokens = some last ∧ last.finish? = some decl := by
  induction hdistance : r.place.distance using Nat.strongRecOn generalizing r with
  | ind n ih =>
  by_cases hdone : r.place = .done
  · exact ⟨[], r, by simp [advance, finish?, hdone]⟩
  · obtain ⟨next, hstep, hlt⟩ := step_closing hdone ⟨0, 0⟩
    obtain ⟨tokens, last, decl, hlast, hfinish⟩ := ih _ (hdistance ▸ hlt) next rfl
    exact ⟨(r.place.closing, ⟨0, 0⟩) :: tokens, last, decl, by simpa [advance, hstep] using hlast, hfinish⟩

/-! ## Steps up to an error -/

lemma advance_append (r : Reading) (tokens rest : List (Token × Span)) :
    r.advance (tokens ++ rest) = (r.advance tokens).bind fun next => next.advance rest := by
  simp [advance]

lemma run_eq_error {stop : Nat} (h : r.run stop tokens = .error e) :
    (∃ before t after next, tokens = before ++ (t, e.span) :: after ∧ r.advance before = some next ∧
      next.step t e.span = none) ∨ ((∃ next, r.advance tokens = some next) ∧ e.span = ⟨stop, stop⟩) := by
  induction tokens generalizing r with
  | nil =>
    rw [run] at h
    split at h <;> cases h
    exact .inr ⟨⟨r, rfl⟩, rfl⟩
  | cons head tokens ih =>
    rw [run] at h
    split at h
    · next next hstep =>
      have hadvance (before : List (Token × Span)) : r.advance (head :: before) = next.advance before := by
        simp [advance, hstep]
      rcases ih h with ⟨before, t, after, last, rfl, hlast, hnone⟩ | ⟨hall, hspan⟩
      · exact .inl ⟨head :: before, t, after, last, rfl, (hadvance before).trans hlast, hnone⟩
      · exact .inr ⟨hall.imp fun _ => (hadvance tokens).trans, hspan⟩
    · next hnone =>
      cases h
      exact .inl ⟨[], head.1, tokens, r, rfl, rfl, hnone⟩

end Reading

lemma viable_iff : Viable (tokens.map (·.1)) ↔ ∃ next, ({} : Reading).advance tokens = some next := by
  constructor
  · rintro ⟨tree, after, htokens⟩
    have htree : tree.tokens = (tokens ++ after.map fun t => (t, (⟨0, 0⟩ : Span))).map (·.1) := by
      simp [htokens, Function.comp_def]
    obtain ⟨last, hlast, -⟩ := accepts_iff.mpr ⟨tree, htree, rfl⟩
    rw [Reading.advance_append] at hlast
    obtain ⟨next, hnext, -⟩ := Option.bind_eq_some_iff.mp hlast
    exact ⟨next, hnext⟩
  · rintro ⟨next, hnext⟩
    obtain ⟨rest, last, decl, hlast, hfinish⟩ := next.exists_completion
    have hall : ({} : Reading).advance (tokens ++ rest) = some last := by
      rw [Reading.advance_append, hnext, Option.bind_some, hlast]
    obtain ⟨tree, htree, -⟩ := accepts_iff.mp ⟨last, hall, hfinish⟩
    exact ⟨tree, rest.map (·.1), by simpa using htree⟩

end Grammar

open Grammar

/-- A text whose tokens are no sentence of the grammar gives no description and, after the lexical
errors, one syntax error. It stands at the first token up to which the tokens do not start a
sentence, or at the end of the text if all of them do. -/
theorem parse_reports_first_misfit (source : String)
    (h : ¬ ∃ tree : NetworkTree, tree.tokens = (lex source).tokens.map (·.1)) :
    (parse source).network = none ∧ ∃ e : TextError,
      (parse source).errors = (lex source).errors.map (fun e => ⟨e.message, e.span⟩) ++ [e] ∧
      ((∃ before t after, (lex source).tokens = before ++ (t, e.span) :: after ∧ Viable (before.map (·.1)) ∧
          ¬ Viable (before.map (·.1) ++ [t])) ∨
        Viable ((lex source).tokens.map (·.1)) ∧ e.span = ⟨source.utf8ByteSize, source.utf8ByteSize⟩) := by
  simp only [parse]
  cases hrun : ({} : Reading).run source.utf8ByteSize (lex source).tokens with
  | ok decl =>
    obtain ⟨tree, htree, -⟩ := accepts_iff.mp ((Reading.run_eq_ok_iff _).mp hrun)
    exact absurd ⟨tree, htree⟩ h
  | error e =>
    refine ⟨rfl, ⟨e.message, e.span⟩, rfl, ?_⟩
    rcases Reading.run_eq_error hrun with ⟨before, t, after, last, htokens, hlast, hnone⟩ | ⟨hall, hspan⟩
    · refine .inl ⟨before, t, after, htokens, viable_iff.mpr ⟨last, hlast⟩, fun hviable => ?_⟩
      have hmap : before.map (·.1) ++ [t] = (before ++ [(t, e.span)]).map (·.1) := by simp
      obtain ⟨next, hnext⟩ := viable_iff.mp (hmap ▸ hviable)
      rw [Reading.advance_append, hlast] at hnext
      simp [Reading.advance, hnone] at hnext
    · exact .inr ⟨viable_iff.mpr hall, hspan⟩

theorem parse_reports_first_misfit_semicolon :
    (¬ ∃ tree : NetworkTree, tree.tokens = (lex "network A;").tokens.map (·.1)) ∧
      (parse "network A;").network = none := by
  have hlex : (lex "network A;").tokens.map (·.1) = [.kwNetwork, .ident "A", .semi] := by
    simp [lex, lexemesFrom, front, isSpace, isWordStart, isWordChar, Text.isDigit,
      Token.ofWord, Piece.ofOption, Token.ofPunctuation?]
  have h : ¬ ∃ tree : NetworkTree, tree.tokens = (lex "network A;").tokens.map (·.1) := by
    simp [hlex, NetworkTree.tokens]
  exact ⟨h, (parse_reports_first_misfit _ h).1⟩

end ActorNet
