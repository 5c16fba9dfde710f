import ActorNet.Network.Decl

/-!
# Diagnostics

What the user is told about an input: a severity, an optional stable code, a message, an optional
place in a source text, a hint and the causes behind it.
-/

namespace ActorNet

/-- A stable code; once given, its meaning never changes. `E01xx` is about the structure of a
network description, `E02xx` about types, `E03xx` about actors. -/
inductive DiagCode where
  | syntaxError
  | emptyAttribute
  | duplicateInstance
  | emptyNetwork
  | unknownClass
  | noSuchInstance
  | noSuchSourcePort
  | noSuchTargetPort
  | badBufferSize
  | mixedList
  | typeMismatch
  | loopInPredication
  | noTypeForCast
  | malformedPhi
  | brokenStructure
  | guardFailed
  | zeroTooLarge
  | other (name : String)
deriving DecidableEq, Repr

def DiagCode.text : DiagCode → String
  | syntaxError => "E0100"
  | emptyAttribute => "E0101"
  | duplicateInstance => "E0102"
  | emptyNetwork => "E0103"
  | unknownClass => "E0104"
  | noSuchInstance => "E0105"
  | noSuchSourcePort => "E0106"
  | noSuchTargetPort => "E0107"
  | badBufferSize => "E0108"
  | mixedList => "E0109"
  | typeMismatch => "E0201"
  | loopInPredication => "E0301"
  | noTypeForCast => "E0302"
  | malformedPhi => "E0303"
  | brokenStructure => "E0304"
  | guardFailed => "E0305"
  | zeroTooLarge => "E0306"
  | other name => name

/-- How serious a diagnostic is. -/
inductive Severity where
  | error
  | warning
deriving DecidableEq, Repr

def Severity.text : Severity → String
  | error => "error"
  | warning => "warning"

/-- A further place in the source text, with a label. -/
structure RelatedSpan where
  span : Span
  label : String
deriving DecidableEq, Repr

structure Diagnostic where
  severity : Severity := .error
  code : Option DiagCode := none
  /-- Absent for inputs without source text. -/
  span : Option Span := none
  message : String
  hint : Option String := none
  related : List RelatedSpan := []
  causes : List String := []

def charsBefore (offset : Nat) : List Char → List Char
  | [] => []
  | c :: cs => if c.utf8Size ≤ offset then c :: charsBefore (offset - c.utf8Size) cs else []

/-- Line and column of a byte offset, both from one; the column counts bytes. -/
def lineColumn (text : String) (offset : Nat) : Nat × Nat :=
  let before := charsBefore offset text.toList
  let line := before.count '\n' + 1
  let column := (before.reverse.takeWhile (· ≠ '\n')).foldr (fun c n => c.utf8Size + n) 0 + 1
  (line, column)

namespace Diagnostic

def text (d : Diagnostic) : String :=
  let code := match d.code with
    | some code => "[" ++ code.text ++ "]"
    | none => ""
  let hint := match d.hint with
    | some hint => "\n  hint: " ++ hint
    | none => ""
  d.severity.text ++ code ++ ": " ++ d.message ++ hint

/-- The diagnostic for a file, with line and column if the source text is at hand, and with its
causes. -/
def render (d : Diagnostic) (file : String) (source : Option String) : String :=
  let place := match d.span, source with
    | some span, some text =>
      let (line, column) := lineColumn text span.start
      file ++ ":" ++ toString line ++ ":" ++ toString column
    | _, _ => file
  d.causes.foldl (fun out cause => out ++ "\n  caused by: " ++ cause) (place ++ ": " ++ d.text)

end Diagnostic

end ActorNet
