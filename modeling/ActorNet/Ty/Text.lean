import ActorNet.Json.Decode
import ActorNet.Ty.Basic

/-!
# The text form of types

`bool`, `intN`, `uintN`, `float`, `String`, `void` and `[T; N]`. Blanks around a type and around a
list size are dropped, and `string` reads as `String`.
-/

namespace ActorNet.Ty

open Text

def text : Ty → String
  | bool => "bool"
  | int width => "int" ++ toString width
  | uint width => "uint" ++ toString width
  | float => "float"
  | string => "String"
  | void => "void"
  | list size elem => "[" ++ elem.text ++ "; " ++ toString size ++ "]"

instance : ToString Ty := ⟨Ty.text⟩

/-- Why a text is no type. -/
inductive ReadReason where
  | noSemicolon
  | badSize
  | unknownName
  | noWidth
  | badWidth
deriving DecidableEq, Repr

def ReadReason.message : ReadReason → String
  | noSemicolon => "expected '[T; N]'"
  | badSize => "list size must be a non-negative integer"
  | unknownName => "unknown type name"
  | noWidth => "integer width must follow 'int'/'uint'"
  | badWidth => "integer width must be between 1 and 64"

/-- A text, without the blanks around it, that is no type. -/
structure ReadError where
  text : String
  reason : ReadReason
deriving DecidableEq, Repr

def ReadError.message (e : ReadError) : String :=
  "invalid type '" ++ e.text ++ "': " ++ e.reason.message

def bracketed? : List Char → Option (List Char)
  | '[' :: rest =>
    match rest.reverse with
    | ']' :: inner => some inner.reverse
    | _ => none
  | _ => none

def splitLast? (cs : List Char) : Option (List Char × List Char) :=
  match cs.reverse.dropWhile (· ≠ ';') with
  | [] => none
  | _ :: front => some (front.reverse, (cs.reverse.takeWhile (· ≠ ';')).reverse)

/-- The rest of a text that starts with the given word. -/
def after? : List Char → List Char → Option (List Char)
  | [], cs => some cs
  | _ :: _, [] => none
  | w :: word, c :: cs => if w = c then after? word cs else none

def width? (digits : List Char) : Except ReadReason Nat :=
  match unsigned? word32Max digits with
  | none => .error .noWidth
  | some width => if width = 0 ∨ 64 < width then .error .badWidth else .ok width

def integer? (text : List Char) : Except ReadReason Ty :=
  match after? "uint".toList text with
  | some digits => (width? digits).map uint
  | none =>
    match after? "int".toList text with
    | some digits => (width? digits).map int
    | none => .error .unknownName

def plain? (text : List Char) : Option Ty :=
  if text = "bool".toList then some bool
  else if text = "float".toList then some float
  else if text = "String".toList ∨ text = "string".toList then some string
  else if text = "void".toList then some void
  else none

/-- Read a type, given more levels than it has list brackets. The element of a list is read before
its size. -/
def readAt? : Nat → List Char → Except ReadError Ty
  | levels, cs =>
    let text := trim cs
    let failed := fun reason => Except.error ⟨String.ofList text, reason⟩
    match plain? text with
    | some ty => .ok ty
    | none =>
      match bracketed? text with
      | some inner =>
        match splitLast? inner, levels with
        | none, _ => failed .noSemicolon
        | some _, 0 => failed .noSemicolon
        | some (elemText, sizeText), levels + 1 =>
          match readAt? levels elemText with
          | .error e => .error e
          | .ok elem =>
            match unsigned? word32Max (trim sizeText) with
            | none => failed .badSize
            | some size => .ok (list size elem)
      | none =>
        match integer? text with
        | .ok ty => .ok ty
        | .error reason => failed reason

def read (text : String) : Except ReadError Ty :=
  readAt? text.length text.toList

def toJson (ty : Ty) : Json :=
  .str ty.text

def ofJson? (j : Json) : Option Ty :=
  j.asString?.bind fun text => (read text).toOption

end ActorNet.Ty
