import ActorNet.Decimal.Range
import ActorNet.Json.Basic

/-!
# Reading JSON text

A recursive-descent reader over the characters of a document. It follows the JSON grammar exactly:
no trailing commas, no raw control characters in strings, no leading zeros, nothing after the value.

The recursion is bounded by a budget that every nested call lowers; `Json.parse?` starts with the
length of the text, which is enough because each call consumes at least one character.
-/

namespace ActorNet.Json

open Text

def isSpace (c : Char) : Bool :=
  c = ' ' || c = '\t' || c = '\n' || c = '\r'

def skipSpace (cs : List Char) : List Char :=
  cs.dropWhile isSpace

def dropWord? : List Char → List Char → Option (List Char)
  | [], cs => some cs
  | _ :: _, [] => none
  | w :: word, c :: cs => if w = c then dropWord? word cs else none

/-! ## Strings -/

def hexValue? (c : Char) : Option Nat :=
  if isDigit c then some (c.toNat - '0'.toNat)
  else if 'a' ≤ c ∧ c ≤ 'f' then some (c.toNat - 'a'.toNat + 10)
  else if 'A' ≤ c ∧ c ≤ 'F' then some (c.toNat - 'A'.toNat + 10)
  else none

/-- Four hexadecimal digits as a 16-bit unit. -/
def hexUnit? (a b c d : Char) : Option Nat := do
  return ((← hexValue? a) * 4096 + (← hexValue? b) * 256 + (← hexValue? c) * 16 + (← hexValue? d))

def escape? : Char → Option Char
  | '"' => some '"'
  | '\\' => some '\\'
  | '/' => some '/'
  | 'b' => some '\x08'
  | 'f' => some '\x0c'
  | 'n' => some '\n'
  | 'r' => some '\r'
  | 't' => some '\t'
  | _ => none

/-- The units of a string up to its closing quote, in reverse, and the text after the quote. A unit
is the code of a character or half of a surrogate pair. -/
def stringUnits? (seen : List Nat) : List Char → Option (List Nat × List Char)
  | [] => none
  | '"' :: rest => some (seen, rest)
  | '\\' :: 'u' :: a :: b :: c :: d :: rest =>
    match hexUnit? a b c d with
    | some unit => stringUnits? (unit :: seen) rest
    | none => none
  | '\\' :: e :: rest =>
    match escape? e with
    | some c => stringUnits? (c.toNat :: seen) rest
    | none => none
  | c :: rest => if c.toNat < 0x20 then none else stringUnits? (c.toNat :: seen) rest

def isHighHalf (unit : Nat) : Bool :=
  0xd800 ≤ unit && unit ≤ 0xdbff

def isLowHalf (unit : Nat) : Bool :=
  0xdc00 ≤ unit && unit ≤ 0xdfff

/-- Join surrogate pairs, given the units in reverse. A half without its partner denotes nothing. -/
def joinUnits? (tail : List Char) : List Nat → Option (List Char)
  | [] => some tail
  | low :: high :: rest =>
    if isLowHalf low then
      if isHighHalf high then
        joinUnits? (Char.ofNat (0x10000 + (high - 0xd800) * 0x400 + (low - 0xdc00)) :: tail) rest
      else none
    else if isHighHalf low then none
    else joinUnits? (Char.ofNat low :: tail) (high :: rest)
  | [unit] =>
    if isLowHalf unit || isHighHalf unit then none else some (Char.ofNat unit :: tail)

/-- The string after an opening quote: its contents, if they denote a string, and the text after the
closing quote. -/
def string? (cs : List Char) : Option (Option String × List Char) := do
  let (units, rest) ← stringUnits? [] cs
  return ((joinUnits? [] units).map String.ofList, rest)

/-! ## Numbers -/

/-- A run of digits, which must not be empty, and the text after it. -/
def digitRun? (cs : List Char) : Option (List Char × List Char) :=
  let run := cs.takeWhile isDigit
  if run.isEmpty then none else some (run, cs.dropWhile isDigit)

/-- The digits before the point: a zero stands alone. -/
def wholeDigits? : List Char → Option (List Char × List Char)
  | '0' :: rest =>
    match rest with
    | c :: _ => if isDigit c then none else some (['0'], rest)
    | [] => some (['0'], rest)
  | cs => digitRun? cs

/-- The digits after the point, none if there is no point. -/
def fraction? : List Char → Option (List Char × List Char)
  | '.' :: rest => digitRun? rest
  | cs => some ([], cs)

def exponentDigits? : List Char → Option ((Bool × List Char) × List Char)
  | '+' :: rest => (digitRun? rest).map fun (ds, r) => ((false, ds), r)
  | '-' :: rest => (digitRun? rest).map fun (ds, r) => ((true, ds), r)
  | cs => (digitRun? cs).map fun (ds, r) => ((false, ds), r)

def exponent? : List Char → Option (Option (Bool × List Char) × List Char)
  | 'e' :: rest => (exponentDigits? rest).map fun (e, r) => (some e, r)
  | 'E' :: rest => (exponentDigits? rest).map fun (e, r) => (some e, r)
  | cs => some (none, cs)

/-- A number other than an integer that fits 64 bits, if it is in range. -/
def realOf (numeral : List Char) (value : Decimal.Scaled) : Json :=
  if value.isFinite then .real (String.ofList numeral) else .unreadable

def numberOf (negative : Bool) (whole fraction : List Char) (exponent : Option (Bool × List Char)) : Json :=
  let sign := if negative then ['-'] else []
  let magnitude := digitsValue whole
  if fraction.isEmpty ∧ exponent.isNone then
    if negative ∧ 0 < magnitude ∧ magnitude ≤ int64Max + 1 then .int (-magnitude)
    else if !negative ∧ magnitude ≤ word64Max then .int magnitude
    else realOf (sign ++ whole) (.ofDigits whole [] 0)
  else
    let point := if fraction.isEmpty then [] else '.' :: fraction
    let (mark, shift) : List Char × Int := match exponent with
      | none => ([], 0)
      | some (true, ds) => (['e', '-'] ++ ds, -digitsValue ds)
      | some (false, ds) => ('e' :: ds, digitsValue ds)
    realOf (sign ++ whole ++ point ++ mark) (.ofDigits whole fraction shift)

def number? (cs : List Char) : Option (Json × List Char) := do
  let (negative, cs) := match cs with
    | '-' :: rest => (true, rest)
    | _ => (false, cs)
  let (whole, cs) ← wholeDigits? cs
  let (fraction, cs) ← fraction? cs
  let (exponent, cs) ← exponent? cs
  return (numberOf negative whole fraction exponent, cs)

/-! ## Values -/

/-- Put the elements of an array together; below the depth limit it denotes nothing. -/
def arrayAt (depth : Nat) (elems : List Json) : Json :=
  if depth ≤ maxDepth then .arr elems else .unreadable

/-- Put the fields of an object together, each name if it denotes a string; below the depth limit,
or with a name that denotes nothing, neither does the object. -/
def objectAt (depth : Nat) (fields : List (Option String × Json)) : Json :=
  if depth ≤ maxDepth then
    match fields.mapM fun (name, value) => name.map (·, value) with
    | some named => .obj named
    | none => .unreadable
  else .unreadable

mutual

/-- A value and the text after it. `depth` counts the containers around it. -/
def value? (budget depth : Nat) (cs : List Char) : Option (Json × List Char) :=
  match budget with
  | 0 => none
  | budget + 1 =>
    match skipSpace cs with
    | '"' :: rest =>
      (string? rest).map fun (text, rest) => (match text with
        | some s => .str s
        | none => .unreadable, rest)
    | '[' :: rest =>
      match skipSpace rest with
      | ']' :: rest => some (arrayAt (depth + 1) [], rest)
      | _ => (elements? budget (depth + 1) [] rest).map fun (elems, rest) => (arrayAt (depth + 1) elems, rest)
    | '\x7b' :: rest =>
      match skipSpace rest with
      | '\x7d' :: rest => some (objectAt (depth + 1) [], rest)
      | _ => (members? budget (depth + 1) [] rest).map fun (fields, rest) => (objectAt (depth + 1) fields, rest)
    | 'n' :: rest => (dropWord? "ull".toList rest).map (.null, ·)
    | 't' :: rest => (dropWord? "rue".toList rest).map (.bool true, ·)
    | 'f' :: rest => (dropWord? "alse".toList rest).map (.bool false, ·)
    | cs => number? cs

/-- The elements of an array up to its closing bracket; `seen` holds those already read, in
reverse. -/
def elements? (budget depth : Nat) (seen : List Json) (cs : List Char) : Option (List Json × List Char) :=
  match budget with
  | 0 => none
  | budget + 1 =>
    match value? budget depth cs with
    | none => none
    | some (elem, rest) =>
      match skipSpace rest with
      | ',' :: rest => elements? budget depth (elem :: seen) rest
      | ']' :: rest => some ((elem :: seen).reverse, rest)
      | _ => none

/-- The fields of an object up to its closing brace; `seen` holds those already read, in reverse. -/
def members? (budget depth : Nat) (seen : List (Option String × Json)) (cs : List Char) :
    Option (List (Option String × Json) × List Char) :=
  match budget with
  | 0 => none
  | budget + 1 =>
    match skipSpace cs with
    | '"' :: rest =>
      match string? rest with
      | none => none
      | some (name, rest) =>
        match skipSpace rest with
        | ':' :: rest =>
          match value? budget depth rest with
          | none => none
          | some (value, rest) =>
            match skipSpace rest with
            | ',' :: rest => members? budget depth ((name, value) :: seen) rest
            | '\x7d' :: rest => some (((name, value) :: seen).reverse, rest)
            | _ => none
        | _ => none
    | _ => none

end

def parse? (text : String) : Option Json :=
  match value? (text.length + 1) 0 text.toList with
  | some (value, rest) => if (skipSpace rest).isEmpty then some value else none
  | none => none

end ActorNet.Json
