/-!
# JSON values

The tree a document is read into and written from. Fields keep the order in which they stand in the
text, repeated names included, because the formats built on top decide what a repeated name means.

The text has two forms: compact without any blanks, and indented by two blanks a level. Only the
quote, the backslash and control characters below the blank are escaped.
-/

namespace ActorNet

inductive Json where
  | null
  | bool (b : Bool)
  /-- A number written without fraction and exponent that fits a signed or an unsigned 64-bit
  word. -/
  | int (n : Int)
  | real (numeral : String)
  | str (s : String)
  | arr (elems : List Json)
  | obj (fields : List (String × Json))
  /-- A value whose text is well formed but which denotes nothing: a string with half a surrogate
  pair, a number beyond the range of doubles, a container nested too deeply. It can be skipped, not
  read. -/
  | unreadable
deriving Inhabited

namespace Json

/-- How many arrays and objects may be nested in each other. -/
def maxDepth : Nat := 127

mutual

def isReadable : Json → Bool
  | .unreadable => false
  | .arr elems => areReadable elems
  | .obj fields => fieldsReadable fields
  | _ => true

def areReadable : List Json → Bool
  | [] => true
  | j :: rest => j.isReadable && areReadable rest

def fieldsReadable : List (String × Json) → Bool
  | [] => true
  | (_, j) :: rest => j.isReadable && fieldsReadable rest

end

/-! ## Text -/

def hexDigit (n : Nat) : Char :=
  if n < 10 then Char.ofNat ('0'.toNat + n) else Char.ofNat ('a'.toNat + (n - 10))

def escapeChar (c : Char) : List Char :=
  match c with
  | '"' => ['\\', '"']
  | '\\' => ['\\', '\\']
  | '\x08' => ['\\', 'b']
  | '\x0c' => ['\\', 'f']
  | '\n' => ['\\', 'n']
  | '\r' => ['\\', 'r']
  | '\t' => ['\\', 't']
  | _ =>
    if c.toNat < 0x20 then ['\\', 'u', '0', '0', hexDigit (c.toNat / 16), hexDigit (c.toNat % 16)] else [c]

def quoted (s : String) : String :=
  String.ofList ('"' :: (s.toList.flatMap escapeChar ++ ['"']))

/-- A value that is neither an array nor an object; the empty text for those. -/
def scalarText : Json → String
  | .null => "null"
  | .bool true => "true"
  | .bool false => "false"
  | .int n => toString n
  | .real numeral => numeral
  | .str s => quoted s
  | .unreadable => "null"
  | .arr _ => ""
  | .obj _ => ""

mutual

def compact : Json → String
  | .arr elems => "[" ++ compactElems elems ++ "]"
  | .obj fields => "\x7b" ++ compactFields fields ++ "\x7d"
  | j => j.scalarText

def compactElems : List Json → String
  | [] => ""
  | [j] => j.compact
  | j :: rest => j.compact ++ "," ++ compactElems rest

def compactFields : List (String × Json) → String
  | [] => ""
  | [(name, j)] => quoted name ++ ":" ++ j.compact
  | (name, j) :: rest => quoted name ++ ":" ++ j.compact ++ "," ++ compactFields rest

end

def breakLine (level : Nat) : String :=
  "\n" ++ String.ofList (List.replicate (2 * level) ' ')

mutual

def prettyAt (level : Nat) : Json → String
  | .arr [] => "[]"
  | .arr elems => "[" ++ prettyElems (level + 1) elems ++ breakLine level ++ "]"
  | .obj [] => "\x7b\x7d"
  | .obj fields => "\x7b" ++ prettyFields (level + 1) fields ++ breakLine level ++ "\x7d"
  | j => j.scalarText

def prettyElems (level : Nat) : List Json → String
  | [] => ""
  | [j] => breakLine level ++ j.prettyAt level
  | j :: rest => breakLine level ++ j.prettyAt level ++ "," ++ prettyElems level rest

def prettyFields (level : Nat) : List (String × Json) → String
  | [] => ""
  | [(name, j)] => breakLine level ++ quoted name ++ ": " ++ j.prettyAt level
  | (name, j) :: rest =>
    breakLine level ++ quoted name ++ ": " ++ j.prettyAt level ++ "," ++ prettyFields level rest

end

def pretty (j : Json) : String :=
  j.prettyAt 0

end Json

end ActorNet
