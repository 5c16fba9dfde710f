/-!
# Characters and text

Blank characters are those of the Unicode property `White_Space`. Decimal numerals are read out of
character lists. Inside messages and listings a string is shown in double quotes, with the quote,
the backslash and unprintable characters escaped.
-/

namespace ActorNet.Text

/-- The code points of the property `White_Space`, as inclusive ranges in ascending order. -/
def blankRanges : List (Nat × Nat) :=
  [(0x09, 0x0d), (0x20, 0x20), (0x85, 0x85), (0xa0, 0xa0), (0x1680, 0x1680), (0x2000, 0x200a),
   (0x2028, 0x2029), (0x202f, 0x202f), (0x205f, 0x205f), (0x3000, 0x3000)]

def inRanges (ranges : List (Nat × Nat)) (code : Nat) : Bool :=
  ranges.any fun (low, high) => low ≤ code && code ≤ high

def isBlank (c : Char) : Bool :=
  inRanges blankRanges c.toNat

def trim (cs : List Char) : List Char :=
  ((cs.dropWhile isBlank).reverse.dropWhile isBlank).reverse

/-! ## Decimal numerals -/

def isDigit (c : Char) : Bool :=
  '0' ≤ c && c ≤ '9'

/-- The number that a list of digits denotes, most significant digit first. -/
def digitsValue (ds : List Char) : Nat :=
  ds.foldl (fun n d => 10 * n + (d.toNat - '0'.toNat)) 0

def natural? (cs : List Char) : Option Nat :=
  if cs ≠ [] ∧ cs.all isDigit then some (digitsValue cs) else none

/-- An unsigned numeral of at most `limit`; a plus sign may stand in front. -/
def unsigned? (limit : Nat) (cs : List Char) : Option Nat := do
  let n ← natural? (match cs with
    | '+' :: rest => rest
    | _ => cs)
  if n ≤ limit then some n else none

def word32Max : Nat := 4294967295

def word64Max : Nat := 18446744073709551615

def int64Max : Nat := 9223372036854775807

/-! ## Quoted text -/

/-- The code points that are escaped: controls, separators other than the space, format and
private-use characters, and the main blocks of marks that combine with the character before them.
This is a selection: other marks and unassigned code points are shown as they are. -/
def unprintableRanges : List (Nat × Nat) :=
  [(0x00, 0x1f), (0x7f, 0xa0), (0xad, 0xad), (0x300, 0x36f), (0x483, 0x489), (0x591, 0x5bd),
   (0x600, 0x605), (0x610, 0x61a), (0x61c, 0x61c), (0x64b, 0x65f), (0x6dd, 0x6dd), (0x70f, 0x70f),
   (0x1680, 0x1680), (0x180b, 0x180e), (0x1ab0, 0x1aff), (0x1dc0, 0x1dff), (0x2000, 0x200f),
   (0x2028, 0x202f), (0x205f, 0x206f), (0x20d0, 0x20f0), (0x3000, 0x3000), (0x302a, 0x302f),
   (0x3099, 0x309a), (0xd800, 0xf8ff), (0xfe00, 0xfe0f), (0xfe20, 0xfe2f), (0xfeff, 0xfeff),
   (0xfff0, 0xfffb), (0xfffe, 0xffff), (0xe0000, 0x10ffff)]

def hex (n : Nat) : List Char :=
  Nat.toDigits 16 n

def quoteChar (c : Char) : List Char :=
  if c = '"' then ['\\', '"']
  else if c = '\\' then ['\\', '\\']
  else if c = '\n' then ['\\', 'n']
  else if c = '\r' then ['\\', 'r']
  else if c = '\t' then ['\\', 't']
  else if c = '\x00' then ['\\', '0']
  else if inRanges unprintableRanges c.toNat then "\\u\x7b".toList ++ hex c.toNat ++ ['\x7d']
  else [c]

def quote (s : String) : String :=
  String.ofList (['"'] ++ s.toList.flatMap quoteChar ++ ['"'])

end ActorNet.Text
