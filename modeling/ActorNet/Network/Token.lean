import ActorNet.Network.Decl

/-!
# Tokens of network descriptions

Cutting a source text into tokens with byte spans. Blanks and `//` comments separate tokens. At each
place the longest form wins. What starts no token is reported and skipped, and the scan goes on
right after it.

* `Piece`: what stands at the front of a text.
* `lex`: all pieces of a text that are not skipped, in order.
-/

namespace ActorNet

inductive Token where
  | kwNetwork
  | kwInstance
  | kwTrue
  | kwFalse
  | arrow
  | dot
  | colon
  | semi
  | comma
  | equals
  | lparen
  | rparen
  | lbrace
  | rbrace
  | lbracket
  | rbracket
  | int (n : Int64)
  | str (s : String)
  | ident (name : String)
deriving DecidableEq, Repr, Inhabited

namespace Token

/-- How a token is named in messages. All identifiers are named alike. -/
def text : Token → String
  | kwNetwork => "network"
  | kwInstance => "instance"
  | kwTrue => "true"
  | kwFalse => "false"
  | arrow => "->"
  | dot => "."
  | colon => ":"
  | semi => ";"
  | comma => ","
  | equals => "="
  | lparen => "("
  | rparen => ")"
  | lbrace => "\x7b"
  | rbrace => "\x7d"
  | lbracket => "["
  | rbracket => "]"
  | int n => toString n.toInt
  | str s => "\"" ++ s ++ "\""
  | ident _ => "<ident>"

def ofPunctuation? : Char → Option Token
  | '.' => some dot
  | ':' => some colon
  | ';' => some semi
  | ',' => some comma
  | '=' => some equals
  | '(' => some lparen
  | ')' => some rparen
  | '\x7b' => some lbrace
  | '\x7d' => some rbrace
  | '[' => some lbracket
  | ']' => some rbracket
  | _ => none

def ofWord (word : String) : Token :=
  if word = "network" then kwNetwork
  else if word = "instance" then kwInstance
  else if word = "true" then kwTrue
  else if word = "false" then kwFalse
  else ident word

end Token

namespace Lexer

open Text

/-! ## Character classes -/

def isSpace (c : Char) : Bool :=
  c = ' ' || c = '\t' || c = '\r' || c = '\n'

def isWordStart (c : Char) : Bool :=
  ('a' ≤ c && c ≤ 'z') || ('A' ≤ c && c ≤ 'Z') || c = '_'

def isWordChar (c : Char) : Bool :=
  isWordStart c || isDigit c

/-! ## Forms with contents -/

def int? (negative : Bool) (digits : List Char) : Option Int64 :=
  let magnitude := digitsValue digits
  if negative then
    if magnitude ≤ int64Max + 1 then some (Int64.ofInt (-magnitude)) else none
  else if magnitude ≤ int64Max then some (Int64.ofInt magnitude) else none

/-- How many characters after its opening quote a string covers, and whether it is closed. A
backslash takes the next character with it, unless that is a line break. An unclosed string covers
what a longest-match lexer has taken when it gives up; this convention decides how far the error
reaches. -/
def stringExtent : List Char → Nat × Bool
  | [] => (0, false)
  | '"' :: _ => (1, true)
  | ['\\'] => (0, false)
  | '\\' :: c :: rest =>
    if c = '\n' then (0, false)
    else
      let (n, closed) := stringExtent rest
      (n + 2, closed)
  | _ :: rest =>
    let (n, closed) := stringExtent rest
    (n + 1, closed)

/-- The contents of a string: only the quote and the backslash may be escaped. -/
def unescape? : List Char → Option (List Char)
  | [] => some []
  | '\\' :: '"' :: rest => (unescape? rest).map ('"' :: ·)
  | '\\' :: '\\' :: rest => (unescape? rest).map ('\\' :: ·)
  | c :: rest => if c = '\\' then none else (unescape? rest).map (c :: ·)

/-! ## Pieces -/

/-- What stands at the front of a text. -/
inductive Piece where
  | skip
  | token (t : Token)
  | bad
deriving DecidableEq, Repr

def Piece.ofOption : Option Token → Piece
  | some t => .token t
  | none => .bad

/-- The piece at the front of `c :: cs`, and how many characters of `cs` it covers. A bad piece,
too, covers what a longest-match lexer has taken when it gives up: the extents of errors follow this
convention, not the grammar. -/
def front (c : Char) (cs : List Char) : Piece × Nat :=
  if isSpace c then (.skip, 0)
  else if c = '/' then
    match cs with
    | '/' :: _ => (.skip, (cs.takeWhile (· ≠ '\n')).length)
    | _ => (.bad, 0)
  else if c = '-' then
    match cs with
    | '>' :: _ => (.token .arrow, 1)
    | _ =>
      let digits := cs.takeWhile isDigit
      if digits.isEmpty then (.bad, 0) else (.ofOption ((int? true digits).map .int), digits.length)
  else if isDigit c then
    let digits := cs.takeWhile isDigit
    (.ofOption ((int? false (c :: digits)).map .int), digits.length)
  else if isWordStart c then
    let word := cs.takeWhile isWordChar
    (.token (.ofWord (String.ofList (c :: word))), word.length)
  else if c = '"' then
    let (extent, closed) := stringExtent cs
    if closed then
      (.ofOption ((unescape? (cs.take (extent - 1))).map fun s => .str (String.ofList s)), extent)
    else (.bad, extent)
  else (.ofOption (Token.ofPunctuation? c), 0)

def byteLength (cs : List Char) : Nat :=
  cs.foldr (fun c n => c.utf8Size + n) 0

/-- A piece that is not skipped: a token, or the characters that start none. -/
inductive Lexeme where
  | token (t : Token)
  | bad (slice : String)
deriving DecidableEq, Repr

def lexemesFrom (offset : Nat) : List Char → List (Lexeme × Span)
  | [] => []
  | c :: cs =>
    let (piece, covered) := front c cs
    let slice := c :: cs.take covered
    let stop := offset + byteLength slice
    let rest := lexemesFrom stop (cs.drop covered)
    match piece with
    | .skip => rest
    | .token t => (.token t, ⟨offset, stop⟩) :: rest
    | .bad => (.bad (String.ofList slice), ⟨offset, stop⟩) :: rest
termination_by cs => cs.length
decreasing_by
  simp only [List.length_drop, List.length_cons]
  omega

end Lexer

/-- Characters that start no token. -/
structure LexError where
  slice : String
  span : Span
deriving DecidableEq, Repr

/-- The tokens of a text and the errors on the way, each in order. -/
structure Lexed where
  tokens : List (Token × Span)
  errors : List LexError

def lex (source : String) : Lexed :=
  let lexemes := Lexer.lexemesFrom 0 source.toList
  { tokens := lexemes.filterMap fun
      | (.token t, span) => some (t, span)
      | _ => none
    errors := lexemes.filterMap fun
      | (.bad slice, span) => some ⟨slice, span⟩
      | _ => none }

def LexError.message (e : LexError) : String :=
  "unexpected character: " ++ Text.quote e.slice

end ActorNet
