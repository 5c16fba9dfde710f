import ActorNet.Network.Token

/-!
# The grammar of network descriptions

```text network := 'network' IDENT '{' item* '}' item := instance | connection instance :=
'instance' IDENT ':' IDENT ('(' params? ')')? ';' connection := IDENT '.' IDENT '->' IDENT '.' IDENT
('{' params? '}')? ';' params := IDENT '=' literal (',' IDENT '=' literal)* ','? literal := 'true' |
'false' | INT | STRING | '[' (literal (',' literal)* ','?)? ']'
```

One token decides how to go on at every place, so the reader is a machine that takes one token after
the other: `Place` is where in the grammar it stands, `Reading` is that and what it has read, and
`Reading.step` takes a token. The first token without a step is the syntax error, and
`Place.expected` names what could have stood there.
-/

namespace ActorNet

namespace Grammar

/-- The statement that parameters belong to: an instance with parameters in parentheses or a
connection with attributes in braces. -/
inductive Owner where
  | inst (id cls : String)
  | conn (src srcPort dst dstPort : String)
deriving DecidableEq, Repr

def Owner.closer : Owner → Token
  | inst _ _ => .rparen
  | conn _ _ _ _ => .rbrace

/-- Where in the grammar the reader stands. A list that is being read is kept as its items so far,
in reverse, innermost list first. -/
inductive Place where
  | start
  | networkName
  | networkOpen (name : String)
  | item
  | instanceId
  | instanceColon (id : String)
  | instanceClass (id : String)
  | afterClass (id cls : String)
  | srcDot (src : String)
  | srcPort (src : String)
  | arrow (src srcPort : String)
  | dst (src srcPort : String)
  | dstDot (src srcPort dst : String)
  | dstPort (src srcPort dst : String)
  | afterTarget (src srcPort dst dstPort : String)
  | param (owner : Owner)
  | paramEquals (owner : Owner) (name : String)
  | paramValue (owner : Owner) (name : String)
  | listItem (owner : Owner) (name : String) (inner : List Literal) (outer : List (List Literal))
  | afterItem (owner : Owner) (name : String) (inner : List Literal) (outer : List (List Literal))
  | afterValue (owner : Owner)
  | afterParams (owner : Owner)
  | done

def quoteToken (t : Token) : String :=
  "'" ++ t.text ++ "'"

/-- How a literal is named in an expectation; only the bracket that opens a list is named. -/
def literalNames : List String :=
  ["something else", quoteToken .lbracket]

def Place.expected : Place → List String
  | start => [quoteToken .kwNetwork]
  | networkOpen _ => [quoteToken .lbrace]
  | item => [quoteToken .kwInstance, "'<ident>'", quoteToken .rbrace]
  | instanceColon _ => [quoteToken .colon]
  | afterClass _ _ => [quoteToken .lparen, quoteToken .semi]
  | srcDot _ | dstDot _ _ _ => [quoteToken .dot]
  | arrow _ _ => [quoteToken .arrow]
  | afterTarget _ _ _ _ => [quoteToken .lbrace, quoteToken .semi]
  | param owner => ["'<ident>'", quoteToken owner.closer]
  | paramEquals _ _ => [quoteToken .equals]
  | paramValue _ _ => literalNames
  | listItem _ _ _ _ => literalNames ++ [quoteToken .rbracket]
  | afterItem _ _ _ _ => [quoteToken .comma, quoteToken .rbracket]
  | afterValue owner => [quoteToken .comma, quoteToken owner.closer]
  | afterParams _ => [quoteToken .semi]
  | done => ["end of input"]
  | networkName | instanceId | instanceClass _ | srcPort _ | dst _ _ | dstPort _ _ _ => ["'<ident>'"]

/-- What has been read of a description. Instances, connections and parameters are in reverse
order. -/
structure Reading where
  place : Place := .start
  start : Nat := 0
  stop : Nat := 0
  name : String := ""
  instances : List InstanceDecl := []
  connections : List ConnectionDecl := []
  itemStart : Nat := 0
  params : List (String × Literal) := []

namespace Reading

def goto (r : Reading) (place : Place) : Reading :=
  { r with place := place }

def endItem (r : Reading) (owner : Owner) (stop : Nat) : Reading :=
  let span := some ⟨r.itemStart, stop⟩
  let params := Json.collectEntries r.params.reverse
  match owner with
  | .inst id cls =>
    { r with place := .item, params := [], instances := ⟨id, cls, params, span⟩ :: r.instances }
  | .conn src srcPort dst dstPort =>
    { r with place := .item, params := [],
             connections := ⟨src, srcPort, dst, dstPort, params, span⟩ :: r.connections }

/-- A complete literal: it ends the parameter, or is an item of the innermost open list. -/
def endLiteral (r : Reading) (owner : Owner) (name : String) (value : Literal) : List (List Literal) → Reading
  | [] => { r with place := .afterValue owner, params := (name, value) :: r.params }
  | inner :: outer => r.goto (.afterItem owner name (value :: inner) outer)

def scalar? : Token → Option Literal
  | .kwTrue => some (.bool true)
  | .kwFalse => some (.bool false)
  | .int n => some (.int n)
  | .str s => some (.str s)
  | _ => none

def literal? (r : Reading) (owner : Owner) (name : String) (lists : List (List Literal))
    (t : Token) : Option Reading :=
  match scalar? t with
  | some value => some (r.endLiteral owner name value lists)
  | none => if t = .lbracket then some (r.goto (.listItem owner name [] lists)) else none

/-- Take one token, if it can stand here. -/
def step (r : Reading) (t : Token) (span : Span) : Option Reading :=
  match r.place, t with
  | .start, .kwNetwork => some { r with place := .networkName, start := span.start }
  | .networkName, .ident name => some (r.goto (.networkOpen name))
  | .networkOpen name, .lbrace => some { r with place := .item, name := name }
  | .item, .kwInstance => some { r with place := .instanceId, itemStart := span.start }
  | .item, .ident src => some { r with place := .srcDot src, itemStart := span.start }
  | .item, .rbrace => some { r with place := .done, stop := span.stop }
  | .instanceId, .ident id => some (r.goto (.instanceColon id))
  | .instanceColon id, .colon => some (r.goto (.instanceClass id))
  | .instanceClass id, .ident cls => some (r.goto (.afterClass id cls))
  | .afterClass id cls, .lparen => some (r.goto (.param (.inst id cls)))
  | .afterClass id cls, .semi => some (r.endItem (.inst id cls) span.stop)
  | .srcDot src, .dot => some (r.goto (.srcPort src))
  | .srcPort src, .ident srcPort => some (r.goto (.arrow src srcPort))
  | .arrow src srcPort, .arrow => some (r.goto (.dst src srcPort))
  | .dst src srcPort, .ident dst => some (r.goto (.dstDot src srcPort dst))
  | .dstDot src srcPort dst, .dot => some (r.goto (.dstPort src srcPort dst))
  | .dstPort src srcPort dst, .ident dstPort => some (r.goto (.afterTarget src srcPort dst dstPort))
  | .afterTarget src srcPort dst dstPort, .lbrace => some (r.goto (.param (.conn src srcPort dst dstPort)))
  | .afterTarget src srcPort dst dstPort, .semi => some (r.endItem (.conn src srcPort dst dstPort) span.stop)
  | .param owner, .ident name => some (r.goto (.paramEquals owner name))
  | .param owner, t => if t = owner.closer then some (r.goto (.afterParams owner)) else none
  | .paramEquals owner name, .equals => some (r.goto (.paramValue owner name))
  | .paramValue owner name, t => r.literal? owner name [] t
  | .listItem owner name inner outer, .rbracket => some (r.endLiteral owner name (.list inner.reverse) outer)
  | .listItem owner name inner outer, t => r.literal? owner name (inner :: outer) t
  | .afterItem owner name inner outer, .comma => some (r.goto (.listItem owner name inner outer))
  | .afterItem owner name inner outer, .rbracket => some (r.endLiteral owner name (.list inner.reverse) outer)
  | .afterValue owner, .comma => some (r.goto (.param owner))
  | .afterValue owner, t => if t = owner.closer then some (r.goto (.afterParams owner)) else none
  | .afterParams owner, .semi => some (r.endItem owner span.stop)
  | _, _ => none

def finish? (r : Reading) : Option NetworkDecl :=
  match r.place with
  | .done => some ⟨r.name, r.instances.reverse, r.connections.reverse, some ⟨r.start, r.stop⟩⟩
  | _ => none

end Reading

end Grammar

/-- A token, or the end of the text, that cannot stand where it does. -/
structure SyntaxError where
  /-- The token; none at the end of the text. -/
  found : Option Token
  expected : List String
  span : Span
deriving DecidableEq, Repr

/-- Alternatives in a sentence: divided by commas, with an "or" before the last. -/
def alternatives : List String → String
  | [] => ""
  | [a] => a
  | [a, b] => a ++ ", or " ++ b
  | a :: rest => a ++ ", " ++ alternatives rest

def SyntaxError.message (e : SyntaxError) : String :=
  let found := match e.found with
    | some t => Grammar.quoteToken t
    | none => "end of input"
  "found " ++ found ++ " expected " ++ alternatives e.expected

namespace Grammar

/-- Read on from what has been read. `stop` is the length of the text in bytes. -/
def Reading.run (r : Reading) (stop : Nat) : List (Token × Span) → Except SyntaxError NetworkDecl
  | [] =>
    match r.finish? with
    | some decl => .ok decl
    | none => .error ⟨none, r.place.expected, ⟨stop, stop⟩⟩
  | (t, span) :: rest =>
    match r.step t span with
    | some next => next.run stop rest
    | none => .error ⟨some t, r.place.expected, span⟩

end Grammar

/-- Something wrong in a text: a lexical or a syntax error. -/
structure TextError where
  message : String
  span : Span
deriving DecidableEq, Repr

/-- The description in a text, if its tokens form one, and all errors: lexical ones first, then the
syntax error. Bad characters are skipped before the tokens are read. -/
structure Parsed where
  network : Option NetworkDecl
  errors : List TextError

def parse (source : String) : Parsed :=
  let lexed := lex source
  let lexical := lexed.errors.map fun e => ⟨e.message, e.span⟩
  match ({} : Grammar.Reading).run source.utf8ByteSize lexed.tokens with
  | .ok decl => ⟨some decl, lexical⟩
  | .error e => ⟨none, lexical ++ [⟨e.message, e.span⟩]⟩

end ActorNet
