import ActorNet.Network.Grammar
import ActorNet.Proofs.Documents.Entries

/-!
# Derivations of network descriptions

```text network := 'network' IDENT '{' item* '}' item := instance | connection instance :=
'instance' IDENT ':' IDENT ('(' (param (',' param)* ','?)? ')')? ';' connection := IDENT '.' IDENT
'->' IDENT '.' IDENT ('{' (param (',' param)* ','?)? '}')? ';' param := IDENT '=' literal literal :=
'true' | 'false' | INT | STRING | '[' (literal (',' literal)* ','?)? ']'
```

There is one type of trees for each rule of the grammar. The `tokens` of a tree are the sentence
that it derives, and `NetworkTree.decl` is the description that the sentence denotes.
-/

namespace ActorNet.Grammar

open List

variable {α : Type}

/-! ## Separated lists -/

/-- Elements divided by commas. A comma may follow the last one, if there is one. -/
inductive Sequence (α : Type) where
  | empty
  | elements (first : α) (more : List α) (trailing : Bool)

namespace Sequence

/-- The elements in order. -/
def toList : Sequence α → List α
  | empty => []
  | elements first more _ => first :: more

/-- The tokens after the first element. -/
def tailTokens (f : α → List Token) (more : List α) (trailing : Bool) : List Token :=
  more.flatMap (.comma :: f ·) ++ if trailing then [.comma] else []

def tokens (f : α → List Token) : Sequence α → List Token
  | empty => []
  | elements first more trailing => f first ++ tailTokens f more trailing

end Sequence

/-! ## Trees -/

/-- A derivation of a literal. -/
inductive LiteralTree where
  | bool (b : Bool)
  | int (n : Int64)
  | str (s : String)
  | list (items : Sequence LiteralTree)

/-- A derivation of a parameter or an attribute. -/
structure ParamTree where
  name : String
  value : LiteralTree

/-- A derivation of an instance or a connection, with parameters or attributes if there are brackets
for them. -/
structure ItemTree where
  head : Owner
  params : Option (Sequence ParamTree)

/-- A derivation of a description. -/
structure NetworkTree where
  name : String
  items : List ItemTree

/-! ## Sentences -/

namespace LiteralTree

mutual

def tokens : LiteralTree → List Token
  | bool b => [if b then .kwTrue else .kwFalse]
  | int n => [.int n]
  | str s => [.str s]
  | list items => .lbracket :: (itemTokens items ++ [.rbracket])

/-- The tokens between the brackets of a list. -/
def itemTokens : Sequence LiteralTree → List Token
  | .empty => []
  | .elements first more trailing => first.tokens ++ (moreTokens more ++ if trailing then [.comma] else [])

/-- The tokens of further elements, each with the comma before it. -/
def moreTokens : List LiteralTree → List Token
  | [] => []
  | item :: rest => .comma :: (item.tokens ++ moreTokens rest)

end

lemma moreTokens_eq (more : List LiteralTree) : moreTokens more = more.flatMap (.comma :: tokens ·) := by
  induction more with
  | nil => rfl
  | cons item rest ih => rw [moreTokens, ih, flatMap_cons, cons_append]

lemma tokens_list (items : Sequence LiteralTree) :
    (list items).tokens = .lbracket :: (items.tokens tokens ++ [.rbracket]) := by
  cases items with
  | empty => rfl
  | elements first more trailing => rw [tokens, itemTokens, moreTokens_eq, Sequence.tokens, Sequence.tailTokens]

mutual

/-- The literal that is derived. -/
def value : LiteralTree → Literal
  | bool b => .bool b
  | int n => .int n
  | str s => .str s
  | list items => .list (itemValues items)

/-- The literals of a separated list. -/
def itemValues : Sequence LiteralTree → List Literal
  | .empty => []
  | .elements first more _ => first.value :: values more

/-- The literals of a list. -/
def values : List LiteralTree → List Literal
  | [] => []
  | item :: rest => item.value :: values rest

end

lemma values_eq (items : List LiteralTree) : values items = items.map value := by
  induction items with
  | nil => rfl
  | cons item rest ih => rw [values, ih, map_cons]

lemma value_list (items : Sequence LiteralTree) : (list items).value = .list (items.toList.map value) := by
  cases items with
  | empty => rfl
  | elements first more trailing => rw [value, itemValues, values_eq, Sequence.toList, map_cons]

/-- Induction over the elements of lists. -/
lemma induct {motive : LiteralTree → Prop} (bool : ∀ b, motive (.bool b)) (int : ∀ n, motive (.int n))
    (str : ∀ s, motive (.str s)) (list : ∀ items, (∀ item ∈ items.toList, motive item) → motive (.list items))
    (t : LiteralTree) : motive t :=
  @LiteralTree.rec motive (fun items => ∀ item ∈ items.toList, motive item) (fun items => ∀ item ∈ items, motive item)
    bool int str list (forall_mem_nil _)
    (fun _ _ _ hfirst hmore => forall_mem_cons.mpr ⟨hfirst, hmore⟩)
    (forall_mem_nil _) (fun _ _ hitem hrest => forall_mem_cons.mpr ⟨hitem, hrest⟩) t

end LiteralTree

def ParamTree.tokens (param : ParamTree) : List Token :=
  .ident param.name :: .equals :: param.value.tokens

def Owner.tokens : Owner → List Token
  | inst id cls => [.kwInstance, .ident id, .colon, .ident cls]
  | conn src srcPort dst dstPort => [.ident src, .dot, .ident srcPort, .arrow, .ident dst, .dot, .ident dstPort]

def Owner.opener : Owner → Token
  | inst _ _ => .lparen
  | conn _ _ _ _ => .lbrace

def Owner.paramTokens (owner : Owner) : Option (Sequence ParamTree) → List Token
  | none => []
  | some params => owner.opener :: (params.tokens ParamTree.tokens ++ [owner.closer])

def ItemTree.tokens (item : ItemTree) : List Token :=
  item.head.tokens ++ (item.head.paramTokens item.params ++ [.semi])

def NetworkTree.tokens (tree : NetworkTree) : List Token :=
  .kwNetwork :: .ident tree.name :: .lbrace :: (tree.items.flatMap ItemTree.tokens ++ [.rbrace])

/-! ## What a sentence denotes -/

/-- The named literals of an item as written. -/
def ItemTree.entries (item : ItemTree) : List (String × Literal) :=
  ((item.params.map Sequence.toList).getD []).map fun param => (param.name, param.value.value)

def ItemTree.instance? (item : ItemTree) (span : Option Span) : Option InstanceDecl :=
  match item.head with
  | .inst id cls => some ⟨id, cls, Json.lastValues item.entries, span⟩
  | .conn _ _ _ _ => none

def ItemTree.connection? (item : ItemTree) (span : Option Span) : Option ConnectionDecl :=
  match item.head with
  | .inst _ _ => none
  | .conn src srcPort dst dstPort => some ⟨src, srcPort, dst, dstPort, Json.lastValues item.entries, span⟩

/-- From the start of the first token to the end of the last. -/
def covering (tokens : List (Token × Span)) : Option Span := do
  return ⟨(← tokens.head?).2.start, (← tokens.getLast?).2.stop⟩

/-- Items with the part of the text that they cover, given the tokens from the first item on. -/
def placed : List ItemTree → List (Token × Span) → List (ItemTree × Option Span)
  | [], _ => []
  | item :: rest, tokens =>
    (item, covering (tokens.take item.tokens.length)) :: placed rest (tokens.drop item.tokens.length)

/-- The description that a sentence denotes, given its tokens in the text. -/
def NetworkTree.decl (tree : NetworkTree) (tokens : List (Token × Span)) : NetworkDecl :=
  -- the first item comes after the keyword, the name and the brace
  let items := placed tree.items (tokens.drop 3)
  { name := tree.name
    instances := items.filterMap fun (item, span) => item.instance? span
    connections := items.filterMap fun (item, span) => item.connection? span
    span := covering tokens }

end ActorNet.Grammar
