import ActorNet.Json.Decode

/-!
# Literals

The constant values that parameters and attributes of a network description take. In a document a
literal is the plain JSON value; numbers that are no 64-bit integers, `null` and objects are no
literals.
-/

namespace ActorNet

/-- A constant value. -/
inductive Literal where
  | bool (b : Bool)
  | int (n : Int64)
  | str (s : String)
  | list (items : List Literal)
deriving Inhabited

namespace Literal

def kind : Literal → String
  | bool _ => "bool"
  | int _ => "int"
  | str _ => "string"
  | list _ => "list"

def sameKind : List Literal → Bool
  | a :: b :: rest => a.kind = b.kind && sameKind (b :: rest)
  | _ => true

mutual

/-- Whether all elements of a list are of one kind, at every level. -/
def isHomogeneous : Literal → Bool
  | list items => sameKind items && allHomogeneous items
  | _ => true

def allHomogeneous : List Literal → Bool
  | [] => true
  | item :: rest => item.isHomogeneous && allHomogeneous rest

end

mutual

def text : Literal → String
  | bool true => "true"
  | bool false => "false"
  | int n => toString n.toInt
  | str s => Text.quote s
  | list items => "[" ++ itemsText items ++ "]"

def itemsText : List Literal → String
  | [] => ""
  | [item] => item.text
  | item :: rest => item.text ++ ", " ++ itemsText rest

end

mutual

def toJson : Literal → Json
  | bool b => .bool b
  | int n => .int n.toInt
  | str s => .str s
  | list items => .arr (itemsToJson items)

def itemsToJson : List Literal → List Json
  | [] => []
  | item :: rest => item.toJson :: itemsToJson rest

end

mutual

def ofJson? : Json → Option Literal
  | .bool b => some (bool b)
  | .int n => (Json.asInt64? (.int n)).map int
  | .str s => some (str s)
  | .arr elems => (itemsOfJson? elems).map list
  | _ => none

def itemsOfJson? : List Json → Option (List Literal)
  | [] => some []
  | j :: rest => do return (← ofJson? j) :: (← itemsOfJson? rest)

end

end Literal

end ActorNet
