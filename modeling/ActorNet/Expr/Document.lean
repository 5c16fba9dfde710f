import ActorNet.Expr.Basic

/-!
# Expressions in documents

Expressions as tagged JSON values. Reading recurses into nested values; its budget is the height of
the value.
-/

namespace ActorNet

namespace VarRef

def toJson : VarRef → Json
  | loc id => .obj [("Local", id.toJson)]
  | glob id => .obj [("Global", id.toJson)]

def ofJson? (j : Json) : Option VarRef := do
  match ← j.payload? with
  | ("Local", id) => (LocalId.ofJson? id).map loc
  | ("Global", id) => (GlobalId.ofJson? id).map glob
  | _ => none

end VarRef

namespace UnaryOp

def tag : UnaryOp → String
  | not => "Not"
  | minus => "Minus"
  | bitNot => "BitNot"

def all : List UnaryOp := [not, minus, bitNot]

def ofJson? (j : Json) : Option UnaryOp :=
  j.bareTag?.bind fun tag => all.find? (·.tag = tag)

end UnaryOp

namespace BinaryOp

def tag : BinaryOp → String
  | add => "Add"
  | sub => "Sub"
  | mul => "Mul"
  | div => "Div"
  | mod => "Mod"
  | bitAnd => "BitAnd"
  | bitOr => "BitOr"
  | bitXor => "BitXor"
  | shl => "Shl"
  | shr => "Shr"
  | and => "And"
  | or => "Or"
  | eq => "Eq"
  | ne => "Ne"
  | lt => "Lt"
  | le => "Le"
  | gt => "Gt"
  | ge => "Ge"

def all : List BinaryOp :=
  [add, sub, mul, div, mod, bitAnd, bitOr, bitXor, shl, shr, and, or, eq, ne, lt, le, gt, ge]

def ofJson? (j : Json) : Option BinaryOp :=
  j.bareTag?.bind fun tag => all.find? (·.tag = tag)

end BinaryOp

namespace Expr

mutual

def toJson : Expr → Json
  | .bool b => .obj [("Bool", .bool b)]
  | .int value ty => .obj [("Int", .obj [("value", .int value.toInt), ("ty", ty.toJson)])]
  | .str s => .obj [("Str", .str s)]
  | .list elems ty => .obj [("List", .obj [("elems", .arr (toJsons elems)), ("ty", ty.toJson)])]
  | .unary op e ty =>
    .obj [("Unary", .obj [("op", .str op.tag), ("expr", e.toJson), ("ty", ty.toJson)])]
  | .binary op lhs rhs ty =>
    .obj [("Binary", .obj [("op", .str op.tag), ("lhs", lhs.toJson), ("rhs", rhs.toJson), ("ty", ty.toJson)])]
  | .var v => .obj [("Var", v.toJson)]

def toJsons : List Expr → List Json
  | [] => []
  | e :: rest => e.toJson :: toJsons rest

end

/-- An expression from a JSON value of at most the given height. -/
def ofJsonAt? : Nat → Json → Option Expr
  | 0, _ => none
  | budget + 1, j => do
    match ← j.payload? with
    | ("Bool", b) => b.asBool?.map .bool
    | ("Int", fields) =>
      let r ← fields.record? ["value", "ty"]
      return .int (← r.required? "value" Json.asInt64?) (← r.required? "ty" Ty.ofJson?)
    | ("Str", s) => s.asString?.map .str
    | ("List", fields) =>
      let r ← fields.record? ["elems", "ty"]
      return .list (← r.required? "elems" (Json.listOf? (ofJsonAt? budget))) (← r.required? "ty" Ty.ofJson?)
    | ("Unary", fields) =>
      let r ← fields.record? ["op", "expr", "ty"]
      return .unary (← r.required? "op" UnaryOp.ofJson?) (← r.required? "expr" (ofJsonAt? budget))
        (← r.required? "ty" Ty.ofJson?)
    | ("Binary", fields) =>
      let r ← fields.record? ["op", "lhs", "rhs", "ty"]
      return .binary (← r.required? "op" BinaryOp.ofJson?) (← r.required? "lhs" (ofJsonAt? budget))
        (← r.required? "rhs" (ofJsonAt? budget)) (← r.required? "ty" Ty.ofJson?)
    | ("Var", v) => (VarRef.ofJson? v).map .var
    | _ => none

def ofJson? (j : Json) : Option Expr :=
  ofJsonAt? (j.height + 1) j

end Expr

end ActorNet
