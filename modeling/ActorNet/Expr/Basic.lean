import ActorNet.Handle
import ActorNet.Ty.Text

/-!
# Expressions

Expressions are trees over constants and variables. Every operation carries its type; a variable has
the type it is declared with, which a `Scope` knows.

* `Expr.uses`: the variables an expression reads, from left to right.
* `Expr.replaceVar`: substitution of one variable for another.
* `Expr.zero?`: the constant of a type that stands for "not set yet".
-/

namespace ActorNet

/-- A reference to a variable: a local one or a state variable. -/
inductive VarRef where
  | loc (id : LocalId)
  | glob (id : GlobalId)
deriving DecidableEq, Repr, Inhabited

namespace VarRef

def local? : VarRef → Option LocalId
  | loc id => some id
  | glob _ => none

def global? : VarRef → Option GlobalId
  | glob id => some id
  | loc _ => none

/-- How a reference is shown when its variable is not known. -/
def text : VarRef → String
  | loc id => "Local(LocalId(" ++ toString id.index ++ "))"
  | glob id => "Global(GlobalId(" ++ toString id.index ++ "))"

end VarRef

/-- What is known about the variables that an expression mentions. -/
structure Scope where
  ty? : VarRef → Option Ty
  name : VarRef → String

/-! ## Operators -/

inductive UnaryOp where
  | not
  | minus
  | bitNot
deriving DecidableEq, Repr, Inhabited

def UnaryOp.symbol : UnaryOp → String
  | not => "!"
  | minus => "-"
  | bitNot => "~"

inductive BinaryOp where
  | add
  | sub
  | mul
  | div
  | mod
  | bitAnd
  | bitOr
  | bitXor
  | shl
  | shr
  | and
  | or
  | eq
  | ne
  | lt
  | le
  | gt
  | ge
deriving DecidableEq, Repr, Inhabited

namespace BinaryOp

def symbol : BinaryOp → String
  | add => "+"
  | sub => "-"
  | mul => "*"
  | div => "/"
  | mod => "%"
  | bitAnd => "&"
  | bitOr => "|"
  | bitXor => "^"
  | shl => "<<"
  | shr => ">>"
  | and => "&&"
  | or => "||"
  | eq => "=="
  | ne => "!="
  | lt => "<"
  | le => "<="
  | gt => ">"
  | ge => ">="

def isComparison : BinaryOp → Bool
  | eq | ne | lt | le | gt | ge => true
  | _ => false

def isLogical : BinaryOp → Bool
  | and | or => true
  | _ => false

end BinaryOp

/-! ## Expressions -/

inductive Expr where
  | bool (b : Bool)
  | int (value : Int64) (ty : Ty)
  | str (s : String)
  | list (elems : List Expr) (ty : Ty)
  | unary (op : UnaryOp) (expr : Expr) (ty : Ty)
  | binary (op : BinaryOp) (lhs rhs : Expr) (ty : Ty)
  | var (v : VarRef)
deriving Inhabited

namespace Expr

def negate (e : Expr) : Expr :=
  .unary .not e .bool

def both (a b : Expr) : Expr :=
  .binary .and a b .bool

/-- The largest zero constant that is built, in scalars. -/
def maxZeroScalars : Nat := 65536

/-- The zero of a type, whatever its size. The zero of an integer, of a float and of `void` is the
integer zero with that type. The zero of an empty list does not need that of its element type, which
may be too large to build. -/
def zeroOf : Ty → Expr
  | .bool => .bool false
  | .string => .str ""
  | .list 0 elem => .list [] (.list 0 elem)
  | .list (n + 1) elem => .list (List.replicate (n + 1) (zeroOf elem)) (.list (n + 1) elem)
  | ty => .int 0 ty

/-- The zero of a type, unless it has too many scalars. -/
def zero? (ty : Ty) : Option Expr :=
  if ty.scalars > maxZeroScalars then none else some (zeroOf ty)

def var? : Expr → Option VarRef
  | .var v => some v
  | _ => none

mutual

def isLiteral : Expr → Bool
  | .bool _ => true
  | .int _ _ => true
  | .str _ => true
  | .list elems _ => areLiterals elems
  | _ => false

def areLiterals : List Expr → Bool
  | [] => true
  | e :: rest => e.isLiteral && areLiterals rest

end

def ty? (scope : Scope) : Expr → Option Ty
  | .bool _ => some .bool
  | .str _ => some .string
  | .int _ ty => some ty
  | .list _ ty => some ty
  | .unary _ _ ty => some ty
  | .binary _ _ _ ty => some ty
  | .var v => scope.ty? v

mutual

def uses : Expr → List VarRef
  | .list elems _ => usesOf elems
  | .unary _ e _ => e.uses
  | .binary _ lhs rhs _ => lhs.uses ++ rhs.uses
  | .var v => [v]
  | _ => []

def usesOf : List Expr → List VarRef
  | [] => []
  | e :: rest => e.uses ++ usesOf rest

end

def mentions (e : Expr) (v : VarRef) : Bool :=
  e.uses.contains v

end Expr

def VarRef.replace (old new v : VarRef) : VarRef × Nat :=
  if v = old then (new, 1) else (v, 0)

namespace Expr

mutual

/-- Read `new` wherever the expression reads `old`, and count the changes. -/
def replaceVar (old new : VarRef) : Expr → Expr × Nat
  | .list elems ty =>
    let (elems, n) := replaceVars old new elems
    (.list elems ty, n)
  | .unary op e ty =>
    let (e, n) := e.replaceVar old new
    (.unary op e ty, n)
  | .binary op lhs rhs ty =>
    let (lhs, m) := lhs.replaceVar old new
    let (rhs, n) := rhs.replaceVar old new
    (.binary op lhs rhs ty, m + n)
  | .var v =>
    let (v, n) := VarRef.replace old new v
    (.var v, n)
  | e => (e, 0)

def replaceVars (old new : VarRef) : List Expr → List Expr × Nat
  | [] => ([], 0)
  | e :: rest =>
    let (e, m) := e.replaceVar old new
    let (rest, n) := replaceVars old new rest
    (e :: rest, m + n)

end

mutual

/-- The text of an expression, every operation with two operands in parentheses. -/
def text (scope : Scope) : Expr → String
  | .bool true => "true"
  | .bool false => "false"
  | .int value _ => toString value.toInt
  | .str s => Text.quote s
  | .list elems _ => "[" ++ String.intercalate ", " (texts scope elems) ++ "]"
  | .unary op e _ => op.symbol ++ e.text scope
  | .binary op lhs rhs _ => "(" ++ lhs.text scope ++ " " ++ op.symbol ++ " " ++ rhs.text scope ++ ")"
  | .var v => scope.name v

def texts (scope : Scope) : List Expr → List String
  | [] => []
  | e :: rest => e.text scope :: texts scope rest

end

end Expr

end ActorNet
