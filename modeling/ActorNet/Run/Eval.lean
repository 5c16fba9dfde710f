import ActorNet.Expr.Basic
import ActorNet.Run.Value

/-!
# Evaluation of expressions

An expression is evaluated against a way to read variables. Both operands of an operator are
evaluated, the left one first, except that `&&` and `||` leave out their right operand if the left
one decides.
-/

namespace ActorNet

/-- How expressions read variables, and the procedure that faults are about. -/
structure Reader where
  proc : String
  read : VarRef → Except Fault Value

namespace Value

def toBool (proc : String) : Value → Except Fault Bool
  | bool b => .ok b
  | other => .error (mismatch proc "bool" other)

def toInt (proc : String) : Value → Except Fault Int64
  | int n => .ok n
  | other => .error (mismatch proc "int" other)

end Value

namespace UnaryOp

def apply (proc : String) (op : UnaryOp) (v : Value) (ty : Ty) : Except Fault Value :=
  match op, v with
  | not, .bool b => .ok (.bool !b)
  | minus, .int n => .ok (.int (Value.wrap (-n) ty))
  | minus, .float x => .ok (.float (-x))
  | bitNot, .int n => .ok (.int (Value.wrap (~~~n) ty))
  | not, other => .error (Value.mismatch proc "bool" other)
  | _, other => .error (Value.mismatch proc "int" other)

end UnaryOp

namespace BinaryOp

/-- Apply an operator to two integers. Shift amounts count modulo 64. -/
def applyInt (proc : String) (op : BinaryOp) (a b : Int64) (ty : Ty) : Except Fault Value :=
  match op with
  | eq => .ok (.bool (a = b))
  | ne => .ok (.bool (a ≠ b))
  | lt => .ok (.bool (a < b))
  | le => .ok (.bool (a ≤ b))
  | gt => .ok (.bool (b < a))
  | ge => .ok (.bool (b ≤ a))
  | add => .ok (.int (Value.wrap (a + b) ty))
  | sub => .ok (.int (Value.wrap (a - b) ty))
  | mul => .ok (.int (Value.wrap (a * b) ty))
  | div =>
    if b = 0 then .error (.mismatch proc "non-zero divisor" "zero") else .ok (.int (Value.wrap (a / b) ty))
  | mod =>
    if b = 0 then .error (.mismatch proc "non-zero divisor" "zero") else .ok (.int (Value.wrap (a % b) ty))
  | bitAnd => .ok (.int (Value.wrap (a &&& b) ty))
  | bitOr => .ok (.int (Value.wrap (a ||| b) ty))
  | bitXor => .ok (.int (Value.wrap (a ^^^ b) ty))
  | shl => .ok (.int (Value.wrap (a <<< b) ty))
  | shr => .ok (.int (Value.wrap (a >>> b) ty))
  | and => .error (.mismatch proc "bool" "int")
  | or => .error (.mismatch proc "bool" "int")

def applyFloat (proc : String) (op : BinaryOp) (a b : Float) : Except Fault Value :=
  match op with
  | eq => .ok (.bool (a == b))
  | ne => .ok (.bool (a != b))
  | lt => .ok (.bool (a < b))
  | le => .ok (.bool (a ≤ b))
  | gt => .ok (.bool (b < a))
  | ge => .ok (.bool (b ≤ a))
  | add => .ok (.float (a + b))
  | sub => .ok (.float (a - b))
  | mul => .ok (.float (a * b))
  | div => .ok (.float (a / b))
  | _ => .error (.mismatch proc "int" "float")

/-- Apply an operator to two values of one kind; the result has the given type. -/
def apply (proc : String) (op : BinaryOp) (l r : Value) (ty : Ty) : Except Fault Value :=
  match l, r with
  | .int a, .int b => op.applyInt proc a b ty
  | .float a, .float b => op.applyFloat proc a b
  | .bool a, .bool b =>
    if op = eq then .ok (.bool (a = b)) else if op = ne then .ok (.bool (a ≠ b))
    else .error (.mismatch proc "operands of one kind" "bool")
  | .str a, .str b =>
    if op = eq then .ok (.bool (a = b)) else if op = ne then .ok (.bool (a ≠ b))
    else .error (.mismatch proc "operands of one kind" "string")
  | l, _ => .error (Value.mismatch proc "operands of one kind" l)

end BinaryOp

namespace Expr

mutual

/-- The value of an expression. An integer constant of type `float` is a float. -/
def eval (r : Reader) : Expr → Except Fault Value
  | .bool b => .ok (.bool b)
  | .int value .float => .ok (.float value.toFloat)
  | .int value _ => .ok (.int value)
  | .str s => .ok (.str s)
  | .list elems _ => (evalAll r elems).map .list
  | .var v => r.read v
  | .unary op e ty => do op.apply r.proc (← e.eval r) ty
  | .binary op lhs rhs ty => do
    let l ← lhs.eval r
    match op with
    | .and => if ← l.toBool r.proc then return .bool (← (← rhs.eval r).toBool r.proc) else return .bool false
    | .or => if ← l.toBool r.proc then return .bool true else return .bool (← (← rhs.eval r).toBool r.proc)
    | _ => op.apply r.proc l (← rhs.eval r) ty

def evalAll (r : Reader) : List Expr → Except Fault (List Value)
  | [] => .ok []
  | e :: rest => do return (← e.eval r) :: (← evalAll r rest)

end

def evalBool (r : Reader) (e : Expr) : Except Fault Bool := do
  (← e.eval r).toBool r.proc

def evalInt (r : Reader) (e : Expr) : Except Fault Int64 := do
  (← e.eval r).toInt r.proc

end Expr

end ActorNet
