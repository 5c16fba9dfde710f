import ActorNet.Decimal.Shortest
import ActorNet.Handle
import ActorNet.Ty.Text

/-!
# Values

What variables hold while procedures run, how integers are kept within the width of their type, and
how values are converted to another type. Integers are signed 64-bit words whatever their type.
-/

namespace ActorNet

inductive Value where
  | bool (b : Bool)
  | int (n : Int64)
  | float (x : Float)
  | str (s : String)
  | list (items : List Value)
deriving Inhabited

/-- Why a run fails. -/
inductive Fault where
  | unbound (proc var : String)
  | mismatch (proc expected found : String)
  | index (proc : String) (index : Int64) (length : Nat)
  | detachedPhi (proc target : String)
  | callDepth (limit : Nat)
  | stepLimit (limit : Nat)
  | unknownProc (id : ProcId)
  | unknownAction (id : ActionId)
  | native (proc : String)
  | arity (proc : String) (expected found : Nat)
deriving DecidableEq, Repr

def Fault.message : Fault → String
  | unbound proc var => "in '" ++ proc ++ "': variable '" ++ var ++ "' read before it is bound"
  | mismatch proc expected found => "in '" ++ proc ++ "': expected " ++ expected ++ ", found " ++ found
  | index proc i length =>
    "in '" ++ proc ++ "': index " ++ toString i.toInt ++ " out of range for length " ++ toString length
  | detachedPhi proc target =>
    "in '" ++ proc ++ "': phi for '" ++ target ++ "' has no operand for the path taken"
  | callDepth limit => "call depth exceeds " ++ toString limit
  | stepLimit limit => "execution exceeds " ++ toString limit ++ " steps"
  | unknownProc id => "unknown procedure " ++ id.text
  | unknownAction id => "unknown action " ++ id.text
  | native proc => "procedure '" ++ proc ++ "' is native and has no body"
  | arity proc expected found =>
    "'" ++ proc ++ "' takes " ++ toString expected ++ " argument(s), got " ++ toString found

namespace Value

def kind : Value → String
  | bool _ => "bool"
  | int _ => "int"
  | float _ => "float"
  | str _ => "string"
  | list _ => "list"

/-- The value of a type that nothing was stored to. -/
def zero : Ty → Value
  | .bool => bool false
  | .float => float 0
  | .string => str ""
  | .list 0 _ => list []
  | .list (n + 1) elem => list (List.replicate (n + 1) (zero elem))
  | _ => int 0

mutual

def text : Value → String
  | bool true => "true"
  | bool false => "false"
  | int n => toString n.toInt
  | float x => Decimal.ofBits x.toBits
  | str s => Text.quote s
  | list items => "[" ++ String.intercalate ", " (texts items) ++ "]"

def texts : List Value → List String
  | [] => []
  | v :: rest => v.text :: texts rest

end

/-! ## Integers -/

/-- Keep a word within the width of an integer type. A signed type shifts the bits above its width
out and its own sign back in, an unsigned one masks them off. Types that are as wide as a word, or
no integers, leave it alone. The mask of 63 bits is the one that cannot be computed without going
past the least word: `2 ^ 63` is already negative, and one less wraps around. -/
def wrap (n : Int64) : Ty → Int64
  | .int w =>
    if 0 < w ∧ w < 64 then (n <<< Int64.ofNat (64 - w)) >>> Int64.ofNat (64 - w) else n
  | .uint w => if 0 < w ∧ w < 64 then n &&& ((1 <<< Int64.ofNat w) - 1) else n
  | _ => n

/-! ## Conversion -/

def mismatch (proc expected : String) (found : Value) : Fault :=
  .mismatch proc expected found.kind

mutual

def convert (proc : String) : Value → Ty → Except Fault Value
  | int n, .int w => .ok (int (wrap n (.int w)))
  | int n, .uint w => .ok (int (wrap n (.uint w)))
  | int n, .float => .ok (float n.toFloat)
  | int n, .bool => .ok (bool (n ≠ 0))
  | bool b, .int _ => .ok (int (if b then 1 else 0))
  | bool b, .uint _ => .ok (int (if b then 1 else 0))
  | bool b, .bool => .ok (bool b)
  | float x, .int w => .ok (int (wrap x.toInt64 (.int w)))
  | float x, .uint w => .ok (int (wrap x.toInt64 (.uint w)))
  | float x, .float => .ok (float x)
  | str s, .string => .ok (str s)
  | list items, .list _ elem => (convertAll proc items elem).map list
  | v, _ => .error (mismatch proc "a convertible value" v)

def convertAll (proc : String) : List Value → Ty → Except Fault (List Value)
  | [], _ => .ok []
  | v :: rest, ty => do return (← v.convert proc ty) :: (← convertAll proc rest ty)

end

/-! ## Elements of lists -/

/-- The position that an index names in a list, if it is one. -/
def position? (index : Int64) (length : Nat) : Option Nat :=
  if 0 ≤ index.toInt ∧ index.toInt < length then some index.toInt.toNat else none

def element (proc : String) (v : Value) (index : Int64) : Except Fault Value :=
  match v with
  | list items =>
    match (position? index items.length).bind (items[·]?) with
    | some item => .ok item
    | none => .error (.index proc index items.length)
  | other => .error (mismatch proc "list" other)

/-- The value with the part under an index path replaced. -/
def storeAt (proc : String) (whole : Value) (path : List Int64) (value : Value) : Except Fault Value :=
  match path with
  | [] => .ok value
  | index :: rest =>
    match whole with
    | list items =>
      match position? index items.length with
      | some i =>
        match items[i]? with
        | some item => do return list (items.set i (← storeAt proc item rest value))
        | none => .error (.index proc index items.length)
      | none => .error (.index proc index items.length)
    | other => .error (mismatch proc "list" other)

end Value

end ActorNet
