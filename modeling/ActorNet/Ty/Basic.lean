import ActorNet.Text

/-!
# Value types

The types of variables, expressions and ports: a closed set that compares structurally. Two types of
one class differ at most in their width.
-/

namespace ActorNet

/-- A value type. -/
inductive Ty where
  | bool
  | int (width : Nat)
  /-- An unsigned integer of the given width in bits. -/
  | uint (width : Nat)
  | float
  | string
  | void
  | list (size : Nat) (elem : Ty)
deriving DecidableEq, Repr, Inhabited

/-- The representation class of a type. -/
inductive TyClass where
  | bool
  | int
  | uint
  | float
  | string
  | void
  | list
deriving DecidableEq, Repr

namespace Ty

def cls : Ty → TyClass
  | bool => .bool
  | int _ => .int
  | uint _ => .uint
  | float => .float
  | string => .string
  | void => .void
  | list _ _ => .list

/-- The storage width in bits. A list counts all its elements; the count stops at the largest 32-bit
word. -/
def bits : Ty → Nat
  | bool => 1
  | int width => width
  | uint width => width
  | float => 32
  | string => 0
  | void => 0
  | list size elem => min (size * elem.bits) Text.word32Max

/-- The number of scalars in a value; the count stops at the largest 64-bit word. -/
def scalars : Ty → Nat
  | list size elem => min (size * elem.scalars) Text.word64Max
  | _ => 1

def elem? : Ty → Option Ty
  | list _ elem => some elem
  | _ => none

def elemAt? : Nat → Ty → Option Ty
  | 0, ty => some ty
  | depth + 1, list _ elem => elemAt? depth elem
  | _ + 1, _ => none

def isList : Ty → Bool
  | list _ _ => true
  | _ => false

/-- Whether a value must be converted before it can stand where `required` is expected: its class or
its width differs. -/
def needsCast (ty required : Ty) : Bool :=
  ty.cls ≠ required.cls || ty.bits ≠ required.bits

/-- The least upper bound of two types. Integers of one signedness widen to the larger width, mixed
ones to a signed type that holds both ranges, lists widen in size and element. Widths are words of
32 bits: one more than the last of them is zero. -/
def lub : Ty → Ty → Option Ty
  | int a, int b => some (int (max a b))
  | uint a, uint b => some (uint (max a b))
  | int i, uint u => some (int (max i ((u + 1) % 4294967296)))
  | uint u, int i => some (int (max i ((u + 1) % 4294967296)))
  | list m s, list n t => (lub s t).map (list (max m n))
  | a, b => if a = b then some a else none

end Ty

end ActorNet
