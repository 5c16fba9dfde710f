import ActorNet.Expr.Document

/-!
# Variables and instructions

The instructions of procedures. A phi stands in the join of a conditional or a loop and picks an
operand by the edge on which control came in; once it is moved out of its join, its operands carry
guards instead.
-/

namespace ActorNet

/-! ## Variables -/

/-- A variable: a local, a parameter or a state variable. Two variables are the same location if
they share name and suffix; the index tells the versions of a location apart. -/
structure Variable where
  name : String
  ty : Ty
  index : Nat := 0
  suffix : Option Nat := none
  assignable : Bool := true
  init : Option Expr := none
deriving Inhabited

namespace Variable

def sameLocation (a b : Variable) : Bool :=
  a.name = b.name && a.suffix = b.suffix

/-- The shown name: name and suffix, and the index if it is not zero. -/
def displayName (v : Variable) : String :=
  let suffix := match v.suffix with
    | some n => toString n
    | none => ""
  let index := if v.index = 0 then "" else "_" ++ toString v.index
  v.name ++ suffix ++ index

end Variable

/-! ## Instructions -/

/-- The edge on which control enters a join: from one of the branches of a conditional, into a loop
from before it, or from the end of its body. -/
inductive Edge where
  | thenEnd
  | elseEnd
  | entry
  | back
deriving DecidableEq, Repr, Inhabited

namespace Edge

/-- The position of an edge among the two edges of its construct. -/
def index : Edge → Nat
  | thenEnd => 0
  | entry => 0
  | elseEnd => 1
  | back => 1

def label : Edge → String
  | thenEnd => "then"
  | elseEnd => "else"
  | entry => "entry"
  | back => "back"

end Edge

structure PhiArm where
  edge : Edge
  var : VarRef
  /-- When the operand is picked, for a phi outside of a join. -/
  guard : Option Expr := none
deriving Inhabited

inductive Inst where
  | assign (target : LocalId) (value : Expr)
  | load (target : LocalId) (source : VarRef) (indexes : List Expr)
  /-- Write a variable, or an element of it if there are indexes. -/
  | store (target : VarRef) (indexes : List Expr) (value : Expr)
  | call (target : Option LocalId) (callee : ProcId) (args : List Expr)
  | phi (target : LocalId) (arms : List PhiArm)
  | ret (value : Option Expr)
  | cast (source : VarRef) (target : LocalId) (ty : Ty)
deriving Inhabited

def PhiArm.uses (arm : PhiArm) : List VarRef :=
  arm.var :: match arm.guard with
    | some guard => guard.uses
    | none => []

def PhiArm.replaceUse (old new : VarRef) (arm : PhiArm) : PhiArm × Nat :=
  let (var, m) := VarRef.replace old new arm.var
  match arm.guard with
  | some guard =>
    let (guard, n) := guard.replaceVar old new
    ({ arm with var := var, guard := some guard }, m + n)
  | none => ({ arm with var := var }, m)

namespace Inst

def def? : Inst → Option LocalId
  | assign target _ => some target
  | load target _ _ => some target
  | phi target _ => some target
  | cast _ target _ => some target
  | call target _ _ => target
  | store _ _ _ => none
  | ret _ => none

/-- Let an instruction define another local, if it defines one at all or is a call. -/
def setDef (id : LocalId) : Inst → Inst
  | assign _ value => assign id value
  | load _ source indexes => load id source indexes
  | phi _ arms => phi id arms
  | cast source _ ty => cast source id ty
  | call _ callee args => call (some id) callee args
  | i => i

def isPhi : Inst → Bool
  | phi _ _ => true
  | _ => false

def isReturn : Inst → Bool
  | ret _ => true
  | _ => false

def uses : Inst → List VarRef
  | assign _ value => value.uses
  | load _ source indexes => source :: Expr.usesOf indexes
  | store _ indexes value => Expr.usesOf indexes ++ value.uses
  | call _ _ args => Expr.usesOf args
  | phi _ arms => arms.flatMap PhiArm.uses
  | ret (some value) => value.uses
  | ret none => []
  | cast source _ _ => [source]

def writes? : Inst → Option VarRef
  | store target _ _ => some target
  | i => i.def?.map .loc

def mentions (i : Inst) (v : VarRef) : Bool :=
  i.writes? = some v || i.uses.contains v

def replaceArms (old new : VarRef) : List PhiArm → List PhiArm × Nat
  | [] => ([], 0)
  | arm :: rest =>
    let (arm, m) := arm.replaceUse old new
    let (rest, n) := replaceArms old new rest
    (arm :: rest, m + n)

/-- Read `new` wherever the instruction reads `old`, and count the changes. What it defines or
stores to stays. -/
def replaceUse (old new : VarRef) : Inst → Inst × Nat
  | assign target value =>
    let (value, n) := value.replaceVar old new
    (assign target value, n)
  | load target source indexes =>
    let (source, m) := VarRef.replace old new source
    let (indexes, n) := Expr.replaceVars old new indexes
    (load target source indexes, m + n)
  | store target indexes value =>
    let (indexes, m) := Expr.replaceVars old new indexes
    let (value, n) := value.replaceVar old new
    (store target indexes value, m + n)
  | call target callee args =>
    let (args, n) := Expr.replaceVars old new args
    (call target callee args, n)
  | phi target arms =>
    let (arms, n) := replaceArms old new arms
    (phi target arms, n)
  | ret (some value) =>
    let (value, n) := value.replaceVar old new
    (ret (some value), n)
  | ret none => (ret none, 0)
  | cast source target ty =>
    let (source, n) := VarRef.replace old new source
    (cast source target ty, n)

end Inst

/-- An instruction in its place. -/
structure InstData where
  inst : Inst
  block : NodeId
  /-- When the instruction runs; always, if there is none. -/
  predicate : Option Expr := none
deriving Inhabited

end ActorNet
