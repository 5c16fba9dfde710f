import ActorNet.Json.Reader
import ActorNet.Port

/-!
# Actor classes

The interfaces that network descriptions refer to: each class has typed input and output ports. A
registry holds classes in the order of their registration, each name once.
-/

namespace ActorNet

/-- The interface of an actor class. -/
structure ActorClass where
  name : String
  inputs : List Port := []
  outputs : List Port := []
deriving DecidableEq, Repr, Inhabited

namespace ActorClass

def input? (c : ActorClass) (name : String) : Option Port :=
  c.inputs.find? (·.name = name)

def output? (c : ActorClass) (name : String) : Option Port :=
  c.outputs.find? (·.name = name)

def toJson (c : ActorClass) : Json :=
  .obj [("name", .str c.name), ("inputs", .arr (c.inputs.map Port.toJson)),
    ("outputs", .arr (c.outputs.map Port.toJson))]

def ofJson? (j : Json) : Option ActorClass := do
  let r ← j.record? ["name", "inputs", "outputs"]
  return {
    name := ← r.required? "name" Json.asString?
    inputs := ← r.defaulting? "inputs" [] (Json.listOf? Port.ofJson?)
    outputs := ← r.defaulting? "outputs" [] (Json.listOf? Port.ofJson?) }

/-- The classes of an interface document: a list of classes, or else one class. Every part of the
document has to be readable, also what is skipped. -/
def documentOfJson? (j : Json) : Option (List ActorClass) :=
  if j.isReadable then
    match Json.listOf? ofJson? j with
    | some classes => some classes
    | none => (ofJson? j).map ([·])
  else none

end ActorClass

/-- Known classes, in the order of their registration. -/
structure Registry where
  classes : List ActorClass := []
deriving DecidableEq, Repr, Inhabited

/-- Why an interface document was not taken over completely. -/
inductive RegistryError where
  | malformed
  | duplicate (name : String)
deriving DecidableEq, Repr

def RegistryError.message : RegistryError → String
  | malformed => "not an interface document"
  | duplicate name => "duplicate actor class '" ++ name ++ "'"

namespace Registry

def lookup? (r : Registry) (name : String) : Option ActorClass :=
  r.classes.find? (·.name = name)

def register (r : Registry) (c : ActorClass) : Except RegistryError Registry :=
  if (r.lookup? c.name).isSome then .error (.duplicate c.name) else .ok ⟨r.classes ++ [c]⟩

/-- Add classes one after the other. The first name that is taken ends it; the classes before it
stay. -/
def registerAll (r : Registry) : List ActorClass → Except RegistryError Unit × Registry
  | [] => (.ok (), r)
  | c :: rest =>
    match r.register c with
    | .ok next => next.registerAll rest
    | .error e => (.error e, r)

def load (r : Registry) (text : String) : Except RegistryError Nat × Registry :=
  match (Json.parse? text).bind ActorClass.documentOfJson? with
  | none => (.error .malformed, r)
  | some classes =>
    let (outcome, next) := r.registerAll classes
    (outcome.map fun _ => classes.length, next)

def sorted (r : Registry) : List ActorClass :=
  r.classes.mergeSort fun a b => decide (a.name ≤ b.name)

/-- The compact document of all classes, which does not depend on the order of registration. -/
def canonical (r : Registry) : String :=
  (Json.arr (r.sorted.map ActorClass.toJson)).compact

end Registry

end ActorNet
