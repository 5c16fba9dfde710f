import ActorNet.Network.Literal

/-!
# Network descriptions

A description lists instances (name, actor class, literal parameters) and connections between their
ports. It is read from text, which gives every part a span, or from a document, which gives none.
-/

namespace ActorNet

/-- A range of bytes in a source text. -/
structure Span where
  start : Nat
  stop : Nat
deriving DecidableEq, Repr, Inhabited

/-- Named literals in order, each name once. -/
abbrev Params := List (String × Literal)

/-- The attribute that gives the size of a connection's buffer. -/
def bufferSizeAttribute : String := "bufferSize"

/-- An instance of an actor class. -/
structure InstanceDecl where
  id : String
  cls : String
  params : Params := []
  span : Option Span := none
deriving Inhabited

/-- A connection from an output port to an input port. -/
structure ConnectionDecl where
  src : String
  srcPort : String
  dst : String
  dstPort : String
  attributes : Params := []
  span : Option Span := none
deriving Inhabited

/-- A whole description. -/
structure NetworkDecl where
  name : String
  instances : List InstanceDecl := []
  connections : List ConnectionDecl := []
  span : Option Span := none
deriving Inhabited

/-! ## Documents -/

def Params.toJson (params : Params) : Json :=
  .obj (params.map fun (name, value) => (name, value.toJson))

def Params.ofJson? : Json → Option Params :=
  Json.mapOf? Literal.ofJson?

namespace InstanceDecl

def toJson (i : InstanceDecl) : Json :=
  .obj [("id", .str i.id), ("class", .str i.cls), ("params", Params.toJson i.params)]

def ofJson? (j : Json) : Option InstanceDecl := do
  let r ← j.record? ["id", "class", "params"]
  return {
    id := ← r.required? "id" Json.asString?
    cls := ← r.required? "class" Json.asString?
    params := ← r.defaulting? "params" [] Params.ofJson? }

end InstanceDecl

namespace ConnectionDecl

def toJson (c : ConnectionDecl) : Json :=
  .obj ([("src", .str c.src), ("src-port", .str c.srcPort), ("dst", .str c.dst), ("dst-port", .str c.dstPort)]
    ++ if c.attributes.isEmpty then [] else [("attributes", Params.toJson c.attributes)])

def ofJson? (j : Json) : Option ConnectionDecl := do
  let r ← j.record? ["src", "src-port", "dst", "dst-port", "attributes"]
  return {
    src := ← r.required? "src" Json.asString?
    srcPort := ← r.required? "src-port" Json.asString?
    dst := ← r.required? "dst" Json.asString?
    dstPort := ← r.required? "dst-port" Json.asString?
    attributes := ← r.defaulting? "attributes" [] Params.ofJson? }

end ConnectionDecl

namespace NetworkDecl

def toJson (n : NetworkDecl) : Json :=
  .obj [("name", .str n.name), ("instances", .arr (n.instances.map InstanceDecl.toJson)),
    ("connections", .arr (n.connections.map ConnectionDecl.toJson))]

def ofJson? (j : Json) : Option NetworkDecl := do
  let r ← j.record? ["name", "instances", "connections"]
  return {
    name := ← r.required? "name" Json.asString?
    instances := ← r.defaulting? "instances" [] (Json.listOf? InstanceDecl.ofJson?)
    connections := ← r.defaulting? "connections" [] (Json.listOf? ConnectionDecl.ofJson?) }

end NetworkDecl

end ActorNet
