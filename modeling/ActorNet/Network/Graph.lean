import ActorNet.Diagnostic
import ActorNet.Network.Grammar
import ActorNet.Network.Registry

/-!
# Networks

A network is a directed multigraph of actor instances, built from a description and checked against
the known classes. Structure and references are checked in document order while the graph is built;
the types of connected ports are compared only once the whole graph stands.

* `Network.build`: build and check a description.
* `Network.toDecl`: the description of a network.
-/

namespace ActorNet

/-- Why a description is no network. -/
inductive NetworkError where
  | parse (message : String) (span : Option Span)
  | emptyAttribute (element field : String) (span : Option Span)
  | duplicateInstance (id : String) (span : Option Span)
  | emptyNetwork (name : String)
  | unknownClass (inst cls : String) (span : Option Span)
  | mixedList (inst param : String) (span : Option Span)
  | noSuchInstance (id : String) (span : Option Span)
  | noSuchSourcePort (inst port : String) (span : Option Span)
  | noSuchTargetPort (inst port : String) (span : Option Span)
  | badBufferSize (value : String) (span : Option Span)
  | typeMismatch (source : String) (sourceTy : Ty) (target : String) (targetTy : Ty) (span : Option Span)
deriving DecidableEq, Repr

namespace NetworkError

def message : NetworkError → String
  | parse message _ => message
  | emptyAttribute element field _ =>
    "a " ++ element ++ " element must have a valid non-empty \"" ++ field ++ "\" attribute"
  | duplicateInstance id _ => "duplicate instance id \"" ++ id ++ "\""
  | emptyNetwork name => "network \"" ++ name ++ "\" must contain at least one instance"
  | unknownClass inst cls _ => "instance \"" ++ inst ++ "\" refers to unknown actor class \"" ++ cls ++ "\""
  | mixedList inst param _ =>
    "parameter \"" ++ param ++ "\" of instance \"" ++ inst ++ "\" is a list of mixed kinds"
  | noSuchInstance id _ => "a connection refers to a non-existent instance: \"" ++ id ++ "\""
  | noSuchSourcePort inst port _ =>
    "a connection refers to a non-existent source port: \"" ++ inst ++ "." ++ port ++ "\""
  | noSuchTargetPort inst port _ =>
    "a connection refers to a non-existent target port: \"" ++ inst ++ "." ++ port ++ "\""
  | badBufferSize value _ => "FIFO size: expected an integer, got: " ++ value
  | typeMismatch source sourceTy target targetTy _ =>
    "type error: " ++ source ++ " is " ++ sourceTy.text ++ ", " ++ target ++ " is " ++ targetTy.text

def code : NetworkError → DiagCode
  | parse _ _ => .syntaxError
  | emptyAttribute _ _ _ => .emptyAttribute
  | duplicateInstance _ _ => .duplicateInstance
  | emptyNetwork _ => .emptyNetwork
  | unknownClass _ _ _ => .unknownClass
  | mixedList _ _ _ => .mixedList
  | noSuchInstance _ _ => .noSuchInstance
  | noSuchSourcePort _ _ _ => .noSuchSourcePort
  | noSuchTargetPort _ _ _ => .noSuchTargetPort
  | badBufferSize _ _ => .badBufferSize
  | typeMismatch _ _ _ _ _ => .typeMismatch

def span : NetworkError → Option Span
  | emptyNetwork _ => none
  | parse _ span => span
  | emptyAttribute _ _ span => span
  | duplicateInstance _ span => span
  | unknownClass _ _ span => span
  | mixedList _ _ span => span
  | noSuchInstance _ span => span
  | noSuchSourcePort _ _ span => span
  | noSuchTargetPort _ _ span => span
  | badBufferSize _ span => span
  | typeMismatch _ _ _ _ span => span

/-- What to do about the error, where there is a rule. -/
def hint : NetworkError → Option String
  | typeMismatch _ _ _ _ _ => some "insert a conversion actor between the two ports"
  | unknownClass _ _ _ => some "pass the class interface with --registry"
  | _ => none

def diagnostic (e : NetworkError) : Diagnostic :=
  { code := some e.code, span := e.span, message := e.message, hint := e.hint }

end NetworkError

structure Instance where
  id : String
  cls : String
  params : Params
deriving Inhabited

/-- A buffered channel from an output port to an input port. Instances are named by their
position. -/
structure Connection where
  source : Nat
  sourcePort : Port
  target : Nat
  targetPort : Port
  bufferSize : Option Nat
  attributes : Params
  span : Option Span
deriving Inhabited

/-- A network. Parallel connections are kept apart. -/
structure Network where
  name : String
  instances : List Instance
  connections : List Connection
deriving Inhabited

namespace Network

/-! ## Queries -/

/-- The position of the instance with the given name. -/
def indexOf? (n : Network) (id : String) : Option Nat :=
  n.instances.findIdx? (·.id = id)

def nameOf (n : Network) (index : Nat) : String :=
  match n.instances[index]? with
  | some i => i.id
  | none => "?"

/-- The source end of a connection, as `instance.port`. -/
def sourceText (n : Network) (c : Connection) : String :=
  n.nameOf c.source ++ "." ++ c.sourcePort.name

/-- The target end of a connection, as `instance.port`. -/
def targetText (n : Network) (c : Connection) : String :=
  n.nameOf c.target ++ "." ++ c.targetPort.name

def outgoing (n : Network) (index : Nat) : List Connection :=
  n.connections.filter (·.source = index)

def incoming (n : Network) (index : Nat) : List Connection :=
  n.connections.filter (·.target = index)

/-- The description of a network, without spans. -/
def toDecl (n : Network) : NetworkDecl :=
  { name := n.name
    instances := n.instances.map fun i => ⟨i.id, i.cls, i.params, none⟩
    connections := n.connections.map fun c =>
      ⟨n.nameOf c.source, c.sourcePort.name, n.nameOf c.target, c.targetPort.name, c.attributes, none⟩ }

/-- A summary of the network: a heading, its instances and its connections, each on a line. -/
def text (n : Network) : String :=
  let heading := "network " ++ n.name ++ ": " ++ toString n.instances.length ++ " instance(s), "
    ++ toString n.connections.length ++ " connection(s)\n"
  let instances := n.instances.map fun i => "  " ++ i.id ++ ": " ++ i.cls ++ "\n"
  let connections := n.connections.map fun c =>
    let buffer := match c.bufferSize with
      | some size => " (" ++ bufferSizeAttribute ++ " = " ++ toString size ++ ")"
      | none => ""
    "  " ++ n.sourceText c ++ " -> " ++ n.targetText c ++ " [" ++ c.sourcePort.ty.text ++ "]" ++ buffer ++ "\n"
  heading ++ String.join instances ++ String.join connections

/-! ## Construction -/

def require (value element field : String) (span : Option Span) : Except NetworkError Unit :=
  if value = "" then .error (.emptyAttribute element field span) else .ok ()

/-- Check the parameters of an instance in order: names, then kinds. -/
def checkParams (i : InstanceDecl) : Params → Except NetworkError Unit
  | [] => .ok ()
  | (name, value) :: rest => do
    require name "Parameter" "name" i.span
    if value.isHomogeneous then checkParams i rest else .error (.mixedList i.id name i.span)

def addInstance (registry : Registry) (seen : List Instance) (i : InstanceDecl) :
    Except NetworkError (List Instance) := do
  require i.id "Instance" "id" i.span
  require i.cls "Instance" "class" i.span
  if seen.any (·.id = i.id) then .error (.duplicateInstance i.id i.span)
  else
    checkParams i i.params
    match registry.lookup? i.cls with
    | none => .error (.unknownClass i.id i.cls i.span)
    | some _ => .ok (seen ++ [⟨i.id, i.cls, i.params⟩])

/-- The buffer size that attributes ask for: an unsigned 32-bit integer. -/
def bufferSize? (attributes : Params) (span : Option Span) : Except NetworkError (Option Nat) :=
  match attributes.lookup bufferSizeAttribute with
  | none => .ok none
  | some (.int n) =>
    if 0 ≤ n.toInt ∧ n.toInt ≤ Text.word32Max then .ok (some n.toInt.toNat)
    else .error (.badBufferSize (toString n.toInt) span)
  | some other => .error (.badBufferSize other.text span)

def resolve (registry : Registry) (instances : List Instance) (c : ConnectionDecl) :
    Except NetworkError Connection := do
  require c.src "Connection" "src" c.span
  require c.srcPort "Connection" "src-port" c.span
  require c.dst "Connection" "dst" c.span
  require c.dstPort "Connection" "dst-port" c.span
  let find := fun (id : String) =>
    match instances.findIdx? (·.id = id) with
    | some index => Except.ok index
    | none => .error (NetworkError.noSuchInstance id c.span)
  let source ← find c.src
  let target ← find c.dst
  let classOf := fun (index : Nat) => instances[index]?.bind fun i => registry.lookup? i.cls
  let sourcePort ← match (classOf source).bind (·.output? c.srcPort) with
    | some port => Except.ok port
    | none => .error (.noSuchSourcePort c.src c.srcPort c.span)
  let targetPort ← match (classOf target).bind (·.input? c.dstPort) with
    | some port => Except.ok port
    | none => .error (.noSuchTargetPort c.dst c.dstPort c.span)
  let bufferSize ← bufferSize? c.attributes c.span
  return ⟨source, sourcePort, target, targetPort, bufferSize, c.attributes, c.span⟩

def checkTypes (n : Network) : List Connection → Except NetworkError Unit
  | [] => .ok ()
  | c :: rest =>
    if c.sourcePort.ty = c.targetPort.ty then n.checkTypes rest
    else .error (.typeMismatch (n.sourceText c) c.sourcePort.ty (n.targetText c) c.targetPort.ty c.span)

/-- Build the network of a description and check it. The first violation is the answer. -/
def build (decl : NetworkDecl) (registry : Registry) : Except NetworkError Network := do
  require decl.name "Network" "name" decl.span
  let instances ← decl.instances.foldlM (addInstance registry) []
  if instances.isEmpty then .error (.emptyNetwork decl.name)
  else
    let connections ← decl.connections.mapM (resolve registry instances)
    let network : Network := ⟨decl.name, instances, connections⟩
    network.checkTypes connections
    return network

def ofText (source : String) (registry : Registry) : Except NetworkError Network :=
  let parsed := parse source
  match parsed.errors, parsed.network with
  | e :: _, _ => .error (.parse e.message (some e.span))
  | [], none => .error (.parse "empty network description" none)
  | [], some decl => build decl registry

end Network

end ActorNet
