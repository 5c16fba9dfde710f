import ActorNet.Arena
import ActorNet.Proc.Inst

/-!
# Procedures

A procedure owns its locals, nodes and instructions in slot tables. Nodes are blocks of
instructions, conditionals and loops; they stand in node lists, of which the procedure has one and
every conditional and loop its own. A conditional and a loop also own a join, a block that holds
nothing but phis.

Changing a procedure is an `Edit`: it works on the procedure as state and may fail. A failing edit
keeps what it has done before the failure.
-/

namespace ActorNet

/-- A control-flow node. -/
inductive Node where
  | block (insts : List InstId)
  | branch (condition : Expr) (thenNodes elseNodes : List NodeId) (join : NodeId)
  | loop (condition : Expr) (body : List NodeId) (join : NodeId)
deriving Inhabited

namespace Node

def isBlock : Node → Bool
  | block _ => true
  | _ => false

def join? : Node → Option NodeId
  | branch _ _ _ join => some join
  | loop _ _ join => some join
  | block _ => none

def condition? : Node → Option Expr
  | branch condition _ _ _ => some condition
  | loop condition _ _ => some condition
  | block _ => none

def children : Node → List NodeId
  | block _ => []
  | branch _ thenNodes elseNodes join => thenNodes ++ elseNodes ++ [join]
  | loop _ body join => body ++ [join]

end Node

/-- One of the node lists of a procedure. -/
inductive NodeList where
  | body
  | thenOf (node : NodeId)
  | elseOf (node : NodeId)
  | bodyOf (node : NodeId)
deriving DecidableEq, Repr, Inhabited

/-- The node that owns a list. The list of the procedure itself belongs to a node number that is
never given. -/
def NodeList.owner : NodeList → NodeId
  | body => ⟨Text.word32Max⟩
  | thenOf node => node
  | elseOf node => node
  | bodyOf node => node

structure Procedure where
  name : String
  params : List LocalId := []
  returnTy : Ty
  /-- Implemented elsewhere: it has no body and is never changed. -/
  native : Bool := false
  locals : Arena Variable := {}
  nodes : Arena Node := {}
  insts : Arena InstData := {}
  body : List NodeId := []
  /-- The number that the name of the next temporary ends in, unless it is taken. -/
  nextTemp : Nat := 0
deriving Inhabited

/-- What callers know about a procedure. -/
structure Signature where
  name : String
  params : List Ty
  returnTy : Ty
deriving DecidableEq, Repr, Inhabited

/-! ## Errors -/

/-- What can be wrong with the structure of a procedure. -/
inductive ProcFault where
  | staleNode (node : NodeId)
  | staleInst (inst : InstId)
  | notABlock (node : NodeId)
  | staleLocal (id : LocalId)
  | badBackReference (inst : InstId) (listed recorded : NodeId)
  | sharedNode (node : NodeId)
  | sharedInst (inst : InstId)
  | nonPhiInJoin (join : NodeId) (inst : InstId)
deriving DecidableEq, Repr

/-- A fault and the name of the procedure that has it. -/
structure ProcError where
  proc : String
  fault : ProcFault
deriving DecidableEq, Repr

def ProcFault.message : ProcFault → String
  | staleNode node => "stale node handle " ++ node.text
  | staleInst inst => "stale instruction handle " ++ inst.text
  | notABlock node => "node " ++ node.text ++ " is not a block"
  | staleLocal id => "stale local " ++ id.text
  | badBackReference inst listed recorded =>
    "instruction " ++ inst.text ++ " is listed in " ++ listed.text ++ " but records block " ++ recorded.text
  | sharedNode node => "node " ++ toString node.index ++ " is contained more than once"
  | sharedInst inst => "instruction " ++ toString inst.index ++ " is contained more than once"
  | nonPhiInJoin join inst => "join node " ++ join.text ++ " holds a non-phi instruction " ++ inst.text

def ProcError.message (e : ProcError) : String :=
  e.proc ++ ": " ++ e.fault.message

/-- A change of a procedure that may fail and keeps what it did before it failed. -/
abbrev Edit := ExceptT ProcError (StateM Procedure)

def Edit.fail {α : Type} (fault : ProcFault) : Edit α := do
  throw ⟨(← get).name, fault⟩

namespace Procedure

/-! ## Queries -/

def local? (p : Procedure) (id : LocalId) : Option Variable :=
  p.locals.get? id.index

def localName (p : Procedure) (id : LocalId) : String :=
  match p.local? id with
  | some v => v.displayName
  | none => id.text

def node? (p : Procedure) (id : NodeId) : Option Node :=
  p.nodes.get? id.index

def inst? (p : Procedure) (id : InstId) : Option InstData :=
  p.insts.get? id.index

def isParam (p : Procedure) (id : LocalId) : Bool :=
  p.params.contains id

def isBlock (p : Procedure) (id : NodeId) : Bool :=
  match p.node? id with
  | some node => node.isBlock
  | none => false

def join? (p : Procedure) (id : NodeId) : Option NodeId :=
  (p.node? id).bind Node.join?

/-- The instructions of a block, in order; none for other nodes. -/
def blockInsts (p : Procedure) (id : NodeId) : List InstId :=
  match p.node? id with
  | some (.block insts) => insts
  | _ => []

def listNodes (p : Procedure) : NodeList → List NodeId
  | .body => p.body
  | .thenOf id =>
    match p.node? id with
    | some (.branch _ thenNodes _ _) => thenNodes
    | _ => []
  | .elseOf id =>
    match p.node? id with
    | some (.branch _ _ elseNodes _) => elseNodes
    | _ => []
  | .bodyOf id =>
    match p.node? id with
    | some (.loop _ body _) => body
    | _ => []

def updateList? (p : Procedure) (list : NodeList) (f : List NodeId → List NodeId) : Option Procedure :=
  match list with
  | .body => some { p with body := f p.body }
  | .thenOf id =>
    match p.node? id with
    | some (.branch c t e j) => some { p with nodes := p.nodes.modify id.index fun _ => .branch c (f t) e j }
    | _ => none
  | .elseOf id =>
    match p.node? id with
    | some (.branch c t e j) => some { p with nodes := p.nodes.modify id.index fun _ => .branch c t (f e) j }
    | _ => none
  | .bodyOf id =>
    match p.node? id with
    | some (.loop c b j) => some { p with nodes := p.nodes.modify id.index fun _ => .loop c (f b) j }
    | _ => none

def localEntries (p : Procedure) : List (LocalId × Variable) :=
  p.locals.entries.map fun (i, v) => (⟨i⟩, v)

/-- What callers know about the procedure. Parameters without a local are left out. -/
def signature (p : Procedure) : Signature :=
  ⟨p.name, p.params.filterMap fun id => (p.local? id).map (·.ty), p.returnTy⟩

def var? (p : Procedure) (globals : List Variable) : VarRef → Option Variable
  | .loc id => p.local? id
  | .glob id => globals[id.index]?

def scope (p : Procedure) (globals : List Variable) : Scope :=
  { ty? := fun v => (p.var? globals v).map (·.ty)
    name := fun v => match p.var? globals v with
      | some known => known.displayName
      | none => v.text }

/-! ## Locals -/

def addLocal (v : Variable) : Edit LocalId :=
  modifyGet fun p => (⟨p.locals.size⟩, { p with locals := p.locals.push v })

def addParam (v : Variable) : Edit LocalId := do
  let id ← addLocal v
  modify fun p => { p with params := p.params ++ [id] }
  return id

def tempName (hint : String) (n : Nat) : String :=
  hint ++ "_" ++ toString n

def hasLocation (p : Procedure) (name : String) : Bool :=
  p.locals.values.any fun v => v.name = name && v.suffix = none

/-- The first number from `nextTemp` on whose name is free. Among one more number than there are
locals, one is. -/
def freeTemp (p : Procedure) (hint : String) : Nat :=
  let tries := (List.range (p.locals.size + 1)).map (p.nextTemp + ·)
  (tries.find? fun n => !p.hasLocation (tempName hint n)).getD p.nextTemp

def newTemp (ty : Ty) (hint : String) : Edit LocalId := do
  let p ← get
  let n := p.freeTemp hint
  set { p with nextTemp := n + 1 }
  addLocal { name := tempName hint n, ty := ty }

def removeLocal (id : LocalId) : Edit (Option Variable) :=
  modifyGet fun p => (p.local? id, { p with locals := p.locals.erase id.index })

def retype (id : LocalId) (ty : Ty) : Edit Unit :=
  modify fun p => { p with locals := p.locals.modify id.index fun v => { v with ty := ty } }

end Procedure

end ActorNet
