import ActorNet.Proc.Basic

/-!
# Well-formed procedures

A procedure is well formed if its nodes form a tree under the body, every listed instruction is
live, listed once and records its block, joins hold nothing but phis, and every local that an
instruction reads or defines is live.
-/

namespace ActorNet.Procedure

/-- The nodes still to be visited, each with whether it is a join, and the nodes and instructions
seen so far. -/
structure Visit where
  pending : List (NodeId × Bool)
  nodes : List NodeId := []
  insts : List InstId := []
deriving Repr, Inhabited

def staleLocal? (p : Procedure) (vars : List VarRef) : Option LocalId :=
  (vars.filterMap VarRef.local?).find? fun id => (p.local? id).isNone

/-- Check the instructions of a block, given those seen before; the answer adds them. -/
def verifyInsts (p : Procedure) (block : NodeId) (isJoin : Bool) (seen : List InstId) :
    List InstId → Except ProcFault (List InstId)
  | [] => .ok seen
  | id :: rest =>
    match p.inst? id with
    | none => .error (.staleInst id)
    | some data =>
      if seen.contains id then .error (.sharedInst id)
      else if data.block ≠ block then .error (.badBackReference id block data.block)
      else if isJoin && !data.inst.isPhi then .error (.nonPhiInJoin block id)
      else
        match p.staleLocal? (data.inst.uses ++ (data.inst.def?.map VarRef.loc).toList) with
        | some id => .error (.staleLocal id)
        | none => verifyInsts p block isJoin (id :: seen) rest

/-- Visit the node on top: its join is visited next, then its branches from the last node to the
first. -/
def verifyNode (p : Procedure) (v : Visit) (id : NodeId) (isJoin : Bool)
    (rest : List (NodeId × Bool)) : Except ProcFault Visit :=
  match p.node? id with
  | none => .error (.staleNode id)
  | some node =>
    if v.nodes.contains id then .error (.sharedNode id)
    else
      let nodes := id :: v.nodes
      match node with
      | .block insts => (verifyInsts p id isJoin v.insts insts).map fun insts => ⟨rest, nodes, insts⟩
      | .branch _ thenNodes elseNodes join =>
        .ok ⟨(join, true) :: ((thenNodes ++ elseNodes).reverse.map (·, false)) ++ rest, nodes, v.insts⟩
      | .loop _ body join => .ok ⟨(join, true) :: (body.reverse.map (·, false)) ++ rest, nodes, v.insts⟩

/-- Visit all pending nodes. Every visit that does not fail adds a live node to those seen, so there
are no more visits than nodes before one fails. -/
def verifyFrom (p : Procedure) : Nat → Visit → Except ProcFault Unit
  | fuel, v =>
    match v.pending, fuel with
    | [], _ => .ok ()
    | (id, _) :: _, 0 => .error (.sharedNode id)
    | (id, isJoin) :: rest, fuel + 1 =>
      match p.verifyNode v id isJoin rest with
      | .ok next => verifyFrom p fuel next
      | .error fault => .error fault

def verify (p : Procedure) : Except ProcError Unit :=
  let checked : Except ProcFault Unit := do
    p.verifyFrom (p.nodes.size + 1) { pending := p.body.reverse.map (·, false) }
    match p.staleLocal? (p.params.map VarRef.loc) with
    | some id => throw (.staleLocal id)
    | none => return ()
  checked.mapError (⟨p.name, ·⟩)

end ActorNet.Procedure
