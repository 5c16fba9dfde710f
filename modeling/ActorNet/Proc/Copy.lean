import ActorNet.Proc.Edit

/-!
# Copying parts of procedures

A copy of a node either reads and writes the same variables, or gets a new version of every local
that is defined inside it.
-/

namespace ActorNet

/-- Which new handle stands for which old one. -/
structure CopyMap where
  nodes : List (NodeId × NodeId) := []
  insts : List (InstId × InstId) := []
  locals : List (LocalId × LocalId) := []
deriving Repr, Inhabited

/-- Set the partner of a key: in place if the key is there, else at the end. -/
def setPartner {α : Type} [DecidableEq α] (key value : α) : List (α × α) → List (α × α)
  | [] => [(key, value)]
  | (k, v) :: rest => if k = key then (k, value) :: rest else (k, v) :: setPartner key value rest

namespace Procedure

/-- Append copies of instructions to a block, predicates included. The copies read and write the
same variables. -/
def copyInsts (target : NodeId) (seen : List (InstId × InstId)) : List InstId → Edit (List (InstId × InstId))
  | [] => return seen
  | id :: rest => do
    match (← get).inst? id with
    | none => Edit.fail (.staleInst id)
    | some data =>
      let copy ← appendInst target data.inst
      setPredicate copy data.predicate
      copyInsts target (setPartner id copy seen) rest

def copyEach (copy : CopyMap → NodeId → Edit (NodeId × CopyMap)) (map : CopyMap) :
    List NodeId → Edit (List NodeId × CopyMap)
  | [] => return ([], map)
  | id :: rest => do
    let (first, map) ← copy map id
    let (others, map) ← copyEach copy map rest
    return (first :: others, map)

/-- Copy a node and what it contains, down to the given number of levels. -/
def copyNode : Nat → CopyMap → NodeId → Edit (NodeId × CopyMap)
  | 0, _, id => Edit.fail (.staleNode id)
  | depth + 1, map, id => do
    match (← get).node? id with
    | none => Edit.fail (.staleNode id)
    | some (.block insts) =>
      let copy ← newBlock
      let copied ← copyInsts copy [] insts
      let insts := copied.foldl (fun all pair => setPartner pair.1 pair.2 all) map.insts
      return (copy, { map with insts := insts, nodes := setPartner id copy map.nodes })
    | some (.branch condition thenNodes elseNodes join) =>
      let (thenCopy, map) ← copyEach (copyNode depth) map thenNodes
      let (elseCopy, map) ← copyEach (copyNode depth) map elseNodes
      let (joinCopy, map) ← copyNode depth map join
      let copy ← addNode (.branch condition thenCopy elseCopy joinCopy)
      return (copy, { map with nodes := setPartner id copy map.nodes })
    | some (.loop condition body join) =>
      let (joinCopy, map) ← copyNode depth map join
      let (bodyCopy, map) ← copyEach (copyNode depth) map body
      let copy ← addNode (.loop condition bodyCopy joinCopy)
      return (copy, { map with nodes := setPartner id copy map.nodes })

/-- Copy a node and everything it contains. The copy reads and writes the same variables. -/
def copyPreserving (id : NodeId) : Edit (NodeId × CopyMap) := do
  copyNode ((← get).nodes.size + 1) {} id

/-- The index of the next version of a variable's location. -/
def nextIndex (p : Procedure) (v : Variable) : Nat :=
  (p.locals.values.filter (·.sameLocation v)).foldl (fun n w => max n (w.index + 1)) 0

/-- Make a new version of every local that the given instructions define. -/
def freshVersions (made : List (LocalId × LocalId)) : List InstId → Edit (List (LocalId × LocalId))
  | [] => return made
  | id :: rest => do
    let p ← get
    match (p.inst? id).bind (·.inst.def?) with
    | none => freshVersions made rest
    | some target =>
      match made.lookup target with
      | some _ => freshVersions made rest
      | none =>
        match p.local? target with
        | none => Edit.fail (.staleLocal target)
        | some v =>
          let fresh ← addLocal { v with index := p.nextIndex v }
          freshVersions (setPartner target fresh made) rest

def renameExpr (locals : List (LocalId × LocalId)) (e : Expr) : Expr :=
  locals.foldl (fun e pair => (e.replaceVar (.loc pair.1) (.loc pair.2)).1) e

def renameInst (locals : List (LocalId × LocalId)) (d : InstData) : InstData :=
  let inst := locals.foldl (fun i pair => (i.replaceUse (.loc pair.1) (.loc pair.2)).1) d.inst
  let inst := match inst.def?.bind (locals.lookup ·) with
    | some fresh => inst.setDef fresh
    | none => inst
  { d with inst := inst, predicate := d.predicate.map (renameExpr locals) }

def renameNode (locals : List (LocalId × LocalId)) : Node → Node
  | .branch condition t e j => .branch (renameExpr locals condition) t e j
  | .loop condition b j => .loop (renameExpr locals condition) b j
  | .block insts => .block insts

/-- Copy a node and everything it contains, and give every local defined inside a new version. Reads
inside the copy follow the new versions. -/
def copyFresh (id : NodeId) : Edit (NodeId × CopyMap) := do
  let (copy, map) ← copyPreserving id
  let copied := (map.insts.map (·.2)).mergeSort fun a b => decide (a.index ≤ b.index)
  let locals ← freshVersions [] copied
  modify fun p =>
    { p with
      insts := copied.foldl (fun insts id => insts.modify id.index (renameInst locals)) p.insts
      nodes := (map.nodes.map (·.2)).foldl (fun nodes id => nodes.modify id.index (renameNode locals)) p.nodes }
  return (copy, { map with locals := locals })

end Procedure

end ActorNet
