import ActorNet.Proc.Basic

/-!
# Editing procedures

The primitive changes of nodes and instructions. They keep the block that an instruction records
equal to the block that lists it.
-/

namespace ActorNet.Procedure

/-- Put an element into a list at an index, at the end if the list is shorter. -/
def insertAt {α : Type} (index : Nat) (x : α) (l : List α) : List α :=
  l.take index ++ x :: l.drop index

/-! ## Nodes -/

def addNode (node : Node) : Edit NodeId :=
  modifyGet fun p => (⟨p.nodes.size⟩, { p with nodes := p.nodes.push node })

def newBlock : Edit NodeId :=
  addNode (.block [])

/-- Add a conditional with empty branches and a new join, which stands in no list yet. -/
def newBranch (condition : Expr) : Edit NodeId := do
  let join ← newBlock
  addNode (.branch condition [] [] join)

/-- Add a loop with an empty body and a new join, which stands in no list yet. -/
def newLoop (condition : Expr) : Edit NodeId := do
  let join ← newBlock
  addNode (.loop condition [] join)

def updateList (list : NodeList) (f : List NodeId → List NodeId) : Edit Unit := do
  match (← get).updateList? list f with
  | some p => set p
  | none => Edit.fail (.staleNode list.owner)

def insertNode (list : NodeList) (index : Nat) (node : NodeId) : Edit Unit :=
  updateList list (insertAt index node)

def pushNode (list : NodeList) (node : NodeId) : Edit Unit :=
  updateList list (· ++ [node])

/-- The last node of a list if it is a block, else a new block at its end. -/
def ensureLastBlock (list : NodeList) : Edit NodeId := do
  let p ← get
  match (p.listNodes list).getLast?.filter p.isBlock with
  | some last => return last
  | none =>
    let block ← newBlock
    pushNode list block
    return block

/-- The first node of a list if it is a block, else a new block at its front. -/
def ensureFirstBlock (list : NodeList) : Edit NodeId := do
  let p ← get
  match (p.listNodes list).head?.filter p.isBlock with
  | some first => return first
  | none =>
    let block ← newBlock
    insertNode list 0 block
    return block

/-- The block right before a position of a list. If there is none, a new block is put at the
position, and the flag says that everything from there on has moved by one. -/
def blockBefore (list : NodeList) (pos : Nat) : Edit (NodeId × Bool) := do
  let p ← get
  let before := if pos = 0 then none else (p.listNodes list)[pos - 1]?
  match before.filter p.isBlock with
  | some block => return (block, false)
  | none =>
    let block ← newBlock
    insertNode list pos block
    return (block, true)

def lastBlock : Edit NodeId :=
  ensureLastBlock .body

/-- The block from which an edge leads into the join of the construct at a position of a list: the
end of a branch, the end of the loop body, or the block before the loop. The flag says whether a
block was put into the list before the construct. -/
def edgeBlock (list : NodeList) (pos : Nat) (edge : Edge) : Edit (NodeId × Bool) := do
  let p ← get
  match (p.listNodes list)[pos]? with
  | none => Edit.fail (.staleNode list.owner)
  | some node =>
    match edge, p.node? node with
    | .thenEnd, some (.branch _ _ _ _) => return (← ensureLastBlock (.thenOf node), false)
    | .elseEnd, some (.branch _ _ _ _) => return (← ensureLastBlock (.elseOf node), false)
    | .entry, some (.loop _ _ _) => blockBefore list pos
    | .back, some (.loop _ _ _) => return (← ensureLastBlock (.bodyOf node), false)
    | _, _ => Edit.fail (.staleNode node)

def eraseInsts (p : Procedure) (ids : List InstId) : Procedure :=
  { p with insts := ids.foldl (fun insts id => insts.erase id.index) p.insts }

/-- Free a node and what it contains, down to the given number of levels. A node is taken out before
its children are visited, so a node that contains itself is freed once. -/
def freeTo : Nat → NodeId → Procedure → Procedure
  | 0, _, p => p
  | depth + 1, id, p =>
    match p.node? id with
    | none => p
    | some node =>
      let p := { p with nodes := p.nodes.erase id.index }
      match node with
      | .block insts => p.eraseInsts insts
      | _ => node.children.foldl (fun p child => freeTo depth child p) p

/-- Free a node and everything it contains. The list that holds the node is not changed. There are
no more levels than nodes. -/
def freeNode (id : NodeId) : Edit Unit :=
  modify fun p => freeTo (p.nodes.size + 1) id p

/-! ## Instructions -/

def requireBlock (id : NodeId) : Edit (List InstId) := do
  match (← get).node? id with
  | some (.block insts) => return insts
  | some _ => Edit.fail (.notABlock id)
  | none => Edit.fail (.staleNode id)

def setBlock (p : Procedure) (id : NodeId) (insts : List InstId) : Procedure :=
  { p with nodes := p.nodes.modify id.index fun _ => .block insts }

def recordBlock (p : Procedure) (block : NodeId) (ids : List InstId) : Procedure :=
  { p with insts := ids.foldl (fun insts id => insts.modify id.index fun d => { d with block := block }) p.insts }

def insertInst (block : NodeId) (index : Nat) (inst : Inst) : Edit InstId := do
  let insts ← requireBlock block
  modifyGet fun p =>
    let id : InstId := ⟨p.insts.size⟩
    (id, { p with insts := p.insts.push { inst := inst, block := block } }.setBlock block (insertAt index id insts))

def appendInst (block : NodeId) (inst : Inst) : Edit InstId := do
  let insts ← requireBlock block
  insertInst block insts.length inst

def position? (p : Procedure) (id : InstId) : Option (NodeId × Nat) := do
  let data ← p.inst? id
  let index ← (p.blockInsts data.block).findIdx? (· = id)
  return (data.block, index)

/-- The position of an instruction that has to be listed in its block. -/
def requirePosition (id : InstId) : Edit (NodeId × Nat) := do
  match (← get).position? id with
  | some pos => return pos
  | none => Edit.fail (.staleInst id)

def insertBefore (anchor : InstId) (inst : Inst) : Edit InstId := do
  let (block, index) ← requirePosition anchor
  insertInst block index inst

def insertAfter (anchor : InstId) (inst : Inst) : Edit InstId := do
  let (block, index) ← requirePosition anchor
  insertInst block (index + 1) inst

def removeInst (id : InstId) : Edit InstData := do
  let (block, index) ← requirePosition id
  let p ← get
  match p.inst? id with
  | some data =>
    set ((p.setBlock block ((p.blockInsts block).eraseIdx index)).eraseInsts [id])
    return data
  | none => Edit.fail (.staleInst id)

def replaceInst (id : InstId) (inst : Inst) : Edit Inst := do
  let p ← get
  match p.inst? id with
  | some data =>
    set { p with insts := p.insts.modify id.index fun d => { d with inst := inst } }
    return data.inst
  | none => Edit.fail (.staleInst id)

def setPredicate (id : InstId) (predicate : Option Expr) : Edit Unit :=
  modify fun p => { p with insts := p.insts.modify id.index fun d => { d with predicate := predicate } }

def moveInst (id : InstId) (target : NodeId) : Edit Unit := do
  let (block, index) ← requirePosition id
  let _ ← requireBlock target
  modify fun p =>
    let p := p.setBlock block ((p.blockInsts block).eraseIdx index)
    (p.setBlock target (p.blockInsts target ++ [id])).recordBlock target [id]

def appendBlock (target source : NodeId) : Edit Unit := do
  if target = source then return ()
  else
    let kept ← requireBlock target
    let moved ← requireBlock source
    modify fun p => ((p.setBlock source []).recordBlock target moved).setBlock target (kept ++ moved)

def clearBlock (block : NodeId) : Edit Unit := do
  let insts ← requireBlock block
  modify fun p => (p.setBlock block []).eraseInsts insts

end ActorNet.Procedure
