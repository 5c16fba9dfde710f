import ActorNet.Proc.Basic

/-!
# Walking through procedures

Listing the nodes and instructions of a procedure in the order of its text, and changing or counting
the variables they read.
-/

namespace ActorNet.Procedure

/-! ## Order of the text -/

/-- The nodes under a node, itself first, down to the given number of levels. The join of a
conditional comes after its branches, the join of a loop before its body. -/
def nodesUnder (p : Procedure) : Nat → NodeId → List NodeId
  | 0, id => [id]
  | depth + 1, id =>
    id :: match p.node? id with
      | some (.branch _ thenNodes elseNodes join) =>
        (thenNodes ++ elseNodes).flatMap (nodesUnder p depth) ++ [join]
      | some (.loop _ body join) => join :: body.flatMap (nodesUnder p depth)
      | _ => []

/-- How many levels a walk through the nodes has to descend: no more than there are nodes. -/
def depth (p : Procedure) : Nat :=
  p.nodes.size

def nodesIn (p : Procedure) (nodes : List NodeId) : List NodeId :=
  nodes.flatMap (p.nodesUnder p.depth)

def forward (p : Procedure) : List InstId :=
  (p.nodesIn p.body).flatMap p.blockInsts

def backward (p : Procedure) : List InstId :=
  p.forward.reverse

def hasLoop (p : Procedure) : Bool :=
  (p.nodesIn p.body).any fun id => match p.node? id with
    | some (.loop _ _ _) => true
    | _ => false

def isFlat (p : Procedure) : Bool :=
  match p.body with
  | [] => true
  | [id] => p.isBlock id
  | _ => false

end ActorNet.Procedure

namespace ActorNet

/-! ## Variables -/

def InstData.replaceUse (old new : VarRef) (d : InstData) : InstData × Nat :=
  let (inst, m) := d.inst.replaceUse old new
  match d.predicate with
  | some predicate =>
    let (predicate, n) := predicate.replaceVar old new
    ({ d with inst := inst, predicate := some predicate }, m + n)
  | none => ({ d with inst := inst }, m)

def InstData.mentions (d : InstData) (v : VarRef) : Bool :=
  d.inst.mentions v || match d.predicate with
    | some predicate => predicate.mentions v
    | none => false

def Node.replaceUse (old new : VarRef) : Node → Node × Nat
  | .branch condition t e j =>
    let (condition, n) := condition.replaceVar old new
    (.branch condition t e j, n)
  | .loop condition b j =>
    let (condition, n) := condition.replaceVar old new
    (.loop condition b j, n)
  | .block insts => (.block insts, 0)

def Node.mentions (node : Node) (v : VarRef) : Bool :=
  match node.condition? with
  | some condition => condition.mentions v
  | none => false

namespace Procedure

/-- The number of reads that `replaceUses` changes. -/
def replacedUses (p : Procedure) (old new : VarRef) : Nat :=
  p.insts.values.foldr (fun d n => (d.replaceUse old new).2 + n) 0
    + p.nodes.values.foldr (fun node n => (node.replaceUse old new).2 + n) 0

/-- Read `new` wherever an instruction, a predicate or a condition reads `old`; the answer is the
number of changes. -/
def replaceUses (old new : VarRef) : Edit Nat :=
  modifyGet fun p =>
    (p.replacedUses old new,
      { p with
        insts := p.insts.map fun d => (d.replaceUse old new).1
        nodes := p.nodes.map fun n => (n.replaceUse old new).1 })

def mentionCount (p : Procedure) (v : VarRef) : Nat :=
  p.insts.values.countP (·.mentions v) + p.nodes.values.countP (·.mentions v)

end Procedure

end ActorNet
