import ActorNet.Pass.Basic

/-!
# Lowering phis

A phi becomes an assignment at the end of each block from which control enters its join. A phi that
was moved out of its join becomes one assignment for each operand, predicated by the operand's
guard.

An operand that is never written, a local of index zero that is no parameter and that no instruction
defines, holds nothing of meaning. The zero of the target's type is assigned in its place, and the
local goes away if nothing else mentions it.
-/

namespace ActorNet

/-- What lowering has done so far. -/
structure Lowered where
  phis : Nat := 0
  zeroed : List LocalId := []
deriving DecidableEq, Repr

def Edge.ofConditional : Edge → Bool
  | .thenEnd => true
  | .elseEnd => true
  | .entry => false
  | .back => false

namespace Procedure

def definedLocals (p : Procedure) : List LocalId :=
  p.forward.filterMap fun id => (p.inst? id).bind (·.inst.def?)

/-- The operand of an edge: the one with its tag, else the one at its position unless its tag is for
another kind of construct. -/
def armFor? (arms : List PhiArm) (edge : Edge) : Option PhiArm :=
  (arms.find? (·.edge = edge)).or (arms[edge.index]?.filter (·.edge.ofConditional = edge.ofConditional))

/-- Whether a local holds nothing of meaning, given the locals that are defined. -/
def isUnset (p : Procedure) (defined : List LocalId) (id : LocalId) : Bool :=
  (match p.local? id with
    | some v => v.index = 0
    | none => false)
    && !p.isParam id && !defined.contains id

/-- What is assigned to the target of a phi for an operand, and the local that zero stands for. -/
def copyValue (defined : List LocalId) (target : LocalId) (source : VarRef) : Transform (Expr × List LocalId) := do
  let p ← get
  match source.local?.filter (p.isUnset defined), p.local? target with
  | some id, some v =>
    match Expr.zero? v.ty with
    | some zero => return (zero, [id])
    | none => Transform.fail (.initialValueTooLarge v.displayName v.ty)
  | _, _ => return (.var source, [])

/-- Assign the operands of a phi on each edge into the join of the construct at a position. The
answer is the position of the construct afterwards and the locals that zero stands for. -/
def lowerEdges (defined : List LocalId) (list : NodeList) (target : LocalId) (arms : List PhiArm) :
    Nat → List Edge → Transform (Nat × List LocalId)
  | pos, [] => return (pos, [])
  | pos, edge :: rest => do
    match armFor? arms edge with
    | none => Transform.fail (.malformedPhi ((← get).localName target) edge.label)
    | some arm =>
      let (block, inserted) ← edgeBlock list pos edge
      let (value, zeroed) ← copyValue defined target arm.var
      let _ ← appendInst block (.assign target value)
      let (pos, more) ← lowerEdges defined list target arms (if inserted then pos + 1 else pos) rest
      return (pos, zeroed ++ more)

def lowerPhis (defined : List LocalId) (list : NodeList) (edges : List Edge) :
    Nat → List InstId → Lowered → Transform (Nat × Lowered)
  | pos, [], done => return (pos, done)
  | pos, id :: rest, done => do
    match (← get).inst? id with
    | some ⟨.phi target arms, _, _⟩ =>
      let (pos, zeroed) ← lowerEdges defined list target arms pos edges
      lowerPhis defined list edges pos rest ⟨done.phis + 1, done.zeroed ++ zeroed⟩
    | _ => lowerPhis defined list edges pos rest done

/-- Lower the phis of a join and empty it. The answer has the number of nodes put before the
construct. -/
def lowerJoin (defined : List LocalId) (list : NodeList) (edges : List Edge) (pos : Nat) (join : NodeId)
    (done : Lowered) : Transform (Nat × Lowered) := do
  let phis := (← get).blockInsts join
  let (after, done) ← lowerPhis defined list edges pos phis done
  if !phis.isEmpty then clearBlock join
  return (after - pos, done)

/-- Assign each operand of a phi before it, under the operand's guard. -/
def lowerArms (defined : List LocalId) (phi : InstId) (target : LocalId) : List PhiArm → Transform (List LocalId)
  | [] => return []
  | arm :: rest => do
    match arm.guard with
    | none => Transform.fail (.malformedPhi ((← get).localName target) "guarded")
    | some guard =>
      let (value, zeroed) ← copyValue defined target arm.var
      let copy ← insertBefore phi (.assign target value)
      setPredicate copy (some guard)
      return zeroed ++ (← lowerArms defined phi target rest)

def lowerHoisted (defined : List LocalId) : List InstId → Lowered → Transform Lowered
  | [], done => return done
  | id :: rest, done => do
    match (← get).inst? id with
    | some ⟨.phi target arms, _, _⟩ =>
      let zeroed ← lowerArms defined id target arms
      let _ ← removeInst id
      lowerHoisted defined rest ⟨done.phis + 1, done.zeroed ++ zeroed⟩
    | _ => lowerHoisted defined rest done

/-- Lower the phis of a node of a list, down to the given number of levels. -/
def lowerNode (defined : List LocalId) : Nat → NodeList → Nat → NodeId → Lowered → Transform (Nat × Lowered)
  | 0, _, _, _, done => return (0, done)
  | depth + 1, list, pos, id, done => do
    match (← get).node? id with
    | none => return (0, done)
    | some (.block insts) => return (0, ← lowerHoisted defined insts done)
    | some (.branch _ _ _ join) =>
      let (shift, done) ← lowerJoin defined list [.thenEnd, .elseEnd] pos join done
      let done ← Transform.visitEach (lowerNode defined depth (.thenOf id)) 0 ((← get).listNodes (.thenOf id)) done
      let done ← Transform.visitEach (lowerNode defined depth (.elseOf id)) 0 ((← get).listNodes (.elseOf id)) done
      return (shift, done)
    | some (.loop _ _ join) =>
      let (shift, done) ← lowerJoin defined list [.entry, .back] pos join done
      let done ← Transform.visitEach (lowerNode defined depth (.bodyOf id)) 0 ((← get).listNodes (.bodyOf id)) done
      return (shift, done)

def dropUnused (p : Procedure) (ids : List LocalId) : Procedure :=
  let unused := ids.filter fun id => p.mentionCount (.loc id) = 0
  { p with locals := unused.foldl (fun locals id => locals.erase id.index) p.locals }

/-- Replace all phis by assignments; the answer is the number of phis. -/
def removePhis : Transform Nat := do
  let p ← get
  let done ← Transform.visitEach (lowerNode p.definedLocals (p.depth + 1) .body) 0 p.body {}
  modify (dropUnused · done.zeroed)
  return done.phis

end Procedure

def Actor.removePhis (a : Actor) : Except PassError Nat × Actor :=
  a.transformProcs Procedure.removePhis

end ActorNet
