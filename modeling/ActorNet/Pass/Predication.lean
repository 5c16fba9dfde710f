import ActorNet.Pass.Basic

/-!
# Predication

A procedure without loops becomes a single block. Every instruction gets the conjunction of the
conditions around it as its predicate, negated on the else side. A phi moves to where its join was;
the operand of each edge gets the predicate of the branch it comes from as its guard.
-/

namespace ActorNet

namespace Procedure

def under (predicate : Option Expr) (condition : Expr) : Expr :=
  match predicate with
  | some outer => outer.both condition
  | none => condition

def guardArm (thenPredicate elsePredicate : Expr) (arm : PhiArm) : PhiArm :=
  match arm.edge with
  | .thenEnd => { arm with guard := some thenPredicate }
  | .elseEnd => { arm with guard := some elsePredicate }
  | _ => arm

def guardPhi (thenPredicate elsePredicate : Expr) (d : InstData) : InstData :=
  match d.inst with
  | .phi target arms => { d with inst := .phi target (arms.map (guardArm thenPredicate elsePredicate)) }
  | _ => d

/-- Guard the operands of the phis among some instructions. -/
def guardPhis (thenPredicate elsePredicate : Expr) (ids : List InstId) (p : Procedure) : Procedure :=
  { p with insts := ids.foldl (fun insts id => insts.modify id.index (guardPhi thenPredicate elsePredicate)) p.insts }

/-- Move instructions to the end of a block under a predicate. -/
def hoistInsts (target : NodeId) (predicate : Option Expr) : List InstId → Transform Unit
  | [] => return ()
  | id :: rest => do
    setPredicate id predicate
    moveInst id target
    hoistInsts target predicate rest

def hoistEach (hoist : NodeId → Transform Nat) : List NodeId → Transform Nat
  | [] => return 0
  | id :: rest => do
    let first ← hoist id
    let others ← hoistEach hoist rest
    return first + others

/-- Move the instructions of a node to the end of a block under a predicate, down to the given
number of levels; the answer is the number of conditionals. -/
def hoistNode (target : NodeId) : Nat → Option Expr → NodeId → Transform Nat
  | 0, _, _ => return 0
  | depth + 1, predicate, id => do
    match (← get).node? id with
    | none => return 0
    | some (.block insts) =>
      hoistInsts target predicate insts
      return 0
    | some (.branch condition thenNodes elseNodes join) =>
      let thenPredicate := under predicate condition
      let inThen ← hoistEach (hoistNode target depth (some thenPredicate)) thenNodes
      let elsePredicate := under predicate condition.negate
      let inElse ← hoistEach (hoistNode target depth (some elsePredicate)) elseNodes
      let phis := (← get).blockInsts join
      modify (guardPhis thenPredicate elsePredicate phis)
      hoistInsts target predicate phis
      return inThen + inElse + 1
    | some (.loop _ _ _) => Transform.fail .unsupportedLoop

def freeEach : List NodeId → Edit Unit
  | [] => return ()
  | id :: rest => do
    freeNode id
    freeEach rest

/-- Turn the procedure into a single block of predicated instructions; the answer is the number of
conditionals. A procedure with a loop is refused and stays as it is. -/
def ifConvert : Transform Nat := do
  if (← get).hasLoop then Transform.fail .unsupportedLoop
  else
    let target ← newBlock
    let nodes := (← get).body
    modify fun p => { p with body := [] }
    let removed ← hoistEach (hoistNode target ((← get).depth + 1) none) nodes
    freeEach nodes
    modify fun p => { p with body := [target] }
    return removed

end Procedure

def Actor.ifConvert (a : Actor) : Except PassError Nat × Actor :=
  a.transformProcs Procedure.ifConvert

end ActorNet
