import ActorNet.Actor.Basic
import ActorNet.Run.Eval

/-!
# Running procedures

A machine holds the state variables of an actor between calls, the trace of entered procedures, and
counters of call depth and steps. Blocks run in order, a conditional by its condition, a loop as
long as its condition holds; a join picks the operands of the edge on which it is entered, all of
them before any of its phis is written. What a failing call has changed stays changed.

The recursion follows three quantities: calls are nested at most as deep as the limit allows, nodes
at most as deep as there are nodes, and every iteration of a loop costs a step.
-/

namespace ActorNet

/-- Bounds on a run. -/
structure Limits where
  maxDepth : Nat := 64
  maxSteps : Nat := 1000000
deriving DecidableEq, Repr

/-- The state of a machine between calls. -/
structure Machine where
  globals : List (Option Value)
  /-- The procedures entered so far, the latest first. -/
  trace : List ProcId := []
  depth : Nat := 0
  steps : Nat := 0
deriving Inhabited

/-- A run changes a machine and may fail; what it did before it failed stays. -/
abbrev Run := ExceptT Fault (StateM Machine)

/-- The values of the locals of a running procedure. -/
abbrev Env := List (LocalId × Value)

namespace Env

def get? (env : Env) (id : LocalId) : Option Value :=
  env.lookup id

def set (id : LocalId) (v : Value) : Env → Env
  | [] => [(id, v)]
  | (i, w) :: rest => if i = id then (i, v) :: rest else (i, w) :: set id v rest

def ofArgs (params : List LocalId) (args : List Value) : Env :=
  (params.zip args).foldl (fun env binding => env.set binding.1 binding.2) []

end Env

/-- How a part of a procedure ends: control goes on, or the procedure returns. -/
inductive Flow where
  | next
  | ret (value : Option Value)
deriving Inhabited

namespace Machine

def global? (m : Machine) (id : GlobalId) : Option Value :=
  m.globals[id.index]?.join

def setGlobal (m : Machine) (id : GlobalId) (v : Value) : Machine :=
  { m with globals := m.globals.set id.index (some v) }

def clearTrace (m : Machine) : Machine :=
  { m with trace := [] }

end Machine

namespace Run

def on {α : Type} (act : Run α) (m : Machine) : Except Fault α × Machine :=
  act.run m

def lift {α : Type} : Except Fault α → Run α
  | .ok x => pure x
  | .error e => throw e

/-- Count a step, and fail beyond the limit. -/
def step (limits : Limits) : Run Unit := do
  modify fun m => { m with steps := m.steps + 1 }
  if limits.maxSteps < (← get).steps then throw (.stepLimit limits.maxSteps)

/-- Leave one level of calls after a run, whatever its outcome. -/
def leaving {α : Type} (act : Run α) : Run α :=
  ExceptT.mk do
    let outcome ← act.run
    modify fun m => { m with depth := m.depth - 1 }
    return outcome

end Run

/-- What a running procedure refers to. -/
structure Context where
  actor : Actor
  limits : Limits
  proc : Procedure
  call : ProcId → List Value → Run (Option Value)

namespace Context

def varName (c : Context) : VarRef → String
  | .loc id => c.proc.localName id
  | .glob id =>
    match c.actor.globals[id.index]? with
    | some v => v.displayName
    | none => id.text

def reader (c : Context) (env : Env) (m : Machine) : Reader :=
  { proc := c.proc.name
    read := fun v =>
      let value := match v with
        | .loc id => env.get? id
        | .glob id => m.global? id
      match value with
      | some x => .ok x
      | none => .error (.unbound c.proc.name (c.varName v)) }

def eval {α : Type} (c : Context) (env : Env) (f : Reader → Except Fault α) : Run α := do
  Run.lift (f (c.reader env (← get)))

/-- Write a variable. A state variable that does not exist is left out. -/
def write (env : Env) (v : VarRef) (x : Value) : Run Env :=
  match v with
  | .loc id => return env.set id x
  | .glob id => do
    modify fun m => m.setGlobal id x
    return env

/-- The operand that a phi picks: by the edge taken, where an untagged edge takes the operand at its
position, or else the first one whose guard holds. -/
def selectArm (c : Context) (env : Env) (edge : Option Edge) (arms : List PhiArm) : Run (Option PhiArm) :=
  match edge with
  | some edge => return (arms.find? (·.edge = edge)).or arms[edge.index]?
  | none => firstHolding arms
where
  firstHolding : List PhiArm → Run (Option PhiArm)
    | [] => return none
    | arm :: rest => do
      match arm.guard with
      | none => firstHolding rest
      | some guard => if ← c.eval env guard.evalBool then return some arm else firstHolding rest

def phiValue (c : Context) (env : Env) (edge : Option Edge) (target : LocalId) (arms : List PhiArm) :
    Run Value := do
  match ← c.selectArm env edge arms with
  | some arm => c.eval env fun r => r.read arm.var
  | none => throw (.detachedPhi c.proc.name (c.proc.localName target))

/-- The part of a value under an index path; every index is evaluated when it is used. -/
def select (r : Reader) (v : Value) : List Expr → Except Fault Value
  | [] => .ok v
  | index :: rest => do
    let i ← index.evalInt r
    select r (← v.element r.proc i) rest

def path (r : Reader) : List Expr → Except Fault (List Int64)
  | [] => .ok []
  | index :: rest => do return (← index.evalInt r) :: (← path r rest)

def execInst (c : Context) (env : Env) : Inst → Run (Flow × Env)
  | .assign target value => do
    let x ← c.eval env value.eval
    return (.next, env.set target x)
  | .load target source indexes => do
    let x ← c.eval env fun r => do select r (← r.read source) indexes
    return (.next, env.set target x)
  | .store target indexes value => do
    let x ← c.eval env value.eval
    let path ← c.eval env fun r => path r indexes
    if path.isEmpty then return (.next, ← write env target x)
    else
      let whole ← c.eval env fun r => do (← r.read target).storeAt r.proc path x
      return (.next, ← write env target whole)
  | .call target callee args => do
    let values ← c.eval env fun r => Expr.evalAll r args
    match target, ← c.call callee values with
    | some id, some x => return (.next, env.set id x)
    | _, _ => return (.next, env)
  | .phi target arms => do
    let x ← c.phiValue env none target arms
    return (.next, env.set target x)
  | .ret (some value) => do
    let x ← c.eval env value.eval
    return (.ret (some x), env)
  | .ret none => return (.ret none, env)
  | .cast source target ty => do
    let x ← c.eval env fun r => do (← r.read source).convert r.proc ty
    return (.next, env.set target x)

/-- The values of the phis of a join that is entered on an edge; all operands are read with the same
locals. -/
def joinValues (c : Context) (env : Env) (edge : Edge) : List InstId → Run (List (LocalId × Value))
  | [] => return []
  | id :: rest => do
    match c.proc.inst? id with
    | some ⟨.phi target arms, _, _⟩ =>
      let x ← c.phiValue env (some edge) target arms
      return (target, x) :: (← c.joinValues env edge rest)
    | _ => c.joinValues env edge rest

/-- Whether the predicate of an instruction lets it run. -/
def holds (c : Context) (env : Env) : Option Expr → Run Bool
  | none => return true
  | some predicate => c.eval env predicate.evalBool

/-- Run instructions one after the other; phis are left out in a join. -/
def execInsts (c : Context) (inJoin : Bool) (env : Env) : List InstId → Run (Flow × Env)
  | [] => return (.next, env)
  | id :: rest => do
    match c.proc.inst? id with
    | none => c.execInsts inJoin env rest
    | some data =>
      if inJoin && data.inst.isPhi then c.execInsts inJoin env rest
      else
        Run.step c.limits
        if ← c.holds env data.predicate then
          match ← c.execInst env data.inst with
          | (.next, env) => c.execInsts inJoin env rest
          | (.ret value, env) => return (.ret value, env)
        else c.execInsts inJoin env rest

def execBlock (c : Context) (edge : Option Edge) (env : Env) (id : NodeId) : Run (Flow × Env) := do
  let insts := c.proc.blockInsts id
  match edge with
  | none => c.execInsts false env insts
  | some edge =>
    let values ← c.joinValues env edge insts
    c.execInsts true (values.foldl (fun env binding => env.set binding.1 binding.2) env) insts

/-- Go on after a part of a procedure, unless it returns. -/
def andThen (first : Run (Flow × Env)) (after : Env → Run (Flow × Env)) : Run (Flow × Env) := do
  match ← first with
  | (.next, env) => after env
  | (.ret value, env) => return (.ret value, env)

def execEach (exec : Env → NodeId → Run (Flow × Env)) (env : Env) : List NodeId → Run (Flow × Env)
  | [] => return (.next, env)
  | id :: rest => andThen (exec env id) fun env => execEach exec env rest

/-- Repeat a loop body as long as the condition holds, for at most the given number of evaluations
of the condition. Every iteration costs a step. -/
def execLoop (c : Context) (condition : Expr) (body : Env → Run (Flow × Env)) : Nat → Env → Run (Flow × Env)
  | 0, _ => throw (.stepLimit c.limits.maxSteps)
  | n + 1, env => do
    if ← c.eval env condition.evalBool then
      Run.step c.limits
      andThen (body env) (c.execLoop condition body n)
    else return (.next, env)

/-- Run a node, with nodes inside it down to the given number of levels. A node that is not there
does nothing. -/
def execNode (c : Context) : Nat → Env → NodeId → Run (Flow × Env)
  | 0, env, _ => return (.next, env)
  | depth + 1, env, id => do
    match c.proc.node? id with
    | none => return (.next, env)
    | some (.block _) => c.execBlock none env id
    | some (.branch condition thenNodes elseNodes join) =>
      if ← c.eval env condition.evalBool then
        andThen (execEach (c.execNode depth) env thenNodes) fun env => c.execBlock (some .thenEnd) env join
      else
        andThen (execEach (c.execNode depth) env elseNodes) fun env => c.execBlock (some .elseEnd) env join
    | some (.loop condition body join) =>
      andThen (c.execBlock (some .entry) env join) fun env => do
        let iteration := fun env =>
          andThen (execEach (c.execNode depth) env body) fun env => c.execBlock (some .back) env join
        c.execLoop condition iteration (c.limits.maxSteps - (← get).steps + 1) env

def execBody (c : Context) (env : Env) : Run (Flow × Env) :=
  execEach (c.execNode (c.proc.nodes.size + 1)) env c.proc.body

end Context

namespace Machine

def enter (actor : Actor) (limits : Limits) (call : ProcId → List Value → Run (Option Value)) (id : ProcId)
    (args : List Value) : Run (Option Value) := do
  match actor.proc? id with
  | none => throw (.unknownProc id)
  | some p =>
    if p.native then throw (.native p.name)
    else if p.params.length ≠ args.length then throw (.arity p.name p.params.length args.length)
    else if limits.maxDepth ≤ (← get).depth then throw (.callDepth limits.maxDepth)
    else
      modify fun m => { m with trace := id :: m.trace, depth := m.depth + 1 }
      match ← Run.leaving (Context.execBody ⟨actor, limits, p, call⟩ (Env.ofArgs p.params args)) with
      | (.ret value, _) => return value
      | (.next, _) => return none

def callTo (actor : Actor) (limits : Limits) : Nat → ProcId → List Value → Run (Option Value)
  | 0, id, args => enter actor limits (fun _ _ => throw (.callDepth limits.maxDepth)) id args
  | levels + 1, id, args => enter actor limits (callTo actor limits levels) id args

def call (actor : Actor) (limits : Limits) (id : ProcId) (args : List Value) : Run (Option Value) := do
  callTo actor limits (limits.maxDepth - (← get).depth) id args

/-- The values of state variables from their initial expressions, in order; each may read those
before it. -/
def bindInitial (actor : Actor) (bound : List (Option Value)) : List Variable → Except Fault (List (Option Value))
  | [] => .ok bound
  | v :: rest =>
    match v.init with
    | none => bindInitial actor (bound ++ [none]) rest
    | some init =>
      let c : Context := ⟨actor, {}, { name := "<init>", returnTy := .void }, fun _ _ => return none⟩
      match init.eval (c.reader [] { globals := bound }) with
      | .ok x => bindInitial actor (bound ++ [some x]) rest
      | .error e => .error e

def start (actor : Actor) : Except Fault Machine :=
  (bindInitial actor [] actor.globals).map fun globals => { globals := globals }

/-- Whether the scheduler of an action returns `true`; any other result means that it may not
fire. -/
def isSchedulable (actor : Actor) (limits : Limits) (action : Action) : Run Bool := do
  match ← call actor limits action.scheduler [] with
  | some (.bool true) => return true
  | _ => return false

def fire (actor : Actor) (limits : Limits) (action : Action) : Run Unit := do
  let _ ← call actor limits action.body []

end Machine

def Actor.isSchedulable (a : Actor) (id : ActionId) : Except Fault Bool :=
  match a.action? id with
  | none => .error (.unknownAction id)
  | some action => do
    let m ← Machine.start a
    ((Machine.isSchedulable a {} action).on m).1

end ActorNet
