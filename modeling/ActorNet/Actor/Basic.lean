import ActorNet.Actor.Fsm
import ActorNet.Actor.Pattern
import ActorNet.Port
import ActorNet.Proc.Verify

/-!
# Actors

An actor owns ports, state variables, procedures and actions. An action takes and gives tokens by
its patterns; its scheduler says whether it may fire, its body is what it does. A state machine may
say which actions are offered when.
-/

namespace ActorNet

/-- A firing rule. -/
structure Action where
  id : ActionId
  name : String
  input : Pattern := .empty
  output : Pattern := .empty
  /-- The procedure that says whether the action may fire. -/
  scheduler : ProcId
  body : ProcId
  tag : Option String := none
deriving DecidableEq, Inhabited

def Action.samePatterns (a b : Action) : Bool :=
  a.input = b.input && a.output = b.output

structure Actor where
  name : String
  inputs : List Port := []
  outputs : List Port := []
  globals : List Variable := []
  procs : List Procedure := []
  /-- The actions, the most urgent one first. -/
  actions : List Action := []
  fsm : Option Fsm := none
  /-- Where the handles of new actions come from. -/
  ids : ActionSupply := {}
deriving Inhabited

/-! ## Errors -/

/-- What can be wrong with the references in an actor. -/
inductive ActorFault where
  | duplicateAction (id : ActionId)
  | unknownProcedure (action : String) (proc : ProcId)
  | unknownFsmAction (id : ActionId)
  | unknownPort (action port : String)
  | procedure (e : ProcError)
deriving DecidableEq, Repr

/-- A fault and the name of the actor that has it. -/
structure ActorError where
  actor : String
  fault : ActorFault
deriving DecidableEq, Repr

def ActorFault.message : ActorFault → String
  | duplicateAction id => "duplicate action id " ++ id.text
  | unknownProcedure action proc => "action '" ++ action ++ "' refers to unknown procedure " ++ proc.text
  | unknownFsmAction id => "FSM refers to unknown action " ++ id.text
  | unknownPort action port => "pattern of action '" ++ action ++ "' names unknown port '" ++ port ++ "'"
  | procedure e => e.message

def ActorError.message (e : ActorError) : String :=
  "actor '" ++ e.actor ++ "': " ++ e.fault.message

def Procedure.alwaysTrue (name : String) : Procedure :=
  { name := name
    returnTy := .bool
    locals := ⟨#[some { name := "result", ty := .bool }]⟩
    nodes := ⟨#[some (.block [⟨0⟩, ⟨1⟩])]⟩
    insts := ⟨#[some { inst := .assign ⟨0⟩ (.bool true), block := ⟨0⟩ },
      some { inst := .ret (some (.var (.loc ⟨0⟩))), block := ⟨0⟩ }]⟩
    body := [⟨0⟩] }

namespace Actor

/-! ## Queries -/

def proc? (a : Actor) (id : ProcId) : Option Procedure :=
  a.procs[id.index]?

def procByName? (a : Actor) (name : String) : Option ProcId :=
  (a.procs.findIdx? (·.name = name)).map ProcId.mk

def action? (a : Actor) (id : ActionId) : Option Action :=
  a.actions.find? (·.id = id)

def actionByName? (a : Actor) (name : String) : Option Action :=
  a.actions.find? (·.name = name)

def hasInput (a : Actor) (name : String) : Bool :=
  a.inputs.any (·.name = name)

def hasOutput (a : Actor) (name : String) : Bool :=
  a.outputs.any (·.name = name)

def signatures (a : Actor) : List Signature :=
  a.procs.map Procedure.signature

/-! ## Construction -/

def addGlobal (a : Actor) (v : Variable) : GlobalId × Actor :=
  (⟨a.globals.length⟩, { a with globals := a.globals ++ [v] })

def addProc (a : Actor) (p : Procedure) : ProcId × Actor :=
  (⟨a.procs.length⟩, { a with procs := a.procs ++ [p] })

def takeId (a : Actor) : ActionId × Actor :=
  let (id, ids) := a.ids.take
  (id, { a with ids := ids })

def addAction (a : Actor) (name : String) (input output : Pattern) (scheduler body : ProcId) : ActionId × Actor :=
  let (id, a) := a.takeId
  let action : Action :=
    { id := id, name := name, input := input, output := output, scheduler := scheduler, body := body }
  (id, { a with actions := a.actions ++ [action] })

/-- Mark a procedure as implemented elsewhere; the flag says whether there is such a procedure. -/
def setNative (a : Actor) (id : ProcId) : Bool × Actor :=
  ((a.proc? id).isSome, { a with procs := a.procs.modify id.index fun p => { p with native := true } })

/-! ## Checks -/

def unknownPort? (a : Actor) (action : Action) : Option String :=
  ((action.input.entries.map (·.1)).filter (!a.hasInput ·)
    ++ (action.output.entries.map (·.1)).filter (!a.hasOutput ·)).head?

def checkActions (a : Actor) (seen : List ActionId) : List Action → Except ActorFault Unit
  | [] => .ok ()
  | action :: rest =>
    if seen.contains action.id then .error (.duplicateAction action.id)
    else
      match [action.scheduler, action.body].find? fun id => (a.proc? id).isNone with
      | some id => .error (.unknownProcedure action.name id)
      | none =>
        match a.unknownPort? action with
        | some port => .error (.unknownPort action.name port)
        | none => a.checkActions (action.id :: seen) rest

def checkFsm (a : Actor) : Except ActorFault Unit :=
  match a.fsm with
  | none => .ok ()
  | some fsm =>
    match fsm.transitions.find? fun t => (a.action? t.action).isNone with
    | some t => .error (.unknownFsmAction t.action)
    | none => .ok ()

def checkProcs : List Procedure → Except ActorFault Unit
  | [] => .ok ()
  | p :: rest =>
    match p.verify with
    | .ok () => checkProcs rest
    | .error e => .error (.procedure e)

/-- Check that action handles are unique, that actions name procedures and ports of the actor and
the state machine its actions, and that every procedure is well formed. -/
def check (a : Actor) : Except ActorError Unit :=
  let checked : Except ActorFault Unit := do
    a.checkActions [] a.actions
    a.checkFsm
    checkProcs a.procs
  checked.mapError (⟨a.name, ·⟩)

end Actor

end ActorNet
