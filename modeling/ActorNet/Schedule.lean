import ActorNet.Proc.Walk
import ActorNet.Run.Machine

/-!
# Schedules

The schedule of an actor lists, for every point where it chooses an action, the actions on offer and
how many tokens let any of them fire. A point with at most one action, whose guard is true whatever
the state, leaves no choice; an actor is static if all its points are such.
-/

namespace ActorNet

/-- An action on offer. -/
structure ScheduledAction where
  action : String
  /-- The state that follows, for the transitions of a state machine. -/
  target : Option String
  /-- Whether the guard depends on the state or refuses. -/
  guarded : Bool
deriving DecidableEq, Repr

/-- What a state of a state machine offers. -/
structure StateSchedule where
  state : String
  initial : Bool
  input : Pattern
  output : Pattern
  actions : List ScheduledAction
deriving DecidableEq

/-- What an actor offers: its actions outside the state machine, and its states. -/
structure Schedule where
  actor : String
  isStatic : Bool
  input : Pattern
  output : Pattern
  actions : List ScheduledAction
  states : List StateSchedule
deriving DecidableEq

namespace Actor

def actionsOutsideFsm (a : Actor) : List Action :=
  let inside := match a.fsm with
    | some fsm => fsm.actions
    | none => []
  a.actions.filter fun action => !inside.contains action.id

def stateActions (a : Actor) (s : StateId) : List Action :=
  match a.fsm with
  | some fsm => (distinct ((fsm.outgoing s).map (·.action))).filterMap a.action?
  | none => []

def inputPattern (a : Actor) : Pattern :=
  Pattern.maxOf (a.actionsOutsideFsm.map (·.input))

def outputPattern (a : Actor) : Pattern :=
  Pattern.maxOf (a.actionsOutsideFsm.map (·.output))

def stateInputPattern (a : Actor) (s : StateId) : Pattern :=
  Pattern.maxOf ((a.stateActions s).map (·.input))

def stateOutputPattern (a : Actor) (s : StateId) : Pattern :=
  Pattern.maxOf ((a.stateActions s).map (·.output))

end Actor

/-- Whether an instruction calls a procedure, or reads or stores a state variable. -/
def Inst.touchesState (i : Inst) : Bool :=
  match i with
  | .call _ _ _ => true
  | .store (.glob _) _ _ => true
  | _ => i.uses.any fun v => v.global?.isSome

def Procedure.touchesState (p : Procedure) : Bool :=
  (p.forward.filterMap p.inst?).any (·.inst.touchesState)

namespace Actor

/-- Whether a guard is true whatever the state: it needs nothing from the actor and returns
`true`. -/
def guardIsTrivial (a : Actor) (id : ProcId) : Except Fault Bool :=
  match a.proc? id with
  | none => .error (.unknownProc id)
  | some p =>
    if p.native || !p.params.isEmpty || p.touchesState then .ok false
    else do
      let m ← Machine.start a
      match ← ((Machine.call a {} id []).on m).1 with
      | some (.bool true) => return true
      | _ => return false

def scheduled (a : Actor) (action : Action) (target : Option String) : Except Fault ScheduledAction := do
  return ⟨action.name, target, !(← a.guardIsTrivial action.scheduler)⟩

def stateSchedule (a : Actor) (fsm : Fsm) (s : StateId) : Except Fault StateSchedule := do
  let listed := (fsm.outgoing s).filterMap fun t => (a.action? t.action).map (·, fsm.stateName t.target)
  return {
    state := fsm.stateName s
    initial := s = fsm.initial
    input := a.stateInputPattern s
    output := a.stateOutputPattern s
    actions := ← listed.mapM fun offer => a.scheduled offer.1 (some offer.2) }

end Actor

def ScheduledAction.leavesNoChoice (actions : List ScheduledAction) : Bool :=
  actions.length ≤ 1 && actions.all (!·.guarded)

def Actor.schedule (a : Actor) : Except Fault Schedule := do
  let actions ← a.actionsOutsideFsm.mapM (a.scheduled · none)
  let states ← match a.fsm with
    | some fsm => fsm.stateIds.mapM (a.stateSchedule fsm)
    | none => .ok []
  let isStatic := match a.fsm with
    | some _ => actions.isEmpty && states.all fun s => ScheduledAction.leavesNoChoice s.actions
    | none => ScheduledAction.leavesNoChoice actions
  return {
    actor := a.name
    isStatic := isStatic
    input := a.inputPattern
    output := a.outputPattern
    actions := actions
    states := states }

/-! ## Text -/

/-- An offer, as `action -> state [guarded]`. -/
def ScheduledAction.text (s : ScheduledAction) : String :=
  let target := match s.target with
    | some state => " -> " ++ state
    | none => ""
  s.action ++ target ++ (if s.guarded then " [guarded]" else "")

namespace Schedule

def patterns (input output : Pattern) : String :=
  "input " ++ input.text ++ " output " ++ output.text ++ "\n"

def offers (actions : List ScheduledAction) : String :=
  String.join (actions.map fun s => "    " ++ s.text ++ "\n")

def text (s : Schedule) : String :=
  let kind := if s.isStatic then "static" else "dynamic"
  let outside :=
    if s.actions.isEmpty && !s.states.isEmpty then ""
    else "  " ++ patterns s.input s.output ++ offers s.actions
  let states := s.states.map fun state =>
    "  state " ++ state.state ++ (if state.initial then " (initial)" else "") ++ ": "
      ++ patterns state.input state.output ++ offers state.actions
  "actor " ++ s.actor ++ " (" ++ kind ++ ")\n" ++ outside ++ String.join states

end Schedule

end ActorNet
