import ActorNet.Pass.Basic

/-!
# Merging actions

Actions that are offered together and take and give the same tokens become one action. It may always
fire; its body calls the schedulers of the merged actions in the order of urgency, and the body of
the first one that may fire.

Without a state machine all actions are offered together. With one, the actions on the transitions
of a state are, as long as they lead to one state.
-/

namespace ActorNet

/-- One step of merging. -/
structure Merge where
  /-- The state at which the actions were offered, with a state machine. -/
  state : Option String
  /-- The names of the actions that were merged, the most urgent one first. -/
  sources : List String
  merged : ActionId
deriving DecidableEq, Repr

/-! ## The merged body -/

namespace Dispatch

def answer (a : Actor) (i : Nat) (action : Action) : Variable :=
  let (name, ty) := match a.proc? action.scheduler with
    | some p => (p.name, p.returnTy)
    | none => (action.scheduler.text, .bool)
  { name := Procedure.tempName (name ++ "_ret") i, ty := ty }

/-- The instructions for an action: the calls of its scheduler and of its body. -/
def calls (i : Nat) (action : Action) : List InstData :=
  [{ inst := .call (some ⟨i⟩) action.scheduler [], block := ⟨4 * i⟩ },
    { inst := .call none action.body [], block := ⟨4 * i + 3⟩ }]

/-- The nodes for the action at a position: the block that calls its scheduler, an empty join, the
conditional, and the block that calls its body. The else side holds the nodes for the next action,
if there is one. -/
def nodes (count i : Nat) : List Node :=
  let next : List NodeId := if i + 1 < count then [⟨4 * i + 4⟩, ⟨4 * i + 6⟩] else []
  [.block [⟨2 * i⟩], .block [], .branch (.var (.loc ⟨i⟩)) [⟨4 * i + 3⟩] next ⟨4 * i + 1⟩, .block [⟨2 * i + 1⟩]]

end Dispatch

/-- The procedure that calls the body of the first action that may fire. -/
def Procedure.dispatch (a : Actor) (name : String) (actions : List Action) : Procedure :=
  let count := actions.length
  let last : NodeId := ⟨4 * count⟩
  let locals := actions.zipIdx.map fun (action, i) => Dispatch.answer a i action
  let nodes := (List.range count).flatMap (Dispatch.nodes count) ++ [.block [⟨2 * count⟩]]
  let insts := actions.zipIdx.flatMap (fun (action, i) => Dispatch.calls i action)
    ++ [{ inst := .ret none, block := last }]
  { name := name
    returnTy := .void
    locals := Arena.full locals
    nodes := Arena.full nodes
    insts := Arena.full insts
    body := if count = 0 then [last] else [⟨0⟩, ⟨2⟩, last]
    nextTemp := count }

namespace Actor

/-! ## Merging a group of actions -/

/-- A procedure name that is not taken: the given one, or the first one with a number from one on.
Among one more number than there are procedures, one is free. -/
def freshProcName (a : Actor) (base : String) : String :=
  let isFree := fun name => (a.procByName? name).isNone
  let numbered := (List.range (a.procs.length + 1)).map fun n => base ++ "_" ++ toString (n + 1)
  ((base :: numbered).find? isFree).getD base

/-- Replace actions by one that dispatches to them. It takes the place of the most urgent one. -/
def replaceActions (a : Actor) (first : Action) (rest : List Action) : ActionId × Actor :=
  let group := first :: rest
  let (scheduler, a) := a.addProc (Procedure.alwaysTrue (a.freshProcName "isSchedulable_SDF"))
  let name := a.freshProcName "SDF"
  let (body, a) := a.addProc (Procedure.dispatch a name group)
  let (id, a) := a.takeId
  let merged : Action :=
    { id := id, name := name, input := first.input, output := first.output, scheduler := scheduler, body := body }
  let isReplaced := fun (action : Action) => group.any (·.id = action.id)
  let kept := a.actions.filter fun action => !isReplaced action
  (id, { a with actions := Procedure.insertAt (a.actions.findIdx isReplaced) merged kept })

def mergeGroup? (a : Actor) (ids : List ActionId) : Option (ActionId × Actor) :=
  if ids.length ≤ 1 then none
  else
    match ids.filterMap a.action? with
    | [] => none
    | first :: rest => if rest.all first.samePatterns then some (a.replaceActions first rest) else none

def actionNames (a : Actor) (ids : List ActionId) : List String :=
  ids.map fun id => match a.action? id with
    | some action => action.name
    | none => id.text

/-! ## States -/

/-- The place of an action in the order of urgency; unknown actions come last. -/
def urgency (a : Actor) (id : ActionId) : Nat :=
  a.actions.findIdx (·.id = id)

def offered (a : Actor) (fsm : Fsm) (s : StateId) : List ActionId :=
  (distinct ((fsm.outgoing s).map (·.action))).mergeSort fun x y => decide (a.urgency x ≤ a.urgency y)

end Actor

/-- Let one action stand for others on all transitions. Transitions that join the same two states
become one. -/
def Fsm.relabel (m : Fsm) (ids : List ActionId) (merged : ActionId) : Fsm :=
  let (removed, m) := m.remove fun t => ids.contains t.action
  (distinct (removed.map fun t => (t.source, t.target))).foldl
    (fun m pair => m.addTransition ⟨pair.1, merged, pair.2⟩) m

namespace Actor

def mergeState (a : Actor) (s : StateId) : List Merge × Actor :=
  match a.fsm with
  | none => ([], a)
  | some fsm =>
    if (fsm.targets s).length = 1 then
      let ids := a.offered fsm s
      match a.mergeGroup? ids with
      | none => ([], a)
      | some (merged, b) =>
        ([⟨some (fsm.stateName s), a.actionNames ids, merged⟩], { b with fsm := some (fsm.relabel ids merged) })
    else ([], a)

def mergeStates (a : Actor) : List StateId → List Merge × Actor
  | [] => ([], a)
  | s :: rest =>
    let (first, a) := a.mergeState s
    let (others, a) := a.mergeStates rest
    (first ++ others, a)

/-- Merge actions that are offered together and have the same patterns. -/
def classify (a : Actor) : List Merge × Actor :=
  match a.fsm with
  | some fsm => a.mergeStates fsm.stateIds
  | none =>
    let ids := a.actions.map (·.id)
    match a.mergeGroup? ids with
    | none => ([], a)
    | some (merged, b) => ([⟨none, a.actionNames ids, merged⟩], b)

end Actor

end ActorNet
