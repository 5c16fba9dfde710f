import ActorNet.Actor.Basic
import ActorNet.Json.Reader
import ActorNet.Proc.Document

/-!
# Actor documents

Actors as JSON values and texts. The supply of action handles is not written; a reader makes sure
that it never hands out a handle that the document uses.
-/

namespace ActorNet

namespace Action

def toJson (a : Action) : Json :=
  .obj [("id", a.id.toJson), ("name", .str a.name), ("input", a.input.toJson), ("output", a.output.toJson),
    ("scheduler", a.scheduler.toJson), ("body", a.body.toJson), ("tag", optionToJson Json.str a.tag)]

def ofJson? (j : Json) : Option Action := do
  let r ← j.record? ["id", "name", "input", "output", "scheduler", "body", "tag"]
  return {
    id := ← r.required? "id" ActionId.ofJson?
    name := ← r.required? "name" Json.asString?
    input := ← r.defaulting? "input" .empty Pattern.ofJson?
    output := ← r.defaulting? "output" .empty Pattern.ofJson?
    scheduler := ← r.required? "scheduler" ProcId.ofJson?
    body := ← r.required? "body" ProcId.ofJson?
    tag := ← r.defaulting? "tag" none (Json.optionOf? Json.asString?) }

end Action

/-- Why a text gives no actor. -/
inductive ActorLoadError where
  | malformed
  | invalid (e : ActorError)
deriving DecidableEq, Repr

namespace Actor

def toJson (a : Actor) : Json :=
  .obj [("name", .str a.name), ("inputs", .arr (a.inputs.map Port.toJson)),
    ("outputs", .arr (a.outputs.map Port.toJson)), ("globals", .arr (a.globals.map Variable.toJson)),
    ("procs", .arr (a.procs.map Procedure.toJson)), ("actions", .arr (a.actions.map Action.toJson)),
    ("fsm", optionToJson Fsm.toJson a.fsm)]

def ofJson? (j : Json) : Option Actor := do
  let r ← j.record? ["name", "inputs", "outputs", "globals", "procs", "actions", "fsm", "ids"]
  return {
    name := ← r.required? "name" Json.asString?
    inputs := ← r.defaulting? "inputs" [] (Json.listOf? Port.ofJson?)
    outputs := ← r.defaulting? "outputs" [] (Json.listOf? Port.ofJson?)
    globals := ← r.defaulting? "globals" [] (Json.listOf? Variable.ofJson?)
    procs := ← r.defaulting? "procs" [] (Json.listOf? Procedure.ofJson?)
    actions := ← r.defaulting? "actions" [] (Json.listOf? Action.ofJson?)
    fsm := ← r.defaulting? "fsm" none (Json.optionOf? Fsm.ofJson?)
    ids := ← r.defaulting? "ids" {} ActionSupply.ofJson? }

/-- Keep the handles of all actions from being handed out again. -/
def reserveIds (a : Actor) : Actor :=
  { a with ids := a.actions.foldl (fun ids action => ids.reserve action.id) a.ids }

def ofDocument (j : Json) : Except ActorLoadError Actor :=
  match ofJson? j with
  | none => .error .malformed
  | some a =>
    let a := a.reserveIds
    match a.check with
    | .ok () => .ok a
    | .error e => .error (.invalid e)

def load (text : String) : Except ActorLoadError Actor :=
  match Json.parse? text with
  | none => .error .malformed
  | some j => ofDocument j

def document (a : Actor) : String :=
  a.toJson.pretty

end Actor

end ActorNet
