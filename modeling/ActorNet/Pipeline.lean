import ActorNet.Diagnostic
import ActorNet.Pass.Casts
import ActorNet.Pass.Merging
import ActorNet.Pass.PhiLowering
import ActorNet.Pass.Predication
import ActorNet.Pass.SingleStore
import ActorNet.Proc.Printer

/-!
# The pipeline

A pipeline checks an actor and runs the selected passes over it, in order. It gives a new actor only
if every pass succeeds.
-/

namespace ActorNet

/-! ## Running a pass -/

/-- What a pass has done: how often it changed something, or which actions it merged. -/
inductive PassResult where
  | count (n : Nat)
  | merges (list : List Merge)
deriving DecidableEq, Repr

namespace PassResult

def size : PassResult → Nat
  | count n => n
  | merges list => list.length

def merged : PassResult → List Merge
  | count _ => []
  | merges list => list

end PassResult

def Pass.run (pass : Pass) (a : Actor) : Except PassError PassResult × Actor :=
  match pass with
  | .insertCasts => counted a.insertCasts
  | .storeOnce => counted a.storeOnce
  | .ifConvert => counted a.ifConvert
  | .removePhis => counted a.removePhis
  | .classify =>
    let (merges, a) := a.classify
    (.ok (.merges merges), a)
where
  counted (done : Except PassError Nat × Actor) : Except PassError PassResult × Actor :=
    (done.1.map .count, done.2)

/-! ## Selection -/

/-- Which passes are selected. -/
structure PipelineOptions where
  insertCasts : Bool := true
  ifConvert : Bool := false
  removePhis : Bool := true
  storeOnce : Bool := false
  classify : Bool := true
deriving DecidableEq, Repr, Inhabited

namespace PipelineOptions

def selects (o : PipelineOptions) : Pass → Bool
  | .insertCasts => o.insertCasts
  | .storeOnce => o.storeOnce
  | .ifConvert => o.ifConvert
  | .removePhis => o.removePhis
  | .classify => o.classify

def passes (o : PipelineOptions) : List Pass :=
  Pass.schedule (Pass.all.filter o.selects)

def ofJson? (j : Json) : Option PipelineOptions := do
  let usual : PipelineOptions := {}
  let r ← j.record? ["insert_casts", "if_convert", "remove_phis", "store_once", "classify"]
  return {
    insertCasts := ← r.defaulting? "insert_casts" usual.insertCasts Json.asBool?
    ifConvert := ← r.defaulting? "if_convert" usual.ifConvert Json.asBool?
    removePhis := ← r.defaulting? "remove_phis" usual.removePhis Json.asBool?
    storeOnce := ← r.defaulting? "store_once" usual.storeOnce Json.asBool?
    classify := ← r.defaulting? "classify" usual.classify Json.asBool? }

end PipelineOptions

/-! ## Errors -/

def PassFault.code : PassFault → DiagCode
  | unsupportedLoop => .loopInPredication
  | missingContext _ _ => .noTypeForCast
  | untyped _ => .noTypeForCast
  | malformedPhi _ _ => .malformedPhi
  | initialValueTooLarge _ _ => .zeroTooLarge
  | malformed _ => .brokenStructure

/-- Why a pipeline gives no actor. -/
inductive PipelineError where
  | invalidActor (e : ActorError)
  | pass (actor : String) (pass : Pass) (e : PassError)
deriving DecidableEq, Repr

namespace PipelineError

def message : PipelineError → String
  | invalidActor e => e.message
  | pass actor p e => "actor '" ++ actor ++ "': " ++ p.name ++ " failed: " ++ e.message

def code : PipelineError → DiagCode
  | invalidActor _ => .brokenStructure
  | pass _ _ e => e.fault.code

def diagnostic (e : PipelineError) : Diagnostic :=
  match e with
  | invalidActor _ => { code := some e.code, message := e.message }
  | pass actor p inner =>
    { code := some e.code, message := "actor '" ++ actor ++ "': " ++ p.name ++ " failed", causes := [inner.message] }

end PipelineError

/-! ## Running -/

/-- What the passes have done to an actor. -/
structure Report where
  /-- The passes in order, and how often each of them changed something. -/
  passes : List (Pass × Nat) := []
  merges : List Merge := []
deriving DecidableEq, Repr, Inhabited

def Report.add (r : Report) (pass : Pass) (result : PassResult) : Report :=
  { passes := r.passes ++ [(pass, result.size)], merges := r.merges ++ result.merged }

namespace Actor

def runPasses (report : Report) (a : Actor) : List Pass → Except PipelineError (Report × Actor)
  | [] => .ok (report, a)
  | pass :: rest =>
    match pass.run a with
    | (.error e, _) => .error (.pass a.name pass e)
    | (.ok result, a) => a.runPasses (report.add pass result) rest

/-- Check an actor and run the selected passes over it. -/
def transform (options : PipelineOptions) (a : Actor) : Except PipelineError (Report × Actor) :=
  match a.check with
  | .error e => .error (.invalidActor e)
  | .ok () => a.runPasses {} options.passes

def procTexts (a : Actor) : List String :=
  a.procs.map (·.text a.globals a.signatures)

end Actor

end ActorNet
