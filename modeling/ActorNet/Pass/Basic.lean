import ActorNet.Actor.Basic
import ActorNet.Proc.Edit
import ActorNet.Proc.Walk

/-!
# Passes

A pass transforms the procedures of an actor or its actions. Passes run in a fixed order; some need
another one to have run before. A pass that fails leaves the procedure it was working on as far as
it got.
-/

namespace ActorNet

inductive Pass where
  | insertCasts
  | storeOnce
  | ifConvert
  | removePhis
  | classify
deriving DecidableEq, Repr, Inhabited

namespace Pass

/-- All passes in the order in which they run. -/
def all : List Pass :=
  [insertCasts, storeOnce, ifConvert, removePhis, classify]

def name : Pass → String
  | insertCasts => "insert_casts"
  | storeOnce => "store_once"
  | ifConvert => "if_convert"
  | removePhis => "remove_phis"
  | classify => "classify"

def ofName? (s : String) : Option Pass :=
  all.find? (·.name = s)

def requires : Pass → List Pass
  | ifConvert => [insertCasts]
  | removePhis => [insertCasts]
  | _ => []

def invariant : Pass → String
  | insertCasts => "every expression has the type its context requires"
  | storeOnce => "each state variable is stored at most once per procedure (whole-variable stores)"
  | ifConvert => "no conditionals remain; hoisted instructions carry predicates"
  | removePhis => "no phi-assignments remain"
  | classify => "pattern-equal parallel actions are merged"

theorem requires_eq_nil_of_mem_requires {p q : Pass} (h : q ∈ p.requires) : q.requires = [] := by
  cases p <;> simp_all [requires]

/-- A pass and all that must run before it, in a possible order. What a pass requires requires
nothing else. -/
def required (p : Pass) : List Pass :=
  p.requires ++ [p]

/-- A selection of passes and all that they require, in the order in which they run. -/
def schedule (selected : List Pass) : List Pass :=
  all.filter fun p => selected.any fun q => q.required.contains p

end Pass

/-! ## Errors -/

/-- Why a pass cannot go on. -/
inductive PassFault where
  | unsupportedLoop
  /-- Nothing says which type an expression must have. -/
  | missingContext (expr reason : String)
  | untyped (expr : String)
  /-- A phi has no operand for an edge, or none with a guard. -/
  | malformedPhi (target edge : String)
  | initialValueTooLarge (target : String) (ty : Ty)
  | malformed (fault : ProcFault)
deriving DecidableEq, Repr

/-- A fault of a pass and the name of the procedure it was working on. -/
structure PassError where
  proc : String
  fault : PassFault
deriving DecidableEq, Repr

def PassError.message (e : PassError) : String :=
  let inProc := "procedure '" ++ e.proc ++ "': "
  match e.fault with
  | .unsupportedLoop => inProc ++ "if-conversion does not support loops"
  | .missingContext expr reason => inProc ++ "cannot determine the type required for `" ++ expr ++ "`: " ++ reason
  | .untyped expr => inProc ++ "expression `" ++ expr ++ "` has no type"
  | .malformedPhi target edge =>
    inProc ++ "phi defining '" ++ target ++ "' has no operand for the " ++ edge ++ " predecessor"
  | .initialValueTooLarge target ty =>
    inProc ++ "zero initial value of '" ++ target ++ "' (" ++ ty.text ++ ") is too large to materialize"
  | .malformed fault => (ProcError.mk e.proc fault).message

/-- A transformation of a procedure that may fail and keeps what it did before it failed. -/
abbrev Transform := ExceptT PassError (StateM Procedure)

namespace Transform

def fail {α : Type} (fault : PassFault) : Transform α := do
  throw ⟨(← get).name, fault⟩

def ofEdit {α : Type} (act : Edit α) : Transform α :=
  ExceptT.adapt (fun e => ⟨e.proc, .malformed e.fault⟩) act

instance : MonadLift Edit Transform where
  monadLift := ofEdit

def on {α : Type} (act : Transform α) (p : Procedure) : Except PassError α × Procedure :=
  act.run p

/-- Visit the nodes of a list one after the other, starting with the given one at the given
position. A visit says how many nodes it has put before its node, and hands on a result. -/
def visitEach {α : Type} (visit : Nat → NodeId → α → Transform (Nat × α)) : Nat → List NodeId → α → Transform α
  | _, [], result => return result
  | pos, node :: rest, result => do
    let (shift, result) ← visit pos node result
    visitEach visit (pos + shift + 1) rest result

end Transform

namespace Actor

/-- Transform procedures in order, those implemented elsewhere excepted, up to the first failure;
the answer is the sum of the answers. -/
def transformEach (act : Transform Nat) : List Procedure → Except PassError Nat × List Procedure
  | [] => (.ok 0, [])
  | p :: rest =>
    if p.native then
      let (outcome, rest) := transformEach act rest
      (outcome, p :: rest)
    else
      match act.on p with
      | (.error e, p) => (.error e, p :: rest)
      | (.ok count, p) =>
        let (outcome, rest) := transformEach act rest
        (outcome.map (count + ·), p :: rest)

def transformProcs (act : Transform Nat) (a : Actor) : Except PassError Nat × Actor :=
  let (outcome, procs) := transformEach act a.procs
  (outcome, { a with procs := procs })

end Actor

end ActorNet
