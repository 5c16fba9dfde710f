import ActorNet.Handle

/-!
# State machines

The state machine of an actor says which actions may fire in which state. States are named and kept
in declaration order; transitions are labelled with actions, and several of them may join the same
two states.
-/

namespace ActorNet

/-- A step of a state machine. -/
structure Transition where
  source : StateId
  action : ActionId
  target : StateId
deriving DecidableEq, Repr, Inhabited

/-- A state machine over actions. -/
structure Fsm where
  states : List String
  initial : StateId
  transitions : List Transition := []
deriving DecidableEq, Repr, Inhabited

/-- The elements of a list without repetitions, in the order of their first occurrence. -/
def distinct {α : Type} [DecidableEq α] (xs : List α) : List α :=
  xs.foldl (fun seen x => if x ∈ seen then seen else seen ++ [x]) []

theorem foldl_distinct {α : Type} [DecidableEq α] (xs : List α) {seen : List α} (hseen : seen.Nodup) :
    (xs.foldl (fun seen x => if x ∈ seen then seen else seen ++ [x]) seen).Nodup ∧
      ∀ x, x ∈ xs.foldl (fun seen x => if x ∈ seen then seen else seen ++ [x]) seen ↔ x ∈ seen ∨ x ∈ xs := by
  induction xs generalizing seen with
  | nil => exact ⟨hseen, by simp⟩
  | cons y rest ih =>
    rw [List.foldl_cons]
    by_cases hy : y ∈ seen
    · rw [if_pos hy]
      refine ⟨(ih hseen).1, fun x => ?_⟩
      rw [(ih hseen).2, List.mem_cons]
      by_cases hx : x = y
      · simp [hx, hy]
      · simp [hx]
    · rw [if_neg hy]
      have hnew : (seen ++ [y]).Nodup := by
        refine List.nodup_append.mpr ⟨hseen, by simp, fun a ha b hb => ?_⟩
        rw [List.mem_singleton.mp hb]
        rintro rfl
        exact hy ha
      refine ⟨(ih hnew).1, fun x => ?_⟩
      rw [(ih hnew).2, List.mem_append, List.mem_singleton, List.mem_cons, or_assoc]

theorem nodup_distinct {α : Type} [DecidableEq α] (xs : List α) : (distinct xs).Nodup :=
  (foldl_distinct xs List.nodup_nil).1

@[simp] theorem mem_distinct {α : Type} [DecidableEq α] {xs : List α} {x : α} : x ∈ distinct xs ↔ x ∈ xs := by
  rw [distinct, (foldl_distinct xs List.nodup_nil).2]
  simp

namespace Fsm

def start (name : String) : Fsm :=
  { states := [name], initial := ⟨0⟩ }

def addState (m : Fsm) (name : String) : StateId × Fsm :=
  (⟨m.states.length⟩, { m with states := m.states ++ [name] })

def state? (m : Fsm) (s : StateId) : Option String :=
  m.states[s.index]?

def stateName (m : Fsm) (s : StateId) : String :=
  (m.state? s).getD "?"

def stateByName? (m : Fsm) (name : String) : Option StateId :=
  (m.states.findIdx? (· = name)).map StateId.mk

def stateIds (m : Fsm) : List StateId :=
  (List.range m.states.length).map StateId.mk

def setInitial (m : Fsm) (s : StateId) : Bool × Fsm :=
  match m.state? s with
  | some _ => (true, { m with initial := s })
  | none => (false, m)

def addTransition (m : Fsm) (t : Transition) : Fsm :=
  { m with transitions := m.transitions ++ [t] }

def outgoing (m : Fsm) (s : StateId) : List Transition :=
  m.transitions.filter (·.source = s)

/-- The states that one step leads to, each once. -/
def targets (m : Fsm) (s : StateId) : List StateId :=
  distinct ((m.outgoing s).map (·.target))

def actions (m : Fsm) : List ActionId :=
  distinct (m.transitions.map (·.action))

def remove (m : Fsm) (p : Transition → Bool) : List Transition × Fsm :=
  (m.transitions.filter p, { m with transitions := m.transitions.filter fun t => !p t })

/-- The pairs of a list that have occurred before, each once. -/
def repeated {α : Type} [DecidableEq α] (seen : List α) : List α → List α
  | [] => []
  | x :: rest => if x ∈ seen then x :: repeated seen rest else repeated (x :: seen) rest

/-- The actions that label more than one transition out of a state, each once. -/
def ambiguous (m : Fsm) : List (StateId × ActionId) :=
  distinct (repeated [] (m.transitions.map fun t => (t.source, t.action)))

end Fsm

/-! ## Documents -/

namespace Transition

def toJson (t : Transition) : Json :=
  .obj [("source", t.source.toJson), ("action", t.action.toJson), ("target", t.target.toJson)]

def ofJson? (j : Json) : Option Transition := do
  let r ← j.record? ["source", "action", "target"]
  return {
    source := ← r.required? "source" StateId.ofJson?
    action := ← r.required? "action" ActionId.ofJson?
    target := ← r.required? "target" StateId.ofJson? }

end Transition

namespace Fsm

def stateToJson (name : String) : Json :=
  .obj [("name", .str name)]

def stateOfJson? (j : Json) : Option String := do
  let r ← j.record? ["name"]
  r.required? "name" Json.asString?

def toJson (m : Fsm) : Json :=
  .obj [("states", .arr (m.states.map stateToJson)), ("initial", m.initial.toJson),
    ("transitions", .arr (m.transitions.map Transition.toJson))]

def ofJson? (j : Json) : Option Fsm := do
  let r ← j.record? ["states", "initial", "transitions"]
  return {
    states := ← r.required? "states" (Json.listOf? stateOfJson?)
    initial := ← r.required? "initial" StateId.ofJson?
    transitions := ← r.defaulting? "transitions" [] (Json.listOf? Transition.ofJson?) }

end Fsm

end ActorNet
