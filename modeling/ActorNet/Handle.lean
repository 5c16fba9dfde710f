import ActorNet.Json.Decode

/-!
# Handles

Objects live in tables and are named by their position. A removed object leaves its place empty, so
a handle that outlives its object is noticed and never names another one.
-/

namespace ActorNet

/-- A local variable of a procedure, parameters included. -/
structure LocalId where
  index : Nat
deriving DecidableEq, Repr, Inhabited, Hashable

/-- A state variable of an actor. -/
structure GlobalId where
  index : Nat
deriving DecidableEq, Repr, Inhabited, Hashable

/-- A control-flow node of a procedure. -/
structure NodeId where
  index : Nat
deriving DecidableEq, Repr, Inhabited, Hashable

/-- An instruction of a procedure. -/
structure InstId where
  index : Nat
deriving DecidableEq, Repr, Inhabited, Hashable

/-- A procedure of an actor. -/
structure ProcId where
  index : Nat
deriving DecidableEq, Repr, Inhabited, Hashable

/-- An action of an actor. -/
structure ActionId where
  index : Nat
deriving DecidableEq, Repr, Inhabited, Hashable

/-- A state of a state machine. -/
structure StateId where
  index : Nat
deriving DecidableEq, Repr, Inhabited, Hashable

/-! ## Text -/

def LocalId.text (id : LocalId) : String := "%" ++ toString id.index

def GlobalId.text (id : GlobalId) : String := "@" ++ toString id.index

def NodeId.text (id : NodeId) : String := "n" ++ toString id.index

def InstId.text (id : InstId) : String := "i" ++ toString id.index

def ProcId.text (id : ProcId) : String := "proc" ++ toString id.index

def ActionId.text (id : ActionId) : String := "act" ++ toString id.index

def StateId.text (id : StateId) : String := "s" ++ toString id.index

/-! ## Documents: a handle is a plain number -/

def LocalId.toJson (id : LocalId) : Json := .int id.index

def LocalId.ofJson? (j : Json) : Option LocalId := j.asWord32?.map LocalId.mk

def GlobalId.toJson (id : GlobalId) : Json := .int id.index

def GlobalId.ofJson? (j : Json) : Option GlobalId := j.asWord32?.map GlobalId.mk

def NodeId.toJson (id : NodeId) : Json := .int id.index

def NodeId.ofJson? (j : Json) : Option NodeId := j.asWord32?.map NodeId.mk

def InstId.toJson (id : InstId) : Json := .int id.index

def InstId.ofJson? (j : Json) : Option InstId := j.asWord32?.map InstId.mk

def ProcId.toJson (id : ProcId) : Json := .int id.index

def ProcId.ofJson? (j : Json) : Option ProcId := j.asWord32?.map ProcId.mk

def ActionId.toJson (id : ActionId) : Json := .int id.index

def ActionId.ofJson? (j : Json) : Option ActionId := j.asWord32?.map ActionId.mk

def StateId.toJson (id : StateId) : Json := .int id.index

def StateId.ofJson? (j : Json) : Option StateId := j.asWord32?.map StateId.mk

/-! ## Fresh action handles -/

/-- Hands out action handles in ascending order, so a new action never takes the handle of an
earlier one. Handles are words of 32 bits: after the last one the supply starts again. -/
structure ActionSupply where
  next : UInt32 := 0
deriving DecidableEq, Repr, Inhabited

namespace ActionSupply

def take (s : ActionSupply) : ActionId × ActionSupply :=
  (⟨s.next.toNat⟩, ⟨s.next + 1⟩)

/-- Make sure that a handle is not handed out later. -/
def reserve (s : ActionSupply) (id : ActionId) : ActionSupply :=
  ⟨max s.next (UInt32.ofNat id.index + 1)⟩

def ofJson? (j : Json) : Option ActionSupply := do
  let r ← j.record? ["next_action"]
  return ⟨UInt32.ofNat (← r.required? "next_action" Json.asWord32?)⟩

end ActionSupply

end ActorNet
