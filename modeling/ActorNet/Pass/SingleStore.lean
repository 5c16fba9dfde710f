import ActorNet.Pass.Basic

/-!
# Storing once

Stores of whole state variables become assignments to a local for each variable, and the variable
itself is stored once at the end of the procedure. Loads of the whole variable read that local as
soon as it has a value; the first load of a variable that is never stored binds its own target for
later loads.

A variable that is stored only on some paths is loaded into its local at the beginning, so that the
store at the end writes the old value on the other paths. What is bound inside a branch or a loop
body stays inside. Loads and stores of elements are not touched.
-/

namespace ActorNet

/-- Which local holds the value of a state variable; the latest binding is first. -/
abbrev Bindings := List (GlobalId × LocalId)

namespace Inst

def storesWhole? : Inst → Option GlobalId
  | store (.glob id) [] _ => some id
  | _ => none

def loadsWhole : Inst → Bool
  | load _ (.glob _) [] => true
  | _ => false

end Inst

namespace Procedure

/-! ## Which variables are stored -/

/-- The stores of whole state variables under a node, down to the given number of levels, in the
order of the text. The flag says whether a store is conditional: inside a branch or a loop body, or
predicated. -/
def wholeStoresUnder (p : Procedure) : Nat → Bool → NodeId → List (GlobalId × Bool)
  | 0, _, _ => []
  | depth + 1, nested, id =>
    match p.node? id with
    | some (.block insts) =>
      (insts.filterMap p.inst?).filterMap fun d =>
        d.inst.storesWhole?.map fun global => (global, nested || d.predicate.isSome)
    | some (.branch _ thenNodes elseNodes _) => (thenNodes ++ elseNodes).flatMap (wholeStoresUnder p depth true)
    | some (.loop _ body _) => body.flatMap (wholeStoresUnder p depth true)
    | none => []

def wholeStores (p : Procedure) : List (GlobalId × Bool) :=
  p.body.flatMap (p.wholeStoresUnder (p.depth + 1) false)

/-- The state variables that are stored as a whole, each once, and whether one of the stores is
conditional. -/
def storedGlobals (p : Procedure) : List (GlobalId × Bool) :=
  let stores := p.wholeStores
  (distinct (stores.map (·.1))).map fun global => (global, stores.any fun s => s.1 = global && s.2)

/-- Whether some instruction loads a whole state variable. -/
def hasWholeLoads (p : Procedure) : Bool :=
  (p.forward.filterMap p.inst?).any (·.inst.loadsWhole)

/-! ## Prologue and epilogue -/

/-- Make a local for every declared variable that is stored. The answer has the locals, and those of
them that belong to conditional stores. -/
def makeLocals (globals : List Variable) : List (GlobalId × Bool) → Edit (Bindings × Bindings)
  | [] => return ([], [])
  | (global, conditional) :: rest => do
    match globals[global.index]? with
    | none => makeLocals globals rest
    | some v =>
      let id ← newTemp v.ty ("local_" ++ v.name)
      let (locals, seeded) ← makeLocals globals rest
      return ((global, id) :: locals, if conditional then (global, id) :: seeded else seeded)

/-- Load state variables into their locals, at consecutive places of a block from the given one
on. -/
def insertLoads (block : NodeId) : Nat → Bindings → Edit (List InstId)
  | _, [] => return []
  | index, (global, id) :: rest => do
    let load ← insertInst block index (.load id (.glob global) [])
    return load :: (← insertLoads block (index + 1) rest)

def insertPrologue (seeded : Bindings) : Edit (List InstId) := do
  if seeded.isEmpty then return []
  else insertLoads (← ensureFirstBlock .body) 0 seeded

/-- Store locals into their state variables, before an instruction or at the end of a block. -/
def insertStores (block : NodeId) (anchor : Option InstId) : Bindings → Edit Unit
  | [] => return ()
  | (global, id) :: rest => do
    let store := Inst.store (.glob global) [] (.var (.loc id))
    let _ ← match anchor with
      | some ret => insertBefore ret store
      | none => appendInst block store
    insertStores block anchor rest

def trailingReturn? (p : Procedure) (block : NodeId) : Option InstId :=
  (p.blockInsts block).getLast?.filter fun id => match p.inst? id with
    | some d => d.inst.isReturn
    | none => false

def insertEpilogue (locals : Bindings) : Edit Unit := do
  if locals.isEmpty then return ()
  else
    let last ← lastBlock
    insertStores last ((← get).trailingReturn? last) locals

/-! ## Redirection -/

/-- Redirect the instructions of a block to locals, given the bindings so far. The answer has the
bindings afterwards and the number of stores. -/
def redirectInsts (locals : Bindings) (kept : List InstId) : Bindings → List InstId → Edit (Bindings × Nat)
  | bound, [] => return (bound, 0)
  | bound, id :: rest => do
    if kept.contains id then redirectInsts locals kept bound rest
    else
      match (← get).inst? id with
      | some ⟨.store (.glob global) [] value, _, _⟩ =>
        match locals.lookup global with
        | some target =>
          let _ ← replaceInst id (.assign target value)
          let (bound, n) ← redirectInsts locals kept ((global, target) :: bound) rest
          return (bound, n + 1)
        | none => redirectInsts locals kept bound rest
      | some ⟨.load target (.glob global) [], _, _⟩ =>
        match bound.lookup global with
        | some source =>
          let _ ← replaceInst id (.assign target (.var (.loc source)))
          redirectInsts locals kept bound rest
        | none => redirectInsts locals kept ((global, target) :: bound) rest
      | _ => redirectInsts locals kept bound rest

def redirectEach (redirect : Bindings → NodeId → Edit (Bindings × Nat)) (bound : Bindings) :
    List NodeId → Edit (Bindings × Nat)
  | [] => return (bound, 0)
  | id :: rest => do
    let (bound, m) ← redirect bound id
    let (bound, n) ← redirectEach redirect bound rest
    return (bound, m + n)

/-- Redirect a node, down to the given number of levels. What is bound inside a construct stays
inside. -/
def redirectNode (locals : Bindings) (kept : List InstId) : Nat → Bindings → NodeId → Edit (Bindings × Nat)
  | 0, bound, _ => return (bound, 0)
  | depth + 1, bound, id => do
    let each := redirectEach (redirectNode locals kept depth) bound
    match (← get).node? id with
    | some (.block insts) => redirectInsts locals kept bound insts
    | some (.branch _ thenNodes elseNodes _) =>
      let (_, m) ← each thenNodes
      let (_, n) ← each elseNodes
      return (bound, m + n)
    | some (.loop _ body _) =>
      let (_, n) ← each body
      return (bound, n)
    | none => return (bound, 0)

/-- Store every state variable at most once as a whole; the answer is the number of stores that
became assignments. -/
def storeOnce (globals : List Variable) : Edit Nat := do
  let p ← get
  let stored := p.storedGlobals
  if stored.isEmpty && !p.hasWholeLoads then return 0
  else
    let (locals, seeded) ← makeLocals globals stored
    let kept ← insertPrologue seeded
    let p ← get
    let (_, redirected) ← redirectEach (redirectNode locals kept (p.depth + 1)) seeded p.body
    insertEpilogue locals
    return redirected

end Procedure

def Actor.storeOnce (a : Actor) : Except PassError Nat × Actor :=
  a.transformProcs (Procedure.storeOnce a.globals)

end ActorNet
