import ActorNet.Pass.Basic
import ActorNet.Proc.Copy

/-!
# Inserting casts

Every expression is compared with the type that its place requires, inner expressions first. Where
class or width differ, a cast into a new temporary is put before the place, and the temporary is
read instead. The required types:

* the value of an assignment or a store: the type of what is written;
* an argument of a call: the type of the parameter; a returned value: the type of the procedure;
* an operand of a phi: the type of its target, with the cast at the end of the block it comes from;
* a condition and an operand of a logical operator: `bool`;
* an operand of an arithmetic operator: the type of the expression; of a comparison: the least upper
  bound of both;
* an index: any.

A load has the type of what it reads; if its target is declared otherwise, the load keeps a target
of the loaded type and a cast follows it.
-/

namespace ActorNet

/-- What a procedure may refer to outside of itself. -/
structure Outside where
  globals : List Variable
  callees : List Signature

/-- Where new instructions go. -/
inductive Spot where
  | before (anchor : InstId)
  | atEnd (block : NodeId)
deriving DecidableEq, Repr

namespace Procedure

/-! ## Types of expressions -/

def exprText (o : Outside) (p : Procedure) (e : Expr) : String :=
  e.text (p.scope o.globals)

def requireTy (o : Outside) (e : Expr) : Transform Ty := do
  let p ← get
  match e.ty? (p.scope o.globals) with
  | some ty => return ty
  | none => Transform.fail (.untyped (exprText o p e))

def missingContext {α : Type} (o : Outside) (e : Expr) (reason : String) : Transform α := do
  Transform.fail (.missingContext (exprText o (← get) e) reason)

/-- The type of what an index path of the given length selects of a variable. -/
def requireElement (o : Outside) (v : VarRef) (depth : Nat) : Transform Ty := do
  match (← requireTy o (.var v)).elemAt? depth with
  | some ty => return ty
  | none => missingContext o (.var v) "indexed past its element type"

/-! ## Expressions -/

def emit : Spot → Inst → Edit InstId
  | .before anchor, inst => insertBefore anchor inst
  | .atEnd block, inst => appendInst block inst

/-- The variable that holds the value of an expression, a new temporary unless the expression is a
variable. -/
def materialize (spot : Spot) (e : Expr) (ty : Ty) : Edit VarRef := do
  match e.var? with
  | some v => return v
  | none =>
    let temp ← newTemp ty "expr"
    let _ ← emit spot (.assign temp e)
    return .loc temp

/-- Cast an expression to a type, if its type differs. The answer has the number of casts. -/
def castTo (o : Outside) (spot : Spot) (required : Ty) (e : Expr) : Transform (Expr × Nat) := do
  let ty ← requireTy o e
  if ty.needsCast required then
    let source ← materialize spot e ty
    let casted ← newTemp required "casted"
    let _ ← emit spot (.cast source casted required)
    return (.var (.loc casted), 1)
  else return (e, 0)

def castIfRequired (o : Outside) (spot : Spot) (required : Option Ty) (e : Expr) : Transform (Expr × Nat) :=
  match required with
  | some ty => castTo o spot ty e
  | none => return (e, 0)

def operandTy (o : Outside) (op : BinaryOp) (lhs rhs : Expr) (ty : Ty) : Transform Ty := do
  if op.isLogical then return .bool
  else if op.isComparison then
    let l ← requireTy o lhs
    let r ← requireTy o rhs
    return (l.lub r).getD l
  else return ty

def unaryOperandTy (op : UnaryOp) (ty : Ty) : Ty :=
  match op with
  | .not => .bool
  | _ => ty

mutual

/-- Cast an expression, inner expressions first, to the type its place requires. The answer has the
number of casts. -/
def castExpr (o : Outside) (spot : Spot) (required : Option Ty) : Expr → Transform (Expr × Nat)
  | .binary op lhs rhs ty => do
    let operand ← operandTy o op lhs rhs ty
    let (lhs, m) ← castExpr o spot (some operand) lhs
    let (rhs, n) ← castExpr o spot (some operand) rhs
    let (e, k) ← castIfRequired o spot required (.binary op lhs rhs ty)
    return (e, m + n + k)
  | .unary op inner ty => do
    let (inner, n) ← castExpr o spot (some (unaryOperandTy op ty)) inner
    let (e, k) ← castIfRequired o spot required (.unary op inner ty)
    return (e, n + k)
  | .list elems ty => do
    let (elems, n) ← castAll o spot ty.elem? elems
    let (e, k) ← castIfRequired o spot required (.list elems ty)
    return (e, n + k)
  | .bool b => castIfRequired o spot required (.bool b)
  | .int value ty => castIfRequired o spot required (.int value ty)
  | .str s => castIfRequired o spot required (.str s)
  | .var v => castIfRequired o spot required (.var v)

def castAll (o : Outside) (spot : Spot) (required : Option Ty) : List Expr → Transform (List Expr × Nat)
  | [] => return ([], 0)
  | e :: rest => do
    let (e, m) ← castExpr o spot required e
    let (rest, n) ← castAll o spot required rest
    return (e :: rest, m + n)

end

def castArgs (o : Outside) (spot : Spot) : List Expr → List Ty → Transform (List Expr × Nat)
  | e :: rest, ty :: tys => do
    let (e, m) ← castExpr o spot (some ty) e
    let (rest, n) ← castArgs o spot rest tys
    return (e :: rest, m + n)
  | _, _ => return ([], 0)

/-! ## Instructions -/

/-- Let a load have a target of the type it reads, and cast into a temporary of the declared type
after it. All reads of the target become reads of the temporary. -/
def retypeLoad (load : InstId) (target : LocalId) (loaded declared : Ty) : Edit Unit := do
  let name := match (← get).local? target with
    | some v => v.name
    | none => ""
  let casted ← newTemp declared ("casted_" ++ name)
  let _ ← replaceUses (.loc target) (.loc casted)
  retype target loaded
  let _ ← insertAfter load (.cast (.loc target) casted declared)

/-- The parameter types of a callee that takes as many arguments as are given. -/
def requireParams (o : Outside) (callee : ProcId) (args : List Expr) : Transform (List Ty) := do
  let shown := fun (i : Nat) => args[i]?.getD (.bool false)
  match o.callees[callee.index]? with
  | none => missingContext o (shown 0) ("unknown procedure " ++ callee.text)
  | some s =>
    let expected := s.params.length
    if expected ≠ args.length then
      missingContext o (shown expected) ("'" ++ s.name ++ "' takes " ++ toString expected ++ " argument(s) but "
        ++ toString args.length ++ " were supplied")
    else return s.params

def castInst (o : Outside) (id : InstId) : Inst → Transform Nat
  | .assign target value => do
    let required ← requireTy o (.var (.loc target))
    let (value, n) ← castExpr o (.before id) (some required) value
    let _ ← replaceInst id (.assign target value)
    return n
  | .load target source indexes => do
    let (indexes, n) ← castAll o (.before id) none indexes
    let _ ← replaceInst id (.load target source indexes)
    let loaded ← requireElement o source indexes.length
    let declared ← requireTy o (.var (.loc target))
    if declared.needsCast loaded then
      retypeLoad id target loaded declared
      return n + 1
    else return n
  | .store target indexes value => do
    let (indexes, m) ← castAll o (.before id) none indexes
    let required ← requireElement o target indexes.length
    let (value, n) ← castExpr o (.before id) (some required) value
    let _ ← replaceInst id (.store target indexes value)
    return m + n
  | .call target callee args => do
    let tys ← requireParams o callee args
    let (args, n) ← castArgs o (.before id) args tys
    let _ ← replaceInst id (.call target callee args)
    return n
  | .ret (some value) => do
    let required := (← get).returnTy
    if required = .void then missingContext o value "value returned from a void procedure"
    else
      let (value, n) ← castExpr o (.before id) (some required) value
      let _ ← replaceInst id (.ret (some value))
      return n
  | _ => return 0

def castInsts (o : Outside) : List InstId → Transform Nat
  | [] => return 0
  | id :: rest => do
    let first ← match (← get).inst? id with
      | some data => castInst o id data.inst
      | none => pure 0
    let others ← castInsts o rest
    return first + others

/-! ## Joins -/

/-- What casting operands hands on: the position of the construct, and the number of casts. -/
structure JoinCasts where
  pos : Nat
  casts : Nat
deriving DecidableEq, Repr

/-- Cast the operands of a phi to the type of its target, each at the end of the block it comes
from. -/
def castArms (o : Outside) (list : NodeList) (required : Ty) :
    JoinCasts → List PhiArm → Transform (List PhiArm × JoinCasts)
  | done, [] => return ([], done)
  | done, arm :: rest => do
    if (← requireTy o (.var arm.var)).needsCast required then
      let (block, inserted) ← edgeBlock list done.pos arm.edge
      let casted ← newTemp required "casted"
      let _ ← appendInst block (.cast arm.var casted required)
      let pos := if inserted then done.pos + 1 else done.pos
      let (rest, done) ← castArms o list required ⟨pos, done.casts + 1⟩ rest
      return ({ arm with var := .loc casted } :: rest, done)
    else
      let (rest, done) ← castArms o list required done rest
      return (arm :: rest, done)

def castPhis (o : Outside) (list : NodeList) : JoinCasts → List InstId → Transform JoinCasts
  | done, [] => return done
  | done, id :: rest => do
    match (← get).inst? id with
    | some ⟨.phi target arms, _, _⟩ =>
      let required ← requireTy o (.var (.loc target))
      let (arms, done) ← castArms o list required done arms
      let _ ← replaceInst id (.phi target arms)
      castPhis o list done rest
    | _ => castPhis o list done rest

/-! ## Conditions -/

def setCondition (id : NodeId) (condition : Expr) : Edit Unit :=
  modify fun p => { p with nodes := p.nodes.modify id.index fun node => match node with
    | .branch _ t e j => .branch condition t e j
    | .loop _ b j => .loop condition b j
    | .block insts => .block insts }

/-- Cast the condition of a construct to `bool`. New instructions go into a block of their own,
which stands in no list; the answer is that block and the number of casts. -/
def castCondition (o : Outside) (id : NodeId) (condition : Expr) : Transform (NodeId × Nat) := do
  let scratch ← newBlock
  let (condition, n) ← castExpr o (.atEnd scratch) (some .bool) condition
  setCondition id condition
  return (scratch, n)

/-- The pairs of a phi's target and its operand on an edge, for the phis among the instructions of a
join. -/
def phiSources (p : Procedure) (edge : Edge) (ids : List InstId) : List (VarRef × VarRef) :=
  ids.flatMap fun id => match p.inst? id with
    | some ⟨.phi target arms, _, _⟩ => (arms.filter (·.edge = edge)).map fun arm => (.loc target, arm.var)
    | _ => []

def substitute (pairs : List (VarRef × VarRef)) (i : Inst) : Inst :=
  pairs.foldl (fun i pair => (i.replaceUse pair.1 pair.2).1) i

/-- Append copies of instructions to a block, with the values that the phis of a join take on an
edge. -/
def copyOnEdge (join : NodeId) (edge : Edge) (ids : List InstId) (block : NodeId) : Edit Unit := do
  let p ← get
  let pairs := p.phiSources edge (p.blockInsts join)
  let copies ← copyInsts block [] ids
  modify fun p =>
    { p with insts := copies.foldl (fun insts copy =>
        insts.modify copy.2.index fun d => { d with inst := substitute pairs d.inst }) p.insts }

def countCasts (p : Procedure) (ids : List InstId) : Nat :=
  ids.countP fun id => match p.inst? id with
    | some ⟨.cast _ _ _, _, _⟩ => true
    | _ => false

/-! ## Nodes -/

/-- Put the instructions that a condition needs before a conditional; the answer is the number of
nodes put there. -/
def placeBefore (list : NodeList) (pos : Nat) (scratch : NodeId) : Edit Nat := do
  if ((← get).blockInsts scratch).isEmpty then return 0
  else
    let (block, inserted) ← blockBefore list pos
    appendBlock block scratch
    return if inserted then 1 else 0

/-- Put the instructions that a condition needs before a loop and at the end of its body. Reads of
the phis of the join become reads of the operands on the edge. The answer is the number of nodes put
before the loop. -/
def placeAround (list : NodeList) (pos : Nat) (loop join scratch : NodeId) : Edit Nat := do
  let insts := (← get).blockInsts scratch
  if insts.isEmpty then return 0
  else
    let (block, inserted) ← blockBefore list pos
    copyOnEdge join .entry insts block
    let last ← ensureLastBlock (.bodyOf loop)
    copyOnEdge join .back insts last
    return if inserted then 1 else 0

/-- Insert casts into a node of a list, down to the given number of levels. The answer is the number
of nodes put before it, and the number of casts added to those given. -/
def castNode (o : Outside) : Nat → NodeList → Nat → NodeId → Nat → Transform (Nat × Nat)
  | 0, _, _, _, casts => return (0, casts)
  | depth + 1, list, pos, id, casts => do
    match (← get).node? id with
    | none => return (0, casts)
    | some (.block insts) => return (0, casts + (← castInsts o insts))
    | some (.branch condition _ _ join) =>
      let (scratch, n) ← castCondition o id condition
      let shift ← placeBefore list pos scratch
      freeNode scratch
      let casts ← Transform.visitEach (castNode o depth (.thenOf id)) 0 ((← get).listNodes (.thenOf id)) (casts + n)
      let casts ← Transform.visitEach (castNode o depth (.elseOf id)) 0 ((← get).listNodes (.elseOf id)) casts
      let done ← castPhis o list ⟨pos + shift, casts⟩ ((← get).blockInsts join)
      return (done.pos - pos, done.casts)
    | some (.loop condition _ join) =>
      let (scratch, n) ← castCondition o id condition
      let casts ← Transform.visitEach (castNode o depth (.bodyOf id)) 0 ((← get).listNodes (.bodyOf id)) (casts + n)
      let done ← castPhis o list ⟨pos, casts⟩ ((← get).blockInsts join)
      let p ← get
      let again := p.countCasts (p.blockInsts scratch)
      let shift ← placeAround list done.pos id join scratch
      freeNode scratch
      return (done.pos + shift - pos, done.casts + again)

/-- Insert casts so that every expression has the type its place requires; the answer is the number
of casts. -/
def insertCasts (o : Outside) : Transform Nat := do
  let p ← get
  Transform.visitEach (castNode o (p.depth + 1) .body) 0 p.body 0

end Procedure

def Actor.insertCasts (a : Actor) : Except PassError Nat × Actor :=
  a.transformProcs (Procedure.insertCasts ⟨a.globals, a.signatures⟩)

end ActorNet
