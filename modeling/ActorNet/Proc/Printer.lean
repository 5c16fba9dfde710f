import ActorNet.Proc.Basic

/-!
# The text of procedures

A listing of a procedure: one instruction a line, two blanks of indentation a level, phis after the
conditional and before the loop whose join holds them.
-/

namespace ActorNet

/-- What the listing of a procedure refers to. -/
structure Listing where
  proc : Procedure
  scope : Scope
  callees : List Signature

namespace Listing

def indent (level : Nat) : String :=
  String.ofList (List.replicate (2 * level) ' ')

def line (level : Nat) (text : String) : String :=
  indent level ++ text ++ "\n"

def indexesText (l : Listing) (indexes : List Expr) : String :=
  String.join (indexes.map fun e => "[" ++ e.text l.scope ++ "]")

def armText (l : Listing) (arm : PhiArm) : String :=
  let guard := match arm.guard with
    | some guard => " [" ++ guard.text l.scope ++ "]"
    | none => ""
  arm.edge.label ++ guard ++ ": " ++ l.scope.name arm.var

def calleeName (l : Listing) (id : ProcId) : String :=
  match l.callees[id.index]? with
  | some signature => signature.name
  | none => id.text

def instText (l : Listing) : Inst → String
  | .assign target value => l.scope.name (.loc target) ++ " := " ++ value.text l.scope
  | .load target source indexes =>
    l.scope.name (.loc target) ++ " := load " ++ l.scope.name source ++ l.indexesText indexes
  | .store target indexes value =>
    "store " ++ l.scope.name target ++ l.indexesText indexes ++ " := " ++ value.text l.scope
  | .call target callee args =>
    let target := match target with
      | some id => l.scope.name (.loc id) ++ " := "
      | none => ""
    target ++ "call " ++ l.calleeName callee ++ "("
      ++ String.intercalate ", " (args.map (·.text l.scope)) ++ ")"
  | .phi target arms =>
    l.scope.name (.loc target) ++ " := phi(" ++ String.intercalate ", " (arms.map l.armText) ++ ")"
  | .ret (some value) => "return " ++ value.text l.scope
  | .ret none => "return"
  | .cast source target ty =>
    l.scope.name (.loc target) ++ " := cast<" ++ ty.text ++ "> " ++ l.scope.name source

def instLine (l : Listing) (level : Nat) (id : InstId) : String :=
  match l.proc.inst? id with
  | none => line level ("<freed " ++ id.text ++ ">")
  | some data =>
    let predicate := match data.predicate with
      | some predicate => "[" ++ predicate.text l.scope ++ "] "
      | none => ""
    line level (predicate ++ l.instText data.inst)

/-- The lines of a node at an indentation level, down to the given number of levels of nodes. -/
def nodeLines (l : Listing) : Nat → Nat → NodeId → String
  | 0, _, _ => ""
  | depth + 1, level, id =>
    match l.proc.node? id with
    | none => line level ("<freed " ++ id.text ++ ">")
    | some (.block insts) => String.join (insts.map (l.instLine level))
    | some (.branch condition thenNodes elseNodes join) =>
      line level ("if " ++ condition.text l.scope ++ " \x7b")
        ++ String.join (thenNodes.map (nodeLines l depth (level + 1)))
        ++ (if elseNodes.isEmpty then ""
            else line level "\x7d else \x7b" ++ String.join (elseNodes.map (nodeLines l depth (level + 1))))
        ++ line level "\x7d"
        ++ nodeLines l depth level join
    | some (.loop condition body join) =>
      nodeLines l depth level join
        ++ line level ("while " ++ condition.text l.scope ++ " \x7b")
        ++ String.join (body.map (nodeLines l depth (level + 1)))
        ++ line level "\x7d"

end Listing

/-- The listing of a procedure. State variables and callees are shown by name where they are
known. -/
def Procedure.text (p : Procedure) (globals : List Variable) (callees : List Signature) : String :=
  let l : Listing := ⟨p, p.scope globals, callees⟩
  let params := p.params.filterMap fun id => (p.local? id).map fun v => v.ty.text ++ " " ++ v.displayName
  "proc " ++ p.name ++ "(" ++ String.intercalate ", " params ++ ") -> " ++ p.returnTy.text ++ " \x7b\n"
    ++ String.join (p.body.map (l.nodeLines (p.nodes.size + 1) 1)) ++ "\x7d\n"

end ActorNet
