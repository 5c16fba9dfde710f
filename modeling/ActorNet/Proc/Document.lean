import ActorNet.Proc.Basic

/-!
# Procedures in documents

Variables, instructions, nodes and procedures as JSON values. Empty slots are written as `null`, so
handles keep their meaning.
-/

namespace ActorNet

def optionToJson {α : Type} (encode : α → Json) : Option α → Json
  | some x => encode x
  | none => .null

namespace Variable

def toJson (v : Variable) : Json :=
  .obj [("name", .str v.name), ("ty", v.ty.toJson), ("index", .int v.index),
    ("suffix", optionToJson (fun n => .int (n : Nat)) v.suffix), ("assignable", .bool v.assignable),
    ("init", optionToJson Expr.toJson v.init)]

def ofJson? (j : Json) : Option Variable := do
  let r ← j.record? ["name", "ty", "index", "suffix", "assignable", "init"]
  return {
    name := ← r.required? "name" Json.asString?
    ty := ← r.required? "ty" Ty.ofJson?
    index := ← r.defaulting? "index" 0 Json.asWord32?
    suffix := ← r.defaulting? "suffix" none (Json.optionOf? Json.asWord32?)
    assignable := ← r.defaulting? "assignable" true Json.asBool?
    init := ← r.defaulting? "init" none (Json.optionOf? Expr.ofJson?) }

end Variable

namespace Edge

def tag : Edge → String
  | thenEnd => "Then"
  | elseEnd => "Else"
  | entry => "Entry"
  | back => "Back"

def all : List Edge := [thenEnd, elseEnd, entry, back]

def ofJson? (j : Json) : Option Edge :=
  j.bareTag?.bind fun tag => all.find? (·.tag = tag)

end Edge

namespace PhiArm

def toJson (arm : PhiArm) : Json :=
  .obj ([("pred", .str arm.edge.tag), ("var", arm.var.toJson)]
    ++ match arm.guard with
      | some guard => [("guard", guard.toJson)]
      | none => [])

def ofJson? (j : Json) : Option PhiArm := do
  let r ← j.record? ["pred", "var", "guard"]
  return {
    edge := ← r.required? "pred" Edge.ofJson?
    var := ← r.required? "var" VarRef.ofJson?
    guard := ← r.defaulting? "guard" none (Json.optionOf? Expr.ofJson?) }

end PhiArm

namespace Inst

def toJson : Inst → Json
  | assign target value => .obj [("Assign", .obj [("target", target.toJson), ("value", value.toJson)])]
  | load target source indexes =>
    .obj [("Load", .obj [("target", target.toJson), ("source", source.toJson),
      ("indexes", .arr (indexes.map Expr.toJson))])]
  | store target indexes value =>
    .obj [("Store", .obj [("target", target.toJson), ("indexes", .arr (indexes.map Expr.toJson)),
      ("value", value.toJson)])]
  | call target callee args =>
    .obj [("Call", .obj [("target", optionToJson LocalId.toJson target), ("callee", callee.toJson),
      ("args", .arr (args.map Expr.toJson))])]
  | phi target arms => .obj [("Phi", .obj [("target", target.toJson), ("arms", .arr (arms.map PhiArm.toJson))])]
  | ret value => .obj [("Return", .obj [("value", optionToJson Expr.toJson value)])]
  | cast source target ty =>
    .obj [("Cast", .obj [("source", source.toJson), ("target", target.toJson), ("ty", ty.toJson)])]

def ofJson? (j : Json) : Option Inst := do
  match ← j.payload? with
  | ("Assign", fields) =>
    let r ← fields.record? ["target", "value"]
    return assign (← r.required? "target" LocalId.ofJson?) (← r.required? "value" Expr.ofJson?)
  | ("Load", fields) =>
    let r ← fields.record? ["target", "source", "indexes"]
    return load (← r.required? "target" LocalId.ofJson?) (← r.required? "source" VarRef.ofJson?)
      (← r.defaulting? "indexes" [] (Json.listOf? Expr.ofJson?))
  | ("Store", fields) =>
    let r ← fields.record? ["target", "indexes", "value"]
    return store (← r.required? "target" VarRef.ofJson?)
      (← r.defaulting? "indexes" [] (Json.listOf? Expr.ofJson?)) (← r.required? "value" Expr.ofJson?)
  | ("Call", fields) =>
    let r ← fields.record? ["target", "callee", "args"]
    return call (← r.defaulting? "target" none (Json.optionOf? LocalId.ofJson?))
      (← r.required? "callee" ProcId.ofJson?) (← r.defaulting? "args" [] (Json.listOf? Expr.ofJson?))
  | ("Phi", fields) =>
    let r ← fields.record? ["target", "arms"]
    return phi (← r.required? "target" LocalId.ofJson?) (← r.required? "arms" (Json.listOf? PhiArm.ofJson?))
  | ("Return", fields) =>
    let r ← fields.record? ["value"]
    return ret (← r.defaulting? "value" none (Json.optionOf? Expr.ofJson?))
  | ("Cast", fields) =>
    let r ← fields.record? ["source", "target", "ty"]
    return cast (← r.required? "source" VarRef.ofJson?) (← r.required? "target" LocalId.ofJson?)
      (← r.required? "ty" Ty.ofJson?)
  | _ => none

end Inst

namespace InstData

def toJson (d : InstData) : Json :=
  .obj [("kind", d.inst.toJson), ("block", d.block.toJson), ("predicate", optionToJson Expr.toJson d.predicate)]

def ofJson? (j : Json) : Option InstData := do
  let r ← j.record? ["kind", "block", "predicate"]
  return {
    inst := ← r.required? "kind" Inst.ofJson?
    block := ← r.required? "block" NodeId.ofJson?
    predicate := ← r.defaulting? "predicate" none (Json.optionOf? Expr.ofJson?) }

end InstData

namespace Node

def toJson : Node → Json
  | block insts => .obj [("Block", .obj [("insts", .arr (insts.map InstId.toJson))])]
  | branch condition thenNodes elseNodes join =>
    .obj [("If", .obj [("condition", condition.toJson), ("then_nodes", .arr (thenNodes.map NodeId.toJson)),
      ("else_nodes", .arr (elseNodes.map NodeId.toJson)), ("join", join.toJson)])]
  | loop condition body join =>
    .obj [("While", .obj [("condition", condition.toJson), ("body", .arr (body.map NodeId.toJson)),
      ("join", join.toJson)])]

def ofJson? (j : Json) : Option Node := do
  match ← j.payload? with
  | ("Block", fields) =>
    let r ← fields.record? ["insts"]
    return block (← r.required? "insts" (Json.listOf? InstId.ofJson?))
  | ("If", fields) =>
    let r ← fields.record? ["condition", "then_nodes", "else_nodes", "join"]
    return branch (← r.required? "condition" Expr.ofJson?)
      (← r.required? "then_nodes" (Json.listOf? NodeId.ofJson?))
      (← r.required? "else_nodes" (Json.listOf? NodeId.ofJson?)) (← r.required? "join" NodeId.ofJson?)
  | ("While", fields) =>
    let r ← fields.record? ["condition", "body", "join"]
    return loop (← r.required? "condition" Expr.ofJson?) (← r.required? "body" (Json.listOf? NodeId.ofJson?))
      (← r.required? "join" NodeId.ofJson?)
  | _ => none

end Node

def Arena.toJson {α : Type} (encode : α → Json) (a : Arena α) : Json :=
  .arr (a.slots.toList.map (optionToJson encode))

def Arena.ofJson? {α : Type} (decode : Json → Option α) (j : Json) : Option (Arena α) :=
  (Json.listOf? (Json.optionOf? decode) j).map Arena.ofList

namespace Procedure

def toJson (p : Procedure) : Json :=
  .obj [("name", .str p.name), ("params", .arr (p.params.map LocalId.toJson)), ("return_type", p.returnTy.toJson),
    ("native", .bool p.native), ("locals", p.locals.toJson Variable.toJson), ("nodes", p.nodes.toJson Node.toJson),
    ("insts", p.insts.toJson InstData.toJson), ("body", .arr (p.body.map NodeId.toJson)),
    ("next_temp", .int p.nextTemp)]

def ofJson? (j : Json) : Option Procedure := do
  let r ← j.record?
    ["name", "params", "return_type", "native", "locals", "nodes", "insts", "body", "next_temp"]
  return {
    name := ← r.required? "name" Json.asString?
    params := ← r.defaulting? "params" [] (Json.listOf? LocalId.ofJson?)
    returnTy := ← r.required? "return_type" Ty.ofJson?
    native := ← r.defaulting? "native" false Json.asBool?
    locals := ← r.defaulting? "locals" {} (Arena.ofJson? Variable.ofJson?)
    nodes := ← r.defaulting? "nodes" {} (Arena.ofJson? Node.ofJson?)
    insts := ← r.defaulting? "insts" {} (Arena.ofJson? InstData.ofJson?)
    body := ← r.defaulting? "body" [] (Json.listOf? NodeId.ofJson?)
    nextTemp := ← r.defaulting? "next_temp" 0 Json.asWord32? }

end Procedure

end ActorNet
