import ActorNet.Actor.Document
import ActorNet.Proofs.Documents.Entries
import ActorNet.Proofs.Documents.Types

/-!
# Documents can be decoded again

The JSON value of an actor holds types, which are written as texts, and numbers, which are read back
as 32-bit words. `Actor.types` and `Actor.words` list them. An actor whose types have a readable
text and whose numbers are words is decoded from its own JSON value, up to the supply of action
handles, which is not written (`Actor.plain_toJson_and_decodes`).

`Coded` is what each part of a document contributes: its JSON value is plain, and decoding gives the
part back.
-/

namespace ActorNet

open List Procedure Text

variable {e : Expr} {fields : List (String × Json)} {n : Nat} {α : Type}

/-! ## The types and the numbers of a document -/

namespace Expr

mutual

def types : Expr → List Ty
  | .int _ ty => [ty]
  | .list elems ty => ty :: typesOf elems
  | .unary _ e ty => ty :: e.types
  | .binary _ lhs rhs ty => ty :: (lhs.types ++ rhs.types)
  | _ => []

def typesOf : List Expr → List Ty
  | [] => []
  | e :: rest => e.types ++ typesOf rest

end

lemma typesOf_eq_flatMap (elems : List Expr) : typesOf elems = elems.flatMap types := by
  induction elems with
  | nil => rfl
  | cons e rest ih => rw [typesOf, ih, flatMap_cons]

end Expr

/-- The number of a variable. -/
def VarRef.index : VarRef → Nat
  | loc id => id.index
  | glob id => id.index

/-- The numbers in an expression. -/
def Expr.words (e : Expr) : List Nat :=
  e.uses.map VarRef.index

namespace Variable

def types (v : Variable) : List Ty :=
  v.ty :: v.init.toList.flatMap Expr.types

/-- The numbers in a variable. -/
def words (v : Variable) : List Nat :=
  v.index :: (v.suffix.toList ++ v.init.toList.flatMap Expr.words)

end Variable

namespace PhiArm

def types (arm : PhiArm) : List Ty :=
  arm.guard.toList.flatMap Expr.types

/-- The numbers in an operand. -/
def words (arm : PhiArm) : List Nat :=
  arm.var.index :: arm.guard.toList.flatMap Expr.words

end PhiArm

namespace Inst

def types : Inst → List Ty
  | assign _ value => value.types
  | load _ _ indexes => indexes.flatMap Expr.types
  | store _ indexes value => indexes.flatMap Expr.types ++ value.types
  | call _ _ args => args.flatMap Expr.types
  | phi _ arms => arms.flatMap PhiArm.types
  | ret value => value.toList.flatMap Expr.types
  | cast _ _ ty => [ty]

/-- The numbers in an instruction. -/
def words : Inst → List Nat
  | assign target value => target.index :: value.words
  | load target source indexes => target.index :: source.index :: indexes.flatMap Expr.words
  | store target indexes value => target.index :: (indexes.flatMap Expr.words ++ value.words)
  | call target callee args => target.toList.map LocalId.index ++ callee.index :: args.flatMap Expr.words
  | phi target arms => target.index :: arms.flatMap PhiArm.words
  | ret value => value.toList.flatMap Expr.words
  | cast source target _ => [source.index, target.index]

end Inst

namespace InstData

def types (d : InstData) : List Ty :=
  d.inst.types ++ d.predicate.toList.flatMap Expr.types

/-- The numbers in an instruction and its predicate. -/
def words (d : InstData) : List Nat :=
  d.block.index :: (d.inst.words ++ d.predicate.toList.flatMap Expr.words)

end InstData

namespace Node

def types (node : Node) : List Ty :=
  node.condition?.toList.flatMap Expr.types

/-- The numbers in a node. -/
def words : Node → List Nat
  | block insts => insts.map InstId.index
  | branch condition thenNodes elseNodes join =>
    join.index :: ((thenNodes ++ elseNodes).map NodeId.index ++ condition.words)
  | loop condition body join => join.index :: (body.map NodeId.index ++ condition.words)

end Node

namespace Procedure

def types (p : Procedure) : List Ty :=
  p.returnTy :: (p.locals.values.flatMap Variable.types ++
    (p.nodes.values.flatMap Node.types ++ p.insts.values.flatMap InstData.types))

/-- The numbers in a procedure. -/
def words (p : Procedure) : List Nat :=
  p.nextTemp :: (p.params.map LocalId.index ++ (p.body.map NodeId.index ++ (p.locals.values.flatMap Variable.words ++
    (p.nodes.values.flatMap Node.words ++ p.insts.values.flatMap InstData.words))))

end Procedure

/-- The numbers in an action. -/
def Action.words (a : Action) : List Nat :=
  [a.id.index, a.scheduler.index, a.body.index] ++ (a.input.entries.map (·.2) ++ a.output.entries.map (·.2))

/-- The numbers in a state machine. -/
def Fsm.words (m : Fsm) : List Nat :=
  m.initial.index :: m.transitions.flatMap fun t => [t.source.index, t.action.index, t.target.index]

namespace Actor

def types (a : Actor) : List Ty :=
  a.inputs.map Port.ty ++ (a.outputs.map Port.ty ++ (a.globals.flatMap Variable.types ++ a.procs.flatMap Procedure.types))

/-- The numbers in an actor, its literals and its supply of handles excepted. -/
def words (a : Actor) : List Nat :=
  a.globals.flatMap Variable.words ++ (a.procs.flatMap Procedure.words ++
    (a.actions.flatMap Action.words ++ a.fsm.toList.flatMap Fsm.words))

end Actor

/-- Types have a readable text, and numbers are 32-bit words. -/
structure Written (types : List Ty) (words : List Nat) : Prop where
  types : ∀ ty ∈ types, ty.Within 64 64
  words : ∀ n ∈ words, n ≤ word32Max

lemma Written.mono {types types' : List Ty} {words words' : List Nat} (h : Written types words)
    (htypes : types' ⊆ types) (hwords : words' ⊆ words) : Written types' words' :=
  ⟨fun ty hty => h.types ty (htypes hty), fun n hn => h.words n (hwords hn)⟩

lemma Written.of_mem {xs : List α} {x : α} {f : α → List Ty} {g : α → List Nat}
    (h : Written (xs.flatMap f) (xs.flatMap g)) (hx : x ∈ xs) : Written (f x) (g x) :=
  h.mono (fun _ hty => mem_flatMap.mpr ⟨x, hx, hty⟩) fun _ hn => mem_flatMap.mpr ⟨x, hx, hn⟩

/-! ## Decoding what was encoded -/

/-- The JSON value of an object is plain, and the object is decoded from it. -/
@[mk_iff] structure Coded {α : Type} (encode : α → Json) (decode : Json → Option α) (x : α) : Prop where
  plain : (encode x).Plain
  decodes : decode (encode x) = some x

namespace Json

variable {encode : α → Json} {decode : Json → Option α}

lemma plainElems_iff {elems : List Json} : PlainElems elems ↔ ∀ j ∈ elems, j.Plain := by
  induction elems with
  | nil => simp [PlainElems]
  | cons j rest ih => rw [PlainElems, ih, forall_mem_cons]

lemma plainFields_iff : PlainFields fields ↔ ∀ field ∈ fields, field.2.Plain := by
  induction fields with
  | nil => simp [PlainFields]
  | cons field rest ih => rw [PlainFields, ih, forall_mem_cons]

lemma plain_obj : (obj fields).Plain ↔ ∀ field ∈ fields, field.2.Plain :=
  plainFields_iff

lemma plain_str (s : String) : (str s).Plain := trivial

lemma plain_bool (b : Bool) : (bool b).Plain := trivial

lemma plain_word (h : n ≤ word32Max) : (int n).Plain := by
  have hmax : word32Max ≤ word64Max := by decide
  exact ⟨by omega, by omega⟩

lemma asWord32?_int (h : n ≤ word32Max) : (int n).asWord32? = some n := by
  have hrange : 0 ≤ (n : Int) ∧ (n : Int) ≤ word32Max := by omega
  simp [asWord32?, asNat?, hrange]

lemma int64_range (n : Int64) : -(int64Max + 1 : Int) ≤ n.toInt ∧ n.toInt ≤ int64Max := by
  have hlow := n.le_toInt
  have hhigh := n.toInt_lt
  simp only [int64Max]
  omega

lemma plain_int64 (n : Int64) : (int n.toInt).Plain := by
  have hrange := int64_range n
  have hmax : int64Max ≤ word64Max := by decide
  exact ⟨by omega, by omega⟩

lemma asInt64?_int (n : Int64) : (int n.toInt).asInt64? = some n := by
  simp only [asInt64?, if_pos (int64_range n), Int64.ofInt_toInt]

lemma coded_list (xs : List α) (h : ∀ x ∈ xs, Coded encode decode x) :
    Coded (fun xs => .arr (xs.map encode)) (listOf? decode) xs := by
  refine ⟨plainElems_iff.mpr fun j hj => ?_, ?_⟩
  · obtain ⟨x, hx, rfl⟩ := mem_map.mp hj
    exact (h x hx).plain
  · induction xs with
    | nil => rfl
    | cons x xs ih =>
      have hrest : (xs.map encode).mapM decode = some xs := ih fun y hy => h y (mem_cons_of_mem _ hy)
      simp [listOf?, mapM_cons, (h x mem_cons_self).decodes, hrest]

lemma coded_map {entries : List (String × α)} (hnames : (entries.map (·.1)).Nodup)
    (h : ∀ e ∈ entries, Coded encode decode e.2) : Coded
    (fun entries => .obj (entries.map fun e => (e.1, encode e.2))) (mapOf? decode) entries := by
  refine ⟨plain_obj.mpr fun field hfield => ?_, ?_⟩
  · obtain ⟨e, he, rfl⟩ := mem_map.mp hfield
    exact (h e he).plain
  · have hfields : (entries.map fun e => (e.1, encode e.2)).mapM
        (fun field : String × Json => (decode field.2).map (field.1, ·)) = some entries := by
      clear hnames
      induction entries with
      | nil => rfl
      | cons e rest ih =>
        obtain ⟨he, hrest⟩ := forall_mem_cons.mp h
        simp [mapM_cons, he.decodes, ih hrest]
    rw [mapOf?, hfields, Option.map_some, collectEntries_of_nodup hnames]

lemma coded_option (hnull : ∀ x, encode x ≠ .null) (x : Option α)
    (h : ∀ y ∈ x, Coded encode decode y) : Coded (optionToJson encode) (optionOf? decode) x := by
  cases x with
  | none => exact ⟨trivial, rfl⟩
  | some y =>
    refine ⟨(h y rfl).plain, ?_⟩
    have hsome : optionOf? decode (encode y) = (decode (encode y)).map some := by
      rw [optionOf?]
      exact hnull y
    rw [optionToJson, hsome, (h y rfl).decodes, Option.map_some]

end Json

open Json

-- a record is decoded by looking up its fields
attribute [local simp] coded_iff plain_obj plain_str plain_bool payload? tagged? record? Record.required? Record.defaulting?
  List.lookup_cons asString? asBool?

lemma coded_handle (mk : Nat → α) (index : α → Nat) (hmk : ∀ x, mk (index x) = x) {x : α}
    (h : index x ≤ word32Max) : Coded (fun x => .int (index x)) (fun j => j.asWord32?.map mk) x :=
  ⟨plain_word h, by rw [asWord32?_int h, Option.map_some, hmk]⟩

lemma coded_local {id : LocalId} (h : id.index ≤ word32Max) : Coded LocalId.toJson LocalId.ofJson? id :=
  coded_handle LocalId.mk LocalId.index (fun _ => rfl) h

lemma coded_global {id : GlobalId} (h : id.index ≤ word32Max) : Coded GlobalId.toJson GlobalId.ofJson? id :=
  coded_handle GlobalId.mk GlobalId.index (fun _ => rfl) h

lemma coded_node {id : NodeId} (h : id.index ≤ word32Max) : Coded NodeId.toJson NodeId.ofJson? id :=
  coded_handle NodeId.mk NodeId.index (fun _ => rfl) h

lemma coded_inst {id : InstId} (h : id.index ≤ word32Max) : Coded InstId.toJson InstId.ofJson? id :=
  coded_handle InstId.mk InstId.index (fun _ => rfl) h

lemma coded_proc {id : ProcId} (h : id.index ≤ word32Max) : Coded ProcId.toJson ProcId.ofJson? id :=
  coded_handle ProcId.mk ProcId.index (fun _ => rfl) h

lemma coded_action {id : ActionId} (h : id.index ≤ word32Max) : Coded ActionId.toJson ActionId.ofJson? id :=
  coded_handle ActionId.mk ActionId.index (fun _ => rfl) h

lemma coded_state {id : StateId} (h : id.index ≤ word32Max) : Coded StateId.toJson StateId.ofJson? id :=
  coded_handle StateId.mk StateId.index (fun _ => rfl) h

lemma coded_ty {ty : Ty} (h : ty.Within 64 64) : Coded Ty.toJson Ty.ofJson? ty :=
  ⟨trivial, Ty.ofJson?_toJson h⟩

lemma coded_port {port : Port} (h : port.ty.Within 64 64) : Coded Port.toJson Port.ofJson? port := by
  have hty := coded_ty h
  simp_all [Port.toJson, Port.ofJson?]

lemma coded_var {v : VarRef} (h : v.index ≤ word32Max) : Coded VarRef.toJson VarRef.ofJson? v := by
  cases v with
  | loc id =>
    have hid : Coded LocalId.toJson LocalId.ofJson? id := coded_local h
    simp_all [VarRef.toJson, VarRef.ofJson?]
  | glob id =>
    have hid : Coded GlobalId.toJson GlobalId.ofJson? id := coded_global h
    simp_all [VarRef.toJson, VarRef.ofJson?]

namespace Expr

lemma toJsons_eq_map (elems : List Expr) : toJsons elems = elems.map toJson := by
  induction elems with
  | nil => rfl
  | cons e rest ih => rw [toJsons, ih, map_cons]

lemma unaryOp_ofJson? (op : UnaryOp) : UnaryOp.ofJson? (.str op.tag) = some op := by
  cases op <;> rfl

lemma binaryOp_ofJson? (op : BinaryOp) : BinaryOp.ofJson? (.str op.tag) = some op := by
  cases op <;> rfl

/-- The JSON value of an expression is plain, and the expression is decoded from it as soon as the
budget reaches its height. -/
structure CodedAt (e : Expr) : Prop where
  plain : e.toJson.Plain
  decodes : ∀ {budget : Nat}, e.toJson.height ≤ budget → ofJsonAt? budget e.toJson = some e

/-- The value of an expression is an object, so a budget for it is not zero. -/
lemma CodedAt.of_succ (hplain : e.toJson.Plain)
    (h : ∀ {budget : Nat}, e.toJson.height ≤ budget + 1 → ofJsonAt? (budget + 1) e.toJson = some e) : e.CodedAt := by
  refine ⟨hplain, fun {budget} hbudget => ?_⟩
  cases budget with
  | zero => cases e <;> simp [toJson, height] at hbudget
  | succ budget => exact h hbudget

lemma mapM_ofJsonAt? {elems : List Expr} (h : ∀ e ∈ elems, e.CodedAt) {budget : Nat}
    (hbudget : elemsHeight (elems.map toJson) ≤ budget) : (elems.map toJson).mapM (ofJsonAt? budget) = some elems := by
  induction elems with
  | nil => rfl
  | cons e rest ih =>
    rw [map_cons, elemsHeight, Nat.max_le] at hbudget
    simp [mapM_cons, (h e mem_cons_self).decodes hbudget.1, ih (fun e' he' => h e' (mem_cons_of_mem _ he')) hbudget.2]

mutual

lemma codedAt : (e : Expr) → Written e.types e.words → e.CodedAt
  | .bool b, _ => .of_succ (by simp [toJson]) fun _ => by simp [toJson, ofJsonAt?]
  | .int value ty, h => by
    have hty := coded_ty (h.types ty (by simp [types]))
    refine .of_succ (by simp [toJson, plain_int64, hty.plain]) fun _ => ?_
    simp [toJson, ofJsonAt?, asInt64?_int, hty.decodes]
  | .str s, _ => .of_succ (by simp [toJson]) fun _ => by simp [toJson, ofJsonAt?]
  | .list elems ty, h => by
    have hty := coded_ty (h.types ty (by simp [types]))
    have helems := codedAll elems (h.mono (by simp [types]) (by simp [words, uses]))
    have hplain : (Json.arr (toJsons elems)).Plain := by
      rw [toJsons_eq_map]
      refine plainElems_iff.mpr fun j hj => ?_
      obtain ⟨e, he, rfl⟩ := mem_map.mp hj
      exact (helems e he).plain
    refine .of_succ (by simp [toJson, hty.plain, hplain]) fun {budget} hbudget => ?_
    have hdecode : (elems.map toJson).mapM (ofJsonAt? budget) = some elems := by
      refine mapM_ofJsonAt? helems ?_
      simp only [toJson, height, fieldsHeight, toJsons_eq_map] at hbudget
      omega
    simp [toJson, ofJsonAt?, listOf?, toJsons_eq_map, hdecode, hty.decodes]
  | .unary op e ty, h => by
    have hty := coded_ty (h.types ty (by simp [types]))
    have he := codedAt e (h.mono (by simp [types]) (by simp [words, uses]))
    refine .of_succ (by simp [toJson, hty.plain, he.plain]) fun {budget} hbudget => ?_
    have hdecode : ofJsonAt? budget e.toJson = some e := by
      refine he.decodes ?_
      simp only [toJson, height, fieldsHeight] at hbudget
      omega
    simp [toJson, ofJsonAt?, unaryOp_ofJson?, hdecode, hty.decodes]
  | .binary op lhs rhs ty, h => by
    have hty := coded_ty (h.types ty (by simp [types]))
    have hl := codedAt lhs (h.mono (by simp [types]) (by simp [words, uses]))
    have hr := codedAt rhs (h.mono (by simp [types]) (by simp [words, uses]))
    refine .of_succ (by simp [toJson, hty.plain, hl.plain, hr.plain]) fun {budget} hbudget => ?_
    have hbudget : lhs.toJson.height ≤ budget ∧ rhs.toJson.height ≤ budget := by
      simp only [toJson, height, fieldsHeight] at hbudget
      omega
    simp [toJson, ofJsonAt?, binaryOp_ofJson?, hl.decodes hbudget.1, hr.decodes hbudget.2, hty.decodes]
  | .var v, h => by
    have hv := coded_var (h.words v.index (by simp [words, uses]))
    refine .of_succ (by simp [toJson, hv.plain]) fun _ => ?_
    simp [toJson, ofJsonAt?, hv.decodes]

lemma codedAll : (elems : List Expr) → Written (typesOf elems) ((usesOf elems).map VarRef.index) →
    ∀ e ∈ elems, e.CodedAt
  | [], _ => forall_mem_nil _
  | e :: rest, h => forall_mem_cons.mpr
    ⟨codedAt e (h.mono (by simp [typesOf]) (by simp [words, usesOf])),
      codedAll rest (h.mono (by simp [typesOf]) (by simp [usesOf]))⟩

end

end Expr

lemma coded_expr (e : Expr) (h : Written e.types e.words) : Coded Expr.toJson Expr.ofJson? e :=
  have he := e.codedAt h
  ⟨he.plain, he.decodes (Nat.le_succ _)⟩

lemma expr_ne_null (e : Expr) : e.toJson ≠ .null := by
  cases e <;> simp [Expr.toJson]

lemma coded_exprs (es : List Expr) (h : Written (es.flatMap Expr.types) (es.flatMap Expr.words)) :
    Coded (fun es => .arr (es.map Expr.toJson)) (listOf? Expr.ofJson?) es :=
  coded_list es fun e he => coded_expr e (h.of_mem he)

lemma coded_optionalExpr (e : Option Expr) (h : Written (e.toList.flatMap Expr.types) (e.toList.flatMap Expr.words)) :
    Coded (optionToJson Expr.toJson) (optionOf? Expr.ofJson?) e := by
  refine coded_option expr_ne_null e fun e' he' => coded_expr e' (h.of_mem ?_)
  exact Option.mem_toList.mpr he'

attribute [local simp] Variable.types Variable.words PhiArm.types PhiArm.words Inst.types Inst.words InstData.types InstData.words
  Node.types Node.words

lemma coded_variable {v : Variable} (h : Written v.types v.words) : Coded Variable.toJson Variable.ofJson? v := by
  have hty := coded_ty (h.types v.ty (by simp))
  have hindex := h.words v.index (by simp)
  have hsuffix : Coded (optionToJson fun n => .int (n : Nat)) (optionOf? asWord32?) v.suffix := by
    refine coded_option (fun n => by simp) v.suffix fun n hn => ?_
    have hword : n ≤ word32Max := h.words n (by simp [Option.mem_def.mp hn])
    exact ⟨plain_word hword, asWord32?_int hword⟩
  have hinit := coded_optionalExpr v.init (h.mono (by simp) (by simp))
  simp_all [Variable.toJson, Variable.ofJson?, plain_word, asWord32?_int]

lemma coded_arm {arm : PhiArm} (h : Written arm.types arm.words) : Coded PhiArm.toJson PhiArm.ofJson? arm := by
  have hedge : Edge.ofJson? (.str arm.edge.tag) = some arm.edge := by
    cases arm.edge <;> rfl
  have hvar := coded_var (h.words arm.var.index (by simp))
  obtain ⟨edge, v, _ | guard⟩ := arm
  · simp_all [PhiArm.toJson, PhiArm.ofJson?]
  · have hguard := coded_optionalExpr (some guard) (h.mono (by simp) (by simp))
    simp_all [PhiArm.toJson, PhiArm.ofJson?, optionToJson]

lemma coded_instruction {i : Inst} (h : Written i.types i.words) : Coded Inst.toJson Inst.ofJson? i := by
  cases i
  case' assign target value =>
    have htarget := coded_local (h.words target.index (by simp))
    have hvalue := coded_expr value (h.mono (by simp) (by simp))
  case' load target source indexes =>
    have htarget := coded_local (h.words target.index (by simp))
    have hsource := coded_var (h.words source.index (by simp))
    have hindexes := coded_exprs indexes (h.mono (by simp) (by simp))
  case' store target indexes value =>
    have htarget := coded_var (h.words target.index (by simp))
    have hindexes := coded_exprs indexes (h.mono (by simp) (by simp))
    have hvalue := coded_expr value (h.mono (by simp) (by simp))
  case' call target callee args =>
    have htarget := coded_option (fun _ => by simp [LocalId.toJson]) target fun id hid =>
      coded_local (h.words id.index (by simp [Option.mem_def.mp hid]))
    have hcallee := coded_proc (h.words callee.index (by simp))
    have hargs := coded_exprs args (h.mono (by simp) (by simp))
  case' phi target arms =>
    have htarget := coded_local (h.words target.index (by simp))
    have hwritten : Written (arms.flatMap PhiArm.types) (arms.flatMap PhiArm.words) :=
      h.mono (by simp) (by simp)
    have harms := coded_list arms fun arm harm => coded_arm (hwritten.of_mem harm)
  case' ret value =>
    have hvalue := coded_optionalExpr value h
  case' cast source target ty =>
    have hsource := coded_var (h.words source.index (by simp))
    have htarget := coded_local (h.words target.index (by simp))
    have hty := coded_ty (h.types ty (by simp))
  all_goals
    rw [coded_iff] at *
    simp [*, Inst.toJson, Inst.ofJson?]

lemma coded_instData {d : InstData} (h : Written d.types d.words) : Coded InstData.toJson InstData.ofJson? d := by
  have hinst := coded_instruction (h.mono (by simp) (by simp) :
    Written d.inst.types d.inst.words)
  have hblock := coded_node (h.words d.block.index (by simp))
  have hpredicate := coded_optionalExpr d.predicate (h.mono (by simp) (by simp))
  rw [coded_iff] at *
  simp [*, InstData.toJson, InstData.ofJson?]

lemma coded_nodes (ids : List NodeId) (h : ∀ n ∈ ids.map NodeId.index, n ≤ word32Max) :
    Coded (fun ids => .arr (ids.map NodeId.toJson)) (listOf? NodeId.ofJson?) ids :=
  coded_list ids fun id hid => coded_node (h id.index (mem_map_of_mem hid))

lemma coded_controlNode {node : Node} (h : Written node.types node.words) : Coded Node.toJson Node.ofJson? node := by
  cases node
  case' block insts =>
    have hinsts := coded_list insts fun id hid => coded_inst (h.words id.index (mem_map_of_mem hid))
  case' branch condition thenNodes elseNodes join =>
    have hcondition := coded_expr condition (h.mono (by simp [Node.condition?]) (by grind [Node.words]))
    have hthen := coded_nodes thenNodes fun n hn => h.words n (by grind [Node.words])
    have helse := coded_nodes elseNodes fun n hn => h.words n (by grind [Node.words])
    have hjoin := coded_node (h.words join.index (by simp))
  case' loop condition body join =>
    have hcondition := coded_expr condition (h.mono (by simp [Node.condition?]) (by simp))
    have hbody := coded_nodes body fun n hn => h.words n (by grind [Node.words])
    have hjoin := coded_node (h.words join.index (by simp))
  all_goals
    rw [coded_iff] at *
    simp [*, Node.toJson, Node.ofJson?]

lemma coded_arena {encode : α → Json} {decode : Json → Option α} (hnull : ∀ x, encode x ≠ .null) (a : Arena α)
    (h : ∀ x ∈ a.values, Coded encode decode x) : Coded (Arena.toJson encode) (Arena.ofJson? decode) a := by
  have hslots : Coded (fun slots => .arr (slots.map (optionToJson encode))) (listOf? (optionOf? decode))
      a.slots.toList := by
    refine coded_list _ fun slot hslot => coded_option hnull slot fun x hx => h x ?_
    cases hx
    exact mem_filterMap.mpr ⟨some x, hslot, rfl⟩
  refine ⟨hslots.plain, ?_⟩
  have hdecode : listOf? (optionOf? decode) (a.toJson encode) = some a.slots.toList := hslots.decodes
  rw [Arena.ofJson?, hdecode]
  rfl

lemma coded_procedure {p : Procedure} (h : Written p.types p.words) : Coded toJson ofJson? p := by
  have hparams := coded_list p.params fun id hid => coded_local (h.words id.index (by grind [words]))
  have hty := coded_ty (h.types p.returnTy (by simp [types]))
  have hlocals := coded_arena (fun _ => by simp [Variable.toJson]) p.locals fun v hv => coded_variable
    ((h.mono (by grind [types]) (by grind [words]) :
      Written (p.locals.values.flatMap Variable.types) (p.locals.values.flatMap Variable.words)).of_mem hv)
  have hnodes := coded_arena (fun node => by cases node <;> simp [Node.toJson]) p.nodes fun node hnode =>
    coded_controlNode ((h.mono (by grind [types]) (by grind [words]) :
      Written (p.nodes.values.flatMap Node.types) (p.nodes.values.flatMap Node.words)).of_mem hnode)
  have hinsts := coded_arena (fun _ => by simp [InstData.toJson]) p.insts fun d hd => coded_instData
    ((h.mono (by grind [types]) (by grind [words]) :
      Written (p.insts.values.flatMap InstData.types) (p.insts.values.flatMap InstData.words)).of_mem hd)
  have hbody := coded_nodes p.body fun n hn => h.words n (by grind [words])
  have htemp := h.words p.nextTemp (by simp [words])
  rw [coded_iff] at *
  simp [*, toJson, ofJson?, plain_word, asWord32?_int]

/-! ## Patterns -/

namespace Pattern

lemma insert_of_lt {port : String} (count : Nat) {l : List (String × Nat)}
    (h : ∀ e ∈ l, e.1 < port) : insert port count l = l ++ [(port, count)] := by
  induction l with
  | nil => rfl
  | cons e rest ih =>
    obtain ⟨hlt, hrest⟩ := forall_mem_cons.mp h
    have hne : ¬ port = e.1 := fun heq => String.lt_irrefl e.1 (heq ▸ hlt)
    rw [insert, if_neg (String.lt_asymm hlt), if_neg hne, ih hrest, cons_append]

lemma ofList_entries (p : Pattern) : ofList p.entries = p := by
  have hfold : ∀ (rest : List (String × Nat)) (q : Pattern),
      (q.entries ++ rest).Pairwise (fun a b => a.1 < b.1) →
      (rest.foldl (fun p entry => p.set entry.1 entry.2) q).entries = q.entries ++ rest := by
    intro rest
    induction rest with
    | nil => simp
    | cons e rest ih =>
      intro q hpair
      have hset : (q.set e.1 e.2).entries = q.entries ++ [e] :=
        insert_of_lt e.2 fun e' he' => (pairwise_append.mp hpair).2.2 e' he' e mem_cons_self
      rw [foldl_cons, ih]
      · simp [hset]
      · simpa [hset] using hpair
  have hentries : (ofList p.entries).entries = p.entries := hfold p.entries empty p.sorted
  cases hp : ofList p.entries
  rw [hp] at hentries
  subst hentries
  rfl

end Pattern

lemma coded_pattern (p : Pattern) (h : ∀ n ∈ p.entries.map (·.2), n ≤ word32Max) :
    Coded Pattern.toJson Pattern.ofJson? p := by
  have hnames : (p.entries.map (·.1)).Nodup := by
    refine pairwise_map.mpr (p.sorted.imp fun {a b} hlt heq => ?_)
    rw [heq] at hlt
    exact String.lt_irrefl _ hlt
  have hentries := @coded_map Nat (fun n => .int n) asWord32? p.entries hnames fun e he =>
    have hword := h e.2 (mem_map_of_mem he)
    ⟨plain_word hword, asWord32?_int hword⟩
  refine ⟨hentries.plain, ?_⟩
  rw [Pattern.ofJson?, Pattern.toJson, hentries.decodes, Option.map_some, Pattern.ofList_entries]

/-! ## Actors -/

lemma coded_firingRule {a : Action} (h : ∀ n ∈ a.words, n ≤ word32Max) : Coded Action.toJson Action.ofJson? a := by
  have hid := coded_action (h a.id.index (by simp [Action.words]))
  have hinput := coded_pattern a.input fun n hn => h n (by grind [Action.words])
  have houtput := coded_pattern a.output fun n hn => h n (by grind [Action.words])
  have hscheduler := coded_proc (h a.scheduler.index (by simp [Action.words]))
  have hbody := coded_proc (h a.body.index (by simp [Action.words]))
  have htag : Coded (optionToJson Json.str) (optionOf? asString?) a.tag :=
    coded_option (fun _ => by simp) a.tag fun s _ => ⟨plain_str s, rfl⟩
  rw [coded_iff] at *
  simp [*, Action.toJson, Action.ofJson?]

lemma coded_transition {t : Transition} (h : ∀ n ∈ [t.source.index, t.action.index, t.target.index], n ≤ word32Max) :
    Coded Transition.toJson Transition.ofJson? t := by
  simp only [mem_cons, not_mem_nil, or_false, forall_eq_or_imp, forall_eq] at h
  have hsource := coded_state h.1
  have haction := coded_action h.2.1
  have htarget := coded_state h.2.2
  rw [coded_iff] at *
  simp [*, Transition.toJson, Transition.ofJson?]

lemma coded_fsm {m : Fsm} (h : ∀ n ∈ m.words, n ≤ word32Max) : Coded Fsm.toJson Fsm.ofJson? m := by
  have hstates : Coded (fun names => .arr (names.map Fsm.stateToJson)) (listOf? Fsm.stateOfJson?) m.states := by
    refine coded_list m.states fun name _ => ⟨?_, ?_⟩
    · simp [Fsm.stateToJson]
    · simp [Fsm.stateToJson, Fsm.stateOfJson?]
  have hinitial := coded_state (h m.initial.index (by simp [Fsm.words]))
  have htransitions := coded_list m.transitions fun t ht => coded_transition fun n hn => h n (by grind [Fsm.words])
  rw [coded_iff] at *
  simp [*, Fsm.toJson, Fsm.ofJson?]

namespace Actor

lemma plain_toJson_and_decodes {a : Actor} (h : Written a.types a.words) :
    a.toJson.Plain ∧ ofJson? a.toJson = some { a with ids := {} } := by
  have hinputs := coded_list a.inputs fun port hport => coded_port (h.types port.ty (by grind [Actor.types]))
  have houtputs := coded_list a.outputs fun port hport => coded_port (h.types port.ty (by grind [Actor.types]))
  have hglobals := coded_list a.globals fun v hv => coded_variable
    ((h.mono (by grind [Actor.types]) (by grind [Actor.words]) :
      Written (a.globals.flatMap Variable.types) (a.globals.flatMap Variable.words)).of_mem hv)
  have hprocs := coded_list a.procs fun p hp => coded_procedure
    ((h.mono (by grind [Actor.types]) (by grind [Actor.words]) :
      Written (a.procs.flatMap Procedure.types) (a.procs.flatMap Procedure.words)).of_mem hp)
  have hactions := coded_list a.actions fun action haction => coded_firingRule fun n hn => by
    have hmem : n ∈ a.actions.flatMap Action.words := mem_flatMap.mpr ⟨action, haction, hn⟩
    exact h.words n (by simp only [Actor.words, mem_append, hmem, true_or, or_true])
  have hfsm := coded_option (fun _ => by simp [Fsm.toJson]) a.fsm fun m hm => coded_fsm fun n hn => by
    have hmem : n ∈ a.fsm.toList.flatMap Fsm.words := mem_flatMap.mpr ⟨m, Option.mem_toList.mpr hm, hn⟩
    exact h.words n (by simp only [Actor.words, mem_append, hmem, or_true])
  rw [coded_iff] at *
  simp [*, toJson, ofJson?]

end Actor

end ActorNet
