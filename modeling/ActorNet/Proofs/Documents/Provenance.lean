import ActorNet.Proofs.Documents.Typed
import ActorNet.Proofs.Merging.Steps
import ActorNet.Proofs.Structure.Transform

/-!
# Where the types of a transformed actor come from

Passes write three kinds of types into procedures: types that are there already, elements of list
types that are there, and least upper bounds of two types that are there. A property of types that
is closed under these (`Ty.Closed`) holds of all types of an actor after any passes if it does
before (`Actor.Typed.runPasses`).
-/

namespace ActorNet

open List Procedure Std.Do

set_option mvcgen.warning false

namespace Procedure

variable {T : Ty → Prop} {p : Procedure} {list : NodeList}
  {ids : List InstId} {block join : NodeId} {id : InstId} {target : LocalId} {pos : Nat}
  {ty : Ty} {arms : List PhiArm} {edges : List Edge} {c condition : Expr}
  {predicate : Option Expr} {globals : List Variable} {locals seeded bound : Bindings}

/-! ## Inserting casts -/

variable {depth : Nat}

section Casts

variable {o : Outside} {e : Expr} {es : List Expr} {spot : Spot} {scratch : NodeId}

lemma ty_of_var? (hp : p.Typed T) (hglobals : ∀ v ∈ globals, ∀ ty ∈ v.types, T ty)
    {r : VarRef} {v : Variable} (h : p.var? globals r = some v) : T v.ty := by
  cases r with
  | loc id => exact hp.locals h v.ty mem_cons_self
  | glob id => exact hglobals v (mem_of_getElem? h) v.ty mem_cons_self

lemma types_condition {n : NodeId} {node : Node} (hp : p.Typed T) (hn : p.node? n = some node)
    (hc : node.condition? = some c) : ∀ ty ∈ c.types, T ty := by
  have hnode := hp.nodes hn
  simpa [Node.types, hc] using hnode

@[spec]
lemma keeps_emit {inst : Inst} (hi : ∀ ty ∈ inst.types, T ty) : KeepsTypes T (emit spot inst) := by
  mvcgen [emit] <;> simp_all

@[spec]
lemma keeps_materialize (he : ∀ ty ∈ e.types, T ty) (hty : T ty) : KeepsTypes T (materialize spot e ty) := by
  mvcgen [materialize]

attribute [spec] lowerJoin insertPrologue insertEpilogue lastBlock

@[spec]
lemma keeps_retypeLoad {load : InstId} {loaded declared : Ty} (hl : T loaded) (hd : T declared) :
    KeepsTypes T (retypeLoad load target loaded declared) := by
  mvcgen [retypeLoad]
  exact forall_mem_singleton.mpr hd

@[spec]
lemma keeps_requireParams (ho : o.Typed T) {callee : ProcId} {args : List Expr} :
    KeepsWith T (requireParams o callee args) fun tys => ∀ ty ∈ tys, T ty := by
  mvcgen [requireParams, missingContext]
  case vc3.h_2.isFalse s hs _ _ p hp => exact ⟨hp, ho.callees s (mem_of_getElem? hs)⟩

@[spec]
lemma keeps_copyOnEdge {edge : Edge} : KeepsTypes T (copyOnEdge join edge ids block) := by
  mvcgen [copyOnEdge]
  rename_i copies q hq _
  refine hq.withInsts (hq.insts.foldl (fun a copy ha => ?_) copies)
  refine ha.modify copy.2.index fun d hd => ?_
  rwa [InstData.types, types_substitute]

@[spec]
lemma keeps_placeBefore : KeepsTypes T (placeBefore list pos scratch) := by mvcgen [placeBefore]

@[spec]
lemma keeps_placeAround {loop : NodeId} : KeepsTypes T (placeAround list pos loop join scratch) := by
  mvcgen [placeAround]

@[spec]
lemma keeps_visitEach {α : Type} {visit : Nat → NodeId → α → Transform (Nat × α)} {nodes : List NodeId} {result : α}
    (hvisit : ∀ pos node result, KeepsTypes T (visit pos node result)) :
    KeepsTypes T (Transform.visitEach visit pos nodes result) := by
  induction nodes generalizing pos result with
  | nil => mvcgen [Transform.visitEach]
  | cons node rest ih => mvcgen [Transform.visitEach, hvisit, ih]

variable (hT : Ty.Closed T) (ho : o.Typed T)

include hT

lemma unaryOperandTy_typed {op : UnaryOp} (hty : T ty) : T (unaryOperandTy op ty) := by
  cases op with
  | not => exact hT.bool
  | minus | bitNot => exact hty

lemma elem?_typed (hty : T ty) : ∀ a ∈ ty.elem?, T a := by
  intro a ha
  cases ty with
  | list size elem =>
    cases ha
    exact hT.elem hty
  | _ => cases ha

include ho

@[spec]
lemma keeps_requireTy (he : ∀ ty ∈ e.types, T ty) : KeepsWith T (requireTy o e) T := by
  mvcgen [requireTy]
  case vc1.h_1 p hp ty hty =>
    refine ⟨hp, ?_⟩
    cases e with
    | bool b =>
      cases hty
      exact hT.bool
    | str s =>
      cases hty
      exact hT.string
    | var r =>
      obtain ⟨v, hv, rfl⟩ := map_eq_some_iff.mp hty
      exact ty_of_var? hp ho.globals hv
    | _ =>
      cases hty
      exact he _ (by simp [Expr.types])

@[spec]
lemma keeps_requireElement {v : VarRef} : KeepsWith T (requireElement o v depth) T := by
  mvcgen [requireElement, missingContext]
  case vc4.he => exact forall_mem_nil _
  case vc6.post.success.h_1 ha p h => exact ⟨h.typed, hT.elemAt? h.answer ha⟩

variable {required : Ty}

@[spec]
lemma keeps_castTo (hr : T required) (he : ∀ ty ∈ e.types, T ty) :
    KeepsWith T (castTo o spot required e) fun out => ∀ ty ∈ out.1.types, T ty := by
  mvcgen [castTo] <;> simp_all [Inst.types, Expr.types]

@[spec]
lemma keeps_castIfRequired {required : Option Ty} (hr : ∀ ty ∈ required, T ty) (he : ∀ ty ∈ e.types, T ty) :
    KeepsWith T (castIfRequired o spot required e) fun out => ∀ ty ∈ out.1.types, T ty := by
  mvcgen [castIfRequired] <;> simp_all

/-- The type that operands must have is `bool`, that of the operation, or a least upper bound. -/
@[spec]
lemma keeps_operandTy {op : BinaryOp} {lhs rhs : Expr}
    (hl : ∀ a ∈ lhs.types, T a) (hr : ∀ a ∈ rhs.types, T a) (hty : T ty) :
    KeepsWith T (operandTy o op lhs rhs ty) T := by
  have hlub : ∀ {a b : Ty}, T a → T b → T ((a.lub b).getD a) := by
    intro a b ha hb
    cases hc : a.lub b with
    | none => exact ha
    | some c => exact hT.lub ha hb hc
  mvcgen [operandTy] <;> simp_all [hT.bool]

omit hT ho

mutual

@[spec]
lemma keeps_castExpr (hT : Ty.Closed T) (ho : o.Typed T) (spot : Spot) (required : Option Ty)
    (hreq : ∀ ty ∈ required, T ty) : (e : Expr) → (∀ ty ∈ e.types, T ty) →
    KeepsWith T (castExpr o spot required e) fun out => ∀ ty ∈ out.1.types, T ty
  | .binary op lhs rhs ty, he => by
    obtain ⟨hty, hsides⟩ := forall_mem_cons.mp he
    obtain ⟨hl, hr⟩ := forall_mem_append.mp hsides
    have hlhs := fun required hreq => keeps_castExpr hT ho spot required hreq lhs hl
    have hrhs := fun required hreq => keeps_castExpr hT ho spot required hreq rhs hr
    mvcgen [castExpr, hlhs, hrhs] <;> simp_all [Expr.types, or_imp]
  | .unary op inner ty, he => by
    obtain ⟨hty, hinner⟩ := forall_mem_cons.mp he
    have hcast := fun required hreq => keeps_castExpr hT ho spot required hreq inner hinner
    mvcgen [castExpr, hcast] <;> simp_all [Expr.types, unaryOperandTy_typed]
  | .list elems ty, he => by
    obtain ⟨hty, helems⟩ := forall_mem_cons.mp he
    have hcast := keeps_castAll hT ho spot _ (elem?_typed hT hty) elems helems
    mvcgen [castExpr, hcast] <;> simp_all [Expr.types]
  | .bool _, he | .int _ _, he | .str _, he | .var _, he => by
    rw [castExpr]
    exact keeps_castIfRequired hT ho hreq he

@[spec]
lemma keeps_castAll (hT : Ty.Closed T) (ho : o.Typed T) (spot : Spot) (required : Option Ty)
    (hreq : ∀ ty ∈ required, T ty) : (es : List Expr) → (∀ ty ∈ Expr.typesOf es, T ty) →
    KeepsWith T (castAll o spot required es) fun out => ∀ ty ∈ Expr.typesOf out.1, T ty
  | [], he => by
    mvcgen [castAll]
    simp_all
  | e :: rest, he => by
    obtain ⟨hfirst, hrest⟩ := forall_mem_append.mp he
    have hcast := keeps_castExpr hT ho spot required hreq e hfirst
    have hall := keeps_castAll hT ho spot required hreq rest hrest
    mvcgen [castAll, hcast, hall] <;> simp_all [Expr.typesOf, or_imp]

end

include hT ho

@[spec]
lemma keeps_castArgs {tys : List Ty} (hes : ∀ ty ∈ es.flatMap Expr.types, T ty) (htys : ∀ ty ∈ tys, T ty) :
    KeepsWith T (castArgs o spot es tys) fun out => ∀ ty ∈ out.1.flatMap Expr.types, T ty := by
  fun_induction castArgs o spot es tys with
  | case1 e rest ty tys ih =>
    rw [flatMap_cons, forall_mem_append] at hes
    rw [forall_mem_cons] at htys
    mvcgen [ih] <;> grind [typedWith_iff]
  | case2 =>
    mvcgen
    simp_all

@[spec]
lemma keeps_castInst {i : Inst} (hi : ∀ ty ∈ i.types, T ty) : KeepsTypes T (castInst o id i) := by
  mvcgen [castInst, missingContext] <;> grind [Inst.types,
    Expr.types, Expr.typesOf_eq_flatMap, typedWith_iff, Typed.returnTy]

@[spec]
lemma keeps_castInsts : KeepsTypes T (castInsts o ids) := by
  induction ids with
  | nil => mvcgen [castInsts]
  | cons id rest ih =>
    mvcgen [castInsts, ih]
    case vc4.hi h _ _ hd => exact h.inst hd

@[spec]
lemma keeps_castArms {done : JoinCasts} (hr : T required) (harms : ∀ ty ∈ arms.flatMap PhiArm.types, T ty) :
    KeepsWith T (castArms o list required done arms) fun out => ∀ ty ∈ out.1.flatMap PhiArm.types, T ty := by
  induction arms generalizing done with
  | nil =>
    mvcgen [castArms]
    simp_all
  | cons arm rest ih =>
    rw [flatMap_cons, forall_mem_append] at harms
    mvcgen [castArms, ih] <;> grind [Inst.types, Expr.types, PhiArm.types, typedWith_iff]

@[spec]
lemma keeps_castPhis {done : JoinCasts} : KeepsTypes T (castPhis o list done ids) := by
  induction ids generalizing done with
  | nil => mvcgen [castPhis]
  | cons id rest ih =>
    mvcgen [castPhis, ih]
    case vc10.harms h _ _ _ _ hd _ _ _ => exact h.inst hd
    all_goals grind [Inst.types, Expr.types, typedWith_iff]

@[spec]
lemma keeps_castCondition {id : NodeId} (hc : ∀ ty ∈ condition.types, T ty) :
    KeepsTypes T (castCondition o id condition) := by
  mvcgen [castCondition, setCondition]
  case vc6.hreq => simp [hT.bool]
  case vc9.post.success.post.success h _ =>
    refine h.typed.withNodes (h.typed.nodes.modify _ fun node hnode => ?_)
    cases node with
    | block insts => exact hnode
    | branch | loop => simpa [Node.types, Node.condition?] using h.answer

@[spec]
lemma keeps_castNode {casts : Nat} {id : NodeId} : KeepsTypes T (castNode o depth list pos id casts) := by
  induction depth generalizing list pos id casts with
  | zero => mvcgen [castNode]
  | succ depth ih =>
    mvcgen [castNode, ih]
    case vc8.hc h _ _ _ _ hn => exact types_condition h hn rfl
    case vc28.hc h _ _ _ hn => exact types_condition h hn rfl
    all_goals exact fun h => h

@[spec]
lemma keeps_insertCasts : KeepsTypes T (insertCasts o) := by
  mvcgen [insertCasts] <;> simp_all

end Casts

/-! ## Lowering phis -/

section

variable {defined : List LocalId} {done : Lowered} (hT : Ty.Closed T)
include hT

@[spec]
lemma keeps_copyValue {source : VarRef} :
    KeepsWith T (copyValue defined target source) fun out => ∀ ty ∈ out.1.types, T ty := by
  mvcgen [copyValue]
  case vc1.h_1.h_1 p hp _ v hv _ zero hzero =>
    have hty : T v.ty := hp.locals hv v.ty mem_cons_self
    rw [Expr.zero?] at hzero
    split at hzero
    · cases hzero
    · cases hzero
      exact ⟨hp, hT.zeroOf hty⟩
  case vc3.h_2 p hp _ _ _ _ _ => exact ⟨hp, forall_mem_nil _⟩

@[spec]
lemma keeps_lowerEdges : KeepsTypes T (lowerEdges defined list target arms pos edges) := by
  induction edges generalizing pos with
  | nil => mvcgen [lowerEdges]
  | cons edge rest ih => mvcgen [lowerEdges, ih] <;> grind [Inst.types, typedWith_iff]

@[spec]
lemma keeps_lowerPhis : KeepsTypes T (lowerPhis defined list edges pos ids done) := by
  induction ids generalizing pos done with
  | nil => mvcgen [lowerPhis]
  | cons id rest ih => mvcgen [lowerPhis, ih]

@[spec]
lemma keeps_lowerArms (harms : ∀ ty ∈ arms.flatMap PhiArm.types, T ty) :
    KeepsTypes T (lowerArms defined id target arms) := by
  induction arms with
  | nil => mvcgen [lowerArms]
  | cons arm rest ih =>
    rw [flatMap_cons, forall_mem_append] at harms
    mvcgen [lowerArms, ih] <;> grind [Inst.types, PhiArm.types, typedWith_iff]

@[spec]
lemma keeps_lowerHoisted : KeepsTypes T (lowerHoisted defined ids done) := by
  induction ids generalizing done with
  | nil => mvcgen [lowerHoisted]
  | cons id rest ih =>
    mvcgen [lowerHoisted, ih]
    case vc3.harms h _ _ _ _ hd => exact h.inst hd

@[spec]
lemma keeps_lowerNode {id : NodeId} : KeepsTypes T (lowerNode defined depth list pos id done) := by
  induction depth generalizing list pos id done with
  | zero => mvcgen [lowerNode]
  | succ depth ih =>
    mvcgen [lowerNode, ih]
    all_goals exact fun h => h

lemma keeps_removePhis : KeepsTypes T removePhis := by
  mvcgen [removePhis]
  case vc3 => exact fun _ _ => hT
  case vc5.post.success done p hp _ =>
    refine hp.withLocals (hp.locals.foldl (fun a id ha => ?_) _)
    exact ha.erase id.index

end

/-! ## Predication -/

lemma types_under (hT : Ty.Closed T) (hp : ∀ e ∈ predicate, ∀ ty ∈ e.types, T ty)
    (hc : ∀ ty ∈ condition.types, T ty) : ∀ ty ∈ (under predicate condition).types, T ty := by
  cases predicate with
  | none => exact hc
  | some outer => exact forall_mem_cons.mpr ⟨hT.bool, forall_mem_append.mpr ⟨hp outer rfl, hc⟩⟩

lemma types_guardPhi {thenPredicate elsePredicate : Expr} (ht : ∀ ty ∈ thenPredicate.types, T ty)
    (he : ∀ ty ∈ elsePredicate.types, T ty) {d : InstData} (hd : ∀ ty ∈ d.types, T ty) :
    ∀ ty ∈ (guardPhi thenPredicate elsePredicate d).types, T ty := by
  have harm : ∀ arm : PhiArm, (∀ ty ∈ arm.types, T ty) →
      ∀ ty ∈ (guardArm thenPredicate elsePredicate arm).types, T ty := by
    intro arm harm
    rw [guardArm]
    split
    · simpa [PhiArm.types] using ht
    · simpa [PhiArm.types] using he
    · exact harm
  rw [guardPhi]
  split
  · rename_i target arms hinst
    rw [InstData.types, hinst, forall_mem_append] at hd
    refine forall_mem_append.mpr ⟨?_, hd.2⟩
    simp only [Inst.types, forall_mem_flatMap, forall_mem_map]
    exact fun arm harm' => harm arm (forall_mem_flatMap.mp hd.1 arm harm')
  · exact hd

@[spec]
lemma keeps_hoistInsts {target : NodeId} (hp : ∀ e ∈ predicate, ∀ ty ∈ e.types, T ty) :
    KeepsTypes T (hoistInsts target predicate ids) := by
  induction ids with
  | nil => mvcgen [hoistInsts]
  | cons id rest ih => mvcgen [hoistInsts, ih]

@[spec]
lemma keeps_hoistEach {hoist : NodeId → Transform Nat} (h : ∀ id, KeepsTypes T (hoist id))
    {ids : List NodeId} : KeepsTypes T (hoistEach hoist ids) := by
  induction ids with
  | nil => mvcgen [hoistEach]
  | cons id rest ih => mvcgen [hoistEach, h, ih]

@[spec]
lemma keeps_hoistNode (hT : Ty.Closed T) {target id : NodeId}
    (hp : ∀ e ∈ predicate, ∀ ty ∈ e.types, T ty) : KeepsTypes T (hoistNode target depth predicate id) := by
  induction depth generalizing predicate id with
  | zero => mvcgen [hoistNode]
  | succ depth ih =>
    have hsome : ∀ {c : Expr}, (∀ ty ∈ c.types, T ty) → ∀ e ∈ some (under predicate c), ∀ ty ∈ e.types, T ty := by
      rintro c hc _ ⟨⟩
      exact types_under hT hp hc
    have hnot : ∀ {c : Expr}, (∀ ty ∈ c.types, T ty) → ∀ ty ∈ c.negate.types, T ty := fun hc =>
      forall_mem_cons.mpr ⟨hT.bool, hc⟩
    mvcgen [hoistNode, ih]
    case vc7 h _ _ _ _ hn _ _ => exact fun _ _ => hsome (types_condition h hn rfl)
    case vc12 h _ _ _ _ hn _ _ _ _ _ _ => exact fun _ _ => hsome (hnot (types_condition h hn rfl))
    case vc15.succ.h_3.post.success.post.success.pre h _ _ _ _ hn _ _ _ _ _ _ q hq _ _ =>
      have hc := types_condition h hn rfl
      refine hq.withInsts (hq.insts.foldl (fun a id ha => ?_) _)
      exact ha.modify id.index fun d hd => types_guardPhi (types_under hT hp hc) (types_under hT hp (hnot hc)) hd
    all_goals exact fun h => h

@[spec]
lemma keeps_freeEach {ids : List NodeId} : KeepsTypes T (freeEach ids) := by
  induction ids with
  | nil => mvcgen [freeEach]
  | cons id rest ih => mvcgen [freeEach, ih]

lemma keeps_ifConvert (hT : Ty.Closed T) : KeepsTypes T ifConvert := by
  mvcgen [ifConvert]
  case vc6 => exact fun _ _ => hT
  case vc7 => simp
  case vc8.isFalse.post.success.pre h _ _ => exact ⟨h.returnTy, h.locals, h.nodes, h.insts⟩
  case vc11.isFalse.post.success.post.success.post.success h _ => exact ⟨h.returnTy, h.locals, h.nodes, h.insts⟩

/-! ## Storing once -/

@[spec]
lemma keeps_makeLocals (hglobals : ∀ v ∈ globals, ∀ ty ∈ v.types, T ty)
    {stored : List (GlobalId × Bool)} : KeepsTypes T (makeLocals globals stored) := by
  induction stored with
  | nil => mvcgen [makeLocals]
  | cons entry rest ih =>
    mvcgen [makeLocals, ih]
    case vc3.hty v hv _ _ => exact hglobals v (mem_of_getElem? hv) v.ty mem_cons_self

@[spec]
lemma keeps_insertLoads {index : Nat} : KeepsTypes T (insertLoads block index seeded) := by
  induction seeded generalizing index with
  | nil => mvcgen [insertLoads]
  | cons entry rest ih =>
    mvcgen [insertLoads, ih]
    case vc2.hi => exact forall_mem_nil _

@[spec]
lemma keeps_insertStores {anchor : Option InstId} : KeepsTypes T (insertStores block anchor locals) := by
  induction locals with
  | nil => mvcgen [insertStores]
  | cons entry rest ih =>
    mvcgen [insertStores, ih]
    all_goals exact forall_mem_nil _

variable {kept : List InstId}

@[spec]
lemma keeps_redirectInsts : KeepsTypes T (redirectInsts locals kept bound ids) := by
  induction ids generalizing bound with
  | nil => mvcgen [redirectInsts]
  | cons id rest ih =>
    mvcgen [redirectInsts, ih]
    case vc3.hi h _ _ _ _ hd _ _ => exact h.inst hd
    case vc8.hi => exact forall_mem_nil _

@[spec]
lemma keeps_redirectEach {redirect : Bindings → NodeId → Edit (Bindings × Nat)}
    (h : ∀ bound id, KeepsTypes T (redirect bound id)) {ids : List NodeId} :
    KeepsTypes T (redirectEach redirect bound ids) := by
  induction ids generalizing bound with
  | nil => mvcgen [redirectEach]
  | cons id rest ih => mvcgen [redirectEach, h, ih]

@[spec]
lemma keeps_redirectNode {id : NodeId} :
    KeepsTypes T (redirectNode locals kept depth bound id) := by
  induction depth generalizing bound id with
  | zero => mvcgen [redirectNode]
  | succ depth ih =>
    mvcgen [redirectNode, ih]
    all_goals exact fun h => h

lemma keeps_storeOnce (hglobals : ∀ v ∈ globals, ∀ ty ∈ v.types, T ty) : KeepsTypes T (storeOnce globals) := by
  mvcgen [storeOnce]

end Procedure

/-! ## Merging actions -/

namespace Procedure

variable {T : Ty → Prop}

lemma typed_alwaysTrue (hT : Ty.Closed T) (name : String) : (alwaysTrue name).Typed T := by
  rw [typed_iff]
  simp [types, alwaysTrue, Arena.values, Variable.types, Node.types, Node.condition?,
    InstData.types, Inst.types, Expr.types, hT.bool]

/-- The variables of a dispatching procedure have the types that schedulers return. -/
lemma typed_dispatch (hT : Ty.Closed T) {known : Actor} (hknown : ∀ p ∈ known.procs, p.Typed T)
    (name : String) (actions : List Action) : (dispatch known name actions).Typed T := by
  have hanswer : ∀ i action, ∀ ty ∈ (Dispatch.answer known i action).types, T ty := by
    intro i action
    unfold Dispatch.answer
    cases hp : known.proc? action.scheduler with
    | none => exact forall_mem_singleton.mpr hT.bool
    | some p => exact forall_mem_singleton.mpr (hknown p (mem_of_getElem? hp)).returnTy
  have hcall : ∀ {target : Option LocalId} {callee : ProcId} {block : NodeId},
      ∀ ty ∈ InstData.types { inst := .call target callee [], block := block }, T ty :=
    nofun
  refine ⟨hT.void, .full fun v hv => ?_, .full fun node hnode => ?_, .full fun d hd => ?_⟩
  · obtain ⟨⟨action, i⟩, -, rfl⟩ := mem_map.mp hv
    exact hanswer i action
  · rcases mem_append.mp hnode with hnode | hnode
    · obtain ⟨i, -, hnode⟩ := mem_flatMap.mp hnode
      simp only [Dispatch.nodes, mem_cons, not_mem_nil, or_false] at hnode
      rcases hnode with rfl | rfl | rfl | rfl <;> exact nofun
    · cases mem_singleton.mp hnode
      exact nofun
  · rcases mem_append.mp hd with hd | hd
    · obtain ⟨⟨action, i⟩, -, hd⟩ := mem_flatMap.mp hd
      rcases mem_pair.mp hd with rfl | rfl <;> exact hcall
    · cases mem_singleton.mp hd
      exact nofun

end Procedure

namespace Actor

variable {T : Ty → Prop} {a b : Actor}

/-- All types in an actor have a property. -/
structure Typed (T : Ty → Prop) (a : Actor) : Prop where
  inputs : ∀ port ∈ a.inputs, T port.ty
  outputs : ∀ port ∈ a.outputs, T port.ty
  globals : ∀ v ∈ a.globals, ∀ ty ∈ v.types, T ty
  procs : ∀ p ∈ a.procs, p.Typed T

lemma typed_iff : a.Typed T ↔ ∀ ty ∈ a.types, T ty := by
  simp only [types, forall_mem_append, forall_mem_map, forall_mem_flatMap]
  refine ⟨fun h => ⟨h.inputs, h.outputs, h.globals, fun p hp => Procedure.typed_iff.mp (h.procs p hp)⟩, ?_⟩
  exact fun h => ⟨h.1, h.2.1, h.2.2.1, fun p hp => Procedure.typed_iff.mpr (h.2.2.2 p hp)⟩

namespace Typed

lemma outside (h : a.Typed T) : Outside.Typed T ⟨a.globals, a.signatures⟩ := by
  refine ⟨h.globals, fun s hs ty hty => ?_⟩
  obtain ⟨p, hp, rfl⟩ := mem_map.mp hs
  obtain ⟨id, _, hid⟩ := mem_filterMap.mp hty
  obtain ⟨v, hv, rfl⟩ := map_eq_some_iff.mp hid
  exact (h.procs p hp).locals hv v.ty mem_cons_self

lemma transformProcs {act : Transform Nat} (h : a.Typed T) (hact : KeepsTypes T act)
    {n : Nat} (hy : a.transformProcs act = (.ok n, b)) : b.Typed T := by
  obtain ⟨hprocs, hb⟩ := forall₂_transformProcs hy
  have hcases : ∀ p' ∈ b.procs, p'.Typed T := by
    intro p' hp'
    obtain ⟨p, hp, hsame, hdone⟩ := exists_of_mem_transformed hprocs hp'
    cases hnative : p.native with
    | true => exact hsame hnative ▸ h.procs p hp
    | false =>
      obtain ⟨k, hk⟩ := hdone hnative
      exact hk.of_triple hact (h.procs p hp)
  rw [hb] at hcases ⊢
  exact ⟨h.inputs, h.outputs, h.globals, hcases⟩

section

variable (hT : Ty.Closed T) (h : a.Typed T)
include hT h

lemma replaceActions (first : Action) (rest : List Action) : (a.replaceActions first rest).2.Typed T := by
  obtain ⟨name, name', known, hknown, hprocs⟩ : ∃ name name' known, known.procs = a.procs ++ [.alwaysTrue name] ∧
      (a.replaceActions first rest).2.procs = known.procs ++ [.dispatch known name' (first :: rest)] :=
    ⟨_, _, _, rfl, rfl⟩
  have htyped : ∀ p ∈ known.procs, p.Typed T := by
    rw [hknown, forall_mem_append, forall_mem_singleton]
    exact ⟨h.procs, typed_alwaysTrue hT name⟩
  refine ⟨h.inputs, h.outputs, h.globals, ?_⟩
  rw [hprocs, forall_mem_append, forall_mem_singleton]
  exact ⟨htyped, typed_dispatch hT htyped name' _⟩

lemma classify : a.classify.2.Typed T := by
  refine classify_induction (P := fun _ b => b.Typed T) (fun _ b first rest fsm hb => ?_) h
  obtain ⟨hinputs, houtputs, hglobals, hprocs⟩ := hb.replaceActions hT first rest
  exact ⟨hinputs, houtputs, hglobals, hprocs⟩

/-- A property that is closed under what passes do to types holds of all types after the passes. -/
theorem runPasses {passes : List Pass} {start report : Report}
    (hy : a.runPasses start passes = .ok (report, b)) : b.Typed T := by
  refine runPasses_keeps ?_ ?_ ?_ ?_ ?_ h hy
  · exact fun a n b h hn => h.transformProcs (keeps_insertCasts hT h.outside) hn
  · intro a n b h hn
    have hstore := keeps_storeOnce h.globals
    exact h.transformProcs (by mvcgen [hstore]) hn
  · exact fun a n b h hn => h.transformProcs (keeps_ifConvert hT) hn
  · exact fun a n b h hn => h.transformProcs (keeps_removePhis hT) hn
  · exact fun a h => h.classify hT

end

end Typed

end Actor

end ActorNet
