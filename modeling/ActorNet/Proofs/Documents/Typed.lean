import Mathlib
import ActorNet.Pass.Casts
import ActorNet.Proofs.Documents.Coding
import ActorNet.Proofs.Structure.Listings

/-!
# Edits and the types in a procedure

`Procedure.Typed` says that all types in a procedure have a property. Only the objects in the tables
of the procedure matter for it, not where they stand, so edits that put objects of good types into
tables keep it.

`KeepsTypes` says that a computation keeps the property, and `KeepsWith` also what is known about
its answer. There is one lemma for each edit, from which those about the edits and passes made of it
follow.
-/

namespace ActorNet

open List Procedure Std.Do

set_option mvcgen.warning false

/-! ## Computations that keep a property -/

attribute [spec] Transform.fail

@[spec]
lemma Transform.spec_lift {α : Type} {act : Edit α} {Q : PostCond α (.except PassError (.arg Procedure .pure))} :
    ⦃wp⟦act⟧ (Q.1, fun e => Q.2.1 ⟨e.proc, .malformed e.fault⟩, Q.2.2)⦄ (MonadLift.monadLift act : Transform α) ⦃Q⦄ :=
  Spec.adapt_ExceptT _ Q

/-! ## Types that are there -/

/-- The property holds of what passes can make of types that have it. -/
structure Ty.Closed (T : Ty → Prop) : Prop where
  bool : T .bool
  string : T .string
  void : T .void
  elem : ∀ {size : Nat} {elem : Ty}, T (.list size elem) → T elem
  lub : ∀ {a b c : Ty}, T a → T b → a.lub b = some c → T c

lemma Ty.closed_within {s u : Nat} (h : u < s) : Ty.Closed (Ty.Within s u) :=
  ⟨trivial, trivial, trivial, fun h => h.2, fun ha hb hc => ha.lub h hb hc⟩

namespace Ty.Closed

variable {T : Ty → Prop}

lemma elemAt? (hT : Ty.Closed T) {ty a : Ty} {depth : Nat} (h : T ty) (ha : ty.elemAt? depth = some a) : T a := by
  induction depth generalizing ty with
  | zero =>
    cases ha
    exact h
  | succ depth ih =>
    cases ty with
    | list size elem => exact ih (hT.elem h) ha
    | _ => cases ha

lemma zeroOf (hT : Ty.Closed T) {ty : Ty} (h : T ty) : ∀ a ∈ (Expr.zeroOf ty).types, T a := by
  induction ty with
  | list size elem ih =>
    cases size with
    | zero => simpa [Expr.zeroOf, Expr.types, Expr.typesOf] using h
    | succ n =>
      simp only [Expr.zeroOf, Expr.types, Expr.typesOf_eq_flatMap, forall_mem_cons, forall_mem_flatMap]
      refine ⟨h, fun e he => ?_⟩
      rw [eq_of_mem_replicate he]
      exact ih (hT.elem h)
  | bool | string => exact forall_mem_nil _
  | _ => simpa [Expr.zeroOf, Expr.types] using h

end Ty.Closed

namespace Expr

variable {T : Ty → Prop} {old new : VarRef}

mutual

lemma types_replaceVar : (e : Expr) → (e.replaceVar old new).1.types = e.types
  | .bool _ | .int _ _ | .str _ => rfl
  | .list elems ty => by simp only [replaceVar, types, types_replaceVars elems]
  | .unary _ e ty => by simp only [replaceVar, types, types_replaceVar e]
  | .binary _ lhs rhs ty => by simp only [replaceVar, types, types_replaceVar lhs, types_replaceVar rhs]
  | .var _ => rfl

lemma types_replaceVars : (elems : List Expr) → typesOf (replaceVars old new elems).1 = typesOf elems
  | [] => rfl
  | e :: rest => by simp only [replaceVars, typesOf, types_replaceVar e, types_replaceVars rest]

end

lemma flatMap_types_replaceVars (elems : List Expr) :
    (replaceVars old new elems).1.flatMap types = elems.flatMap types := by
  rw [← typesOf_eq_flatMap, types_replaceVars, typesOf_eq_flatMap]

end Expr

section Replacing

variable {old new : VarRef}

lemma PhiArm.types_replaceUse (arm : PhiArm) : (arm.replaceUse old new).1.types = arm.types := by
  rcases arm with ⟨edge, var, _ | guard⟩
  · rfl
  · simp [PhiArm.replaceUse, PhiArm.types, Expr.types_replaceVar]

lemma Inst.flatMap_types_replaceArms (arms : List PhiArm) :
    (Inst.replaceArms old new arms).1.flatMap PhiArm.types = arms.flatMap PhiArm.types := by
  induction arms with
  | nil => rfl
  | cons arm rest ih => simp only [Inst.replaceArms, flatMap_cons, PhiArm.types_replaceUse, ih]

lemma Inst.types_replaceUse (i : Inst) : (i.replaceUse old new).1.types = i.types := by
  cases i with
  | ret value =>
    cases value with
    | none => rfl
    | some value => simp [Inst.replaceUse, Inst.types, Expr.types_replaceVar]
  | _ =>
    simp [Inst.replaceUse, Inst.types, Expr.types_replaceVar, Expr.flatMap_types_replaceVars,
      Inst.flatMap_types_replaceArms]

lemma InstData.types_replaceUse (d : InstData) : (d.replaceUse old new).1.types = d.types := by
  rcases d with ⟨inst, block, _ | predicate⟩
  · simp [InstData.replaceUse, InstData.types, Inst.types_replaceUse]
  · simp [InstData.replaceUse, InstData.types, Inst.types_replaceUse, Expr.types_replaceVar]

lemma Node.types_replaceUse (node : Node) : (node.replaceUse old new).1.types = node.types := by
  cases node <;> simp [Node.replaceUse, Node.types, Node.condition?, Expr.types_replaceVar]

lemma Procedure.types_substitute (pairs : List (VarRef × VarRef)) (i : Inst) :
    (substitute pairs i).types = i.types := by
  induction pairs generalizing i with
  | nil => rfl
  | cons pair rest ih =>
    have hstep : substitute (pair :: rest) i =
        substitute rest (i.replaceUse pair.1 pair.2).1 := rfl
    rw [hstep, ih, Inst.types_replaceUse]

end Replacing

/-! ## Tables -/

def Arena.All {α : Type} (P : α → Prop) (a : Arena α) : Prop :=
  ∀ ⦃i x⦄, a.get? i = some x → P x

namespace Arena.All

variable {α : Type} {P : α → Prop} {a : Arena α}

lemma iff_values : a.All P ↔ ∀ x ∈ a.values, P x := by
  refine ⟨fun h x hx => ?_, fun h i x hx => h x (mem_values hx)⟩
  obtain ⟨slot, hslot, hx⟩ := mem_filterMap.mp hx
  obtain ⟨i, hi⟩ := getElem?_of_mem hslot
  have hget : a.get? i = some x := by
    rw [Array.getElem?_toList] at hi
    rw [get?, hi]
    exact hx
  exact h hget

lemma push (h : a.All P) {x : α} (hx : P x) : (a.push x).All P := by
  intro i y hy
  rw [get?_push] at hy
  split at hy
  · cases hy
    exact hx
  · exact h hy

lemma erase (h : a.All P) (i : Nat) : (a.erase i).All P := by
  intro j y hy
  rw [get?_erase] at hy
  split at hy
  · cases hy
  · exact h hy

lemma modify (h : a.All P) (i : Nat) {f : α → α} (hf : ∀ x, P x → P (f x)) : (a.modify i f).All P := by
  intro j y hy
  rw [get?_modify] at hy
  split at hy
  · obtain ⟨x, hx, rfl⟩ := map_eq_some_iff.mp hy
    exact hf x (h hx)
  · exact h hy

lemma map (h : a.All P) {f : α → α} (hf : ∀ x, P x → P (f x)) : (a.map f).All P := by
  intro i y hy
  rw [get?_map] at hy
  obtain ⟨x, hx, rfl⟩ := map_eq_some_iff.mp hy
  exact hf x (h hx)

lemma foldl {β : Type} {f : Arena α → β → Arena α} (h : a.All P)
    (hf : ∀ a b, All P a → All P (f a b)) (bs : List β) : (bs.foldl f a).All P := by
  induction bs generalizing a with
  | nil => exact h
  | cons b rest ih => exact ih (hf a b h)

lemma full {l : List α} (h : ∀ x ∈ l, P x) : (Arena.full l).All P := by
  intro i x hx
  rw [get?_full] at hx
  exact h x (mem_of_getElem? hx)

end Arena.All

/-! ## Procedures -/

/-- All that a procedure may refer to outside of itself has types with a property. -/
structure Outside.Typed (T : Ty → Prop) (o : Outside) : Prop where
  globals : ∀ v ∈ o.globals, ∀ ty ∈ v.types, T ty
  callees : ∀ s ∈ o.callees, ∀ ty ∈ s.params, T ty

namespace Procedure

variable {T : Ty → Prop} {p : Procedure}

/-- All types in a procedure have a property. -/
structure Typed (T : Ty → Prop) (p : Procedure) : Prop where
  returnTy : T p.returnTy
  locals : p.locals.All fun v => ∀ ty ∈ v.types, T ty
  nodes : p.nodes.All fun node => ∀ ty ∈ node.types, T ty
  insts : p.insts.All fun d => ∀ ty ∈ d.types, T ty

lemma typed_iff : p.Typed T ↔ ∀ ty ∈ p.types, T ty := by
  have hsplit : (∀ ty ∈ p.types, T ty) ↔ T p.returnTy ∧ (∀ v ∈ p.locals.values, ∀ ty ∈ v.types, T ty) ∧
      (∀ node ∈ p.nodes.values, ∀ ty ∈ node.types, T ty) ∧ ∀ d ∈ p.insts.values, ∀ ty ∈ d.types, T ty := by
    simp only [types, forall_mem_cons, forall_mem_append, forall_mem_flatMap]
  rw [hsplit, ← Arena.All.iff_values, ← Arena.All.iff_values, ← Arena.All.iff_values]
  exact ⟨fun h => ⟨h.returnTy, h.locals, h.nodes, h.insts⟩, fun h => ⟨h.1, h.2.1, h.2.2.1, h.2.2.2⟩⟩

variable {f : List NodeId → List NodeId}

namespace Typed

section

variable (h : p.Typed T)
include h

lemma withLocals {locals : Arena Variable} (hl : locals.All fun v => ∀ ty ∈ v.types, T ty) :
    { p with locals := locals }.Typed T :=
  ⟨h.returnTy, hl, h.nodes, h.insts⟩

lemma withNodes {nodes : Arena Node} (hn : nodes.All fun node => ∀ ty ∈ node.types, T ty) :
    { p with nodes := nodes }.Typed T :=
  ⟨h.returnTy, h.locals, hn, h.insts⟩

lemma withInsts {insts : Arena InstData} (hi : insts.All fun d => ∀ ty ∈ d.types, T ty) :
    { p with insts := insts }.Typed T :=
  ⟨h.returnTy, h.locals, h.nodes, hi⟩

variable {i : InstId} {d : InstData}

lemma inst (hd : p.inst? i = some d) : ∀ ty ∈ d.inst.types, T ty :=
  (forall_mem_append.mp (h.insts hd)).1

lemma predicate (hd : p.inst? i = some d) : ∀ e ∈ d.predicate, ∀ ty ∈ e.types, T ty :=
  fun e he => forall_mem_flatMap.mp (forall_mem_append.mp (h.insts hd)).2 e (Option.mem_toList.mpr he)

lemma setBlock (id : NodeId) (ids : List InstId) : (p.setBlock id ids).Typed T :=
  h.withNodes (h.nodes.modify _ fun _ _ _ hty => nomatch hty)

lemma eraseInsts (ids : List InstId) : (p.eraseInsts ids).Typed T := by
  refine h.withInsts (h.insts.foldl (fun a id ha => ?_) ids)
  exact ha.erase id.index

lemma recordBlock (block : NodeId) (ids : List InstId) : (p.recordBlock block ids).Typed T := by
  refine h.withInsts (h.insts.foldl (fun a id ha => ?_) ids)
  exact ha.modify id.index fun d hd => hd

lemma foldl {α : Type} {f : Procedure → α → Procedure} (hf : ∀ (q : Procedure) (x : α), q.Typed T →
    (f q x).Typed T) (xs : List α) : (xs.foldl f p).Typed T := by
  induction xs generalizing p with
  | nil => exact h
  | cons x rest ih => exact ih (hf p x h)

lemma freeTo (depth : Nat) (id : NodeId) : (freeTo depth id p).Typed T := by
  induction depth generalizing p id with
  | zero => exact h
  | succ depth ih =>
    have hnodes := h.withNodes (h.nodes.erase id.index)
    rw [freeTo]
    cases p.node? id with
    | none => exact h
    | some node =>
      cases node with
      | block insts => exact hnodes.eraseInsts insts
      | branch | loop => exact hnodes.foldl (fun q child hq => ih hq child) _

lemma updateList? {list : NodeList} {p' : Procedure}
    (hp : p.updateList? list f = some p') : p'.Typed T := by
  have hmodify : ∀ (id : NodeId) {node : Node} (node' : Node), p.node? id = some node →
      node'.types = node.types → { p with nodes := p.nodes.modify id.index fun _ => node' }.Typed T := by
    intro id node node' hnode htypes
    refine h.withNodes (h.nodes.modify _ fun _ _ => ?_)
    rw [htypes]
    exact h.nodes hnode
  cases list with
  | body =>
    cases hp
    exact ⟨h.returnTy, h.locals, h.nodes, h.insts⟩
  | thenOf id | elseOf id | bodyOf id =>
    rw [Procedure.updateList?] at hp
    split at hp
    · rename_i hnode
      cases hp
      exact hmodify id _ hnode rfl
    · cases hp

end

end Typed

/-! ### Edits -/

section Edits

variable {id : InstId} {inst : Inst} {list : NodeList} {block target source : NodeId} {pos : Nat} {ty : Ty}

/-- A computation keeps the types in a procedure good. -/
abbrev KeepsTypes {ε α : Type} (T : Ty → Prop) (act : ExceptT ε (StateM Procedure) α) : Prop :=
  ⦃fun p => ⌜p.Typed T⌝⦄ act ⦃⇓? _ p => ⌜p.Typed T⌝⦄

/-- All types in a procedure have a property, and something else holds. -/
structure TypedWith (T : Ty → Prop) (A : Prop) (p : Procedure) : Prop where
  typed : p.Typed T
  answer : A

@[simp]
lemma typedWith_iff {A : Prop} : p.TypedWith T A ↔ p.Typed T ∧ A := ⟨fun h => ⟨h.typed, h.answer⟩, fun h => ⟨h.1, h.2⟩⟩

/-- A computation keeps the types in a procedure good, and its answer has a property. -/
abbrev KeepsWith {ε α : Type} (T : Ty → Prop) (act : ExceptT ε (StateM Procedure) α) (Q : α → Prop) : Prop :=
  ⦃fun p => ⌜p.Typed T⌝⦄ act ⦃⇓? x p => ⌜p.TypedWith T (Q x)⌝⦄

@[spec]
lemma keeps_newTemp (hty : T ty) (hint : String) : KeepsTypes T (newTemp ty hint) := by
  mvcgen [newTemp, addLocal]
  case vc1 p h n t => exact ⟨h.returnTy, h.locals.push (by simpa [Variable.types] using hty), h.nodes, h.insts⟩

@[spec]
lemma keeps_newBlock : KeepsTypes T newBlock := by
  mvcgen [newBlock, addNode]
  case vc1 p h t => exact h.withNodes (h.nodes.push fun _ hty => by cases hty)

@[spec]
lemma keeps_updateList : KeepsTypes T (updateList list f) := by
  mvcgen [updateList]
  case vc1 p h p' hp => exact h.updateList? hp

attribute [spec] pushNode insertNode ensureLastBlock ensureFirstBlock blockBefore edgeBlock requireBlock requirePosition
  appendInst insertBefore insertAfter

@[spec]
lemma keeps_insertInst {index : Nat} (hi : ∀ ty ∈ inst.types, T ty) : KeepsTypes T (insertInst block index inst) := by
  mvcgen [insertInst]
  rename_i h _ _ _
  refine (h.withInsts ?_).setBlock _ _
  exact h.insts.push (by simpa [InstData.types] using hi)

@[spec]
lemma keeps_replaceInst (hi : ∀ ty ∈ inst.types, T ty) : KeepsTypes T (replaceInst id inst) := by
  mvcgen [replaceInst]
  case vc1 p h _ _ =>
    refine h.withInsts (h.insts.modify _ fun d hd => ?_)
    exact forall_mem_append.mpr ⟨hi, (forall_mem_append.mp hd).2⟩

@[spec]
lemma keeps_setPredicate {predicate : Option Expr} (hp : ∀ e ∈ predicate, ∀ ty ∈ e.types, T ty) :
    KeepsTypes T (setPredicate id predicate) := by
  mvcgen [setPredicate]
  case vc1 p h t =>
    refine h.withInsts (h.insts.modify _ fun d hd => ?_)
    refine forall_mem_append.mpr ⟨(forall_mem_append.mp hd).1, forall_mem_flatMap.mpr fun e he => ?_⟩
    exact hp e (Option.mem_toList.mp he)

@[spec]
lemma keeps_removeInst : KeepsTypes T (removeInst id) := by
  mvcgen [removeInst]
  exact (Typed.setBlock ‹_› _ _).eraseInsts _

@[spec]
lemma keeps_moveInst : KeepsTypes T (moveInst id target) := by
  mvcgen [moveInst]
  exact ((Typed.setBlock ‹_› _ _).setBlock _ _).recordBlock _ _

@[spec]
lemma keeps_appendBlock : KeepsTypes T (appendBlock target source) := by
  mvcgen [appendBlock]
  exact ((Typed.setBlock ‹_› _ _).recordBlock _ _).setBlock _ _

@[spec]
lemma keeps_clearBlock : KeepsTypes T (clearBlock block) := by
  mvcgen [clearBlock]
  exact (Typed.setBlock ‹_› _ _).eraseInsts _

@[spec]
lemma keeps_freeNode {id : NodeId} : KeepsTypes T (freeNode id) := by
  mvcgen [freeNode]
  case vc1 p h t => exact h.freeTo _ _

@[spec]
lemma keeps_replaceUses {old new : VarRef} : KeepsTypes T (replaceUses old new) := by
  mvcgen [replaceUses]
  case vc1 p h t =>
    refine ⟨h.returnTy, h.locals, h.nodes.map fun node hnode => ?_, h.insts.map fun d hd => ?_⟩
    · rwa [Node.types_replaceUse]
    · rwa [InstData.types_replaceUse]

@[spec]
lemma keeps_retype {id : LocalId} (hty : T ty) : KeepsTypes T (retype id ty) := by
  mvcgen [retype]
  case vc1 p h t =>
    refine h.withLocals (h.locals.modify _ fun v hv => ?_)
    exact forall_mem_cons.mpr ⟨hty, (forall_mem_cons.mp hv).2⟩

@[spec]
lemma keeps_copyInsts {seen : List (InstId × InstId)} {ids : List InstId} :
    KeepsTypes T (copyInsts target seen ids) := by
  induction ids generalizing seen with
  | nil => mvcgen [copyInsts]
  | cons id rest ih =>
    mvcgen [copyInsts, ih]
    case vc3.hi h _ hd _ _ => exact h.inst hd
    case vc6.hp h _ hd _ _ _ _ _ => exact h.predicate hd

end Edits

end Procedure

end ActorNet
