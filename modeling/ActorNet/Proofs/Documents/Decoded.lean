import ActorNet.Proofs.Documents.Coding

/-!
# What documents decode to

The decoder refuses integer types that are wider than 64 bits, so the types of an actor that is read
from a document have a readable text, wherever they occur (`gives_actor`). There is one lemma for
each part of a document, put together in the way in which its decoder is.
-/

namespace ActorNet

open Json List
open Option (bind_eq_some_iff map_eq_some_iff)

/-- Whatever is decoded has a property. -/
def Gives {α : Type} (decode : Json → Option α) (P : α → Prop) : Prop :=
  ∀ ⦃j x⦄, decode j = some x → P x

namespace Gives

variable {α : Type} {decode : Json → Option α} {P : α → Prop} {r : Record} {name : String} {x : α}

section

variable (h : Gives decode P)
include h

lemma required (hx : r.required? name decode = some x) : P x := by
  obtain ⟨j, -, hj⟩ := bind_eq_some_iff.mp hx
  exact h hj

lemma defaulting {default : α} (hdefault : P default) (hx : r.defaulting? name default decode = some x) : P x := by
  rw [Record.defaulting?] at hx
  split at hx
  · exact h hx
  · cases hx
    exact hdefault

lemma list : Gives (listOf? decode) fun xs => ∀ x ∈ xs, P x := by
  intro j xs hxs
  cases j with
  | arr elems =>
    rw [listOf?] at hxs
    induction elems generalizing xs with
    | nil =>
      cases hxs
      exact forall_mem_nil _
    | cons j rest ih =>
      simp only [mapM_cons, bind, bind_eq_some_iff, pure, Option.some.injEq] at hxs
      obtain ⟨y, hy, ys, hys, rfl⟩ := hxs
      exact forall_mem_cons.mpr ⟨h hy, ih hys⟩
  | _ => cases hxs

lemma option : Gives (optionOf? decode) fun x => ∀ y ∈ x, P y := by
  intro j x hx y hy
  rw [optionOf?.eq_def] at hx
  split at hx
  · cases hx
    cases hy
  · obtain ⟨y', hy', rfl⟩ := map_eq_some_iff.mp hx
    cases hy
    exact h hy'

lemma arena : Gives (Arena.ofJson? decode) fun a => ∀ x ∈ a.values, P x := by
  intro j a ha x hx
  obtain ⟨slots, hslots, rfl⟩ := map_eq_some_iff.mp ha
  obtain ⟨slot, hslot, hslotx⟩ := mem_filterMap.mp hx
  cases hslotx
  exact h.option.list hslots (some x) hslot x rfl

/-! A part that is left out holds nothing. -/

lemma orNone {x : Option α} (hx : r.defaulting? name none (optionOf? decode) = some x) : ∀ y ∈ x, P y := by
  refine h.option.defaulting (fun y hy => ?_) hx
  cases hy

lemma orNil {xs : List α} (hxs : r.defaulting? name [] (listOf? decode) = some xs) : ∀ x ∈ xs, P x := by
  refine h.list.defaulting (fun x hx => ?_) hxs
  cases hx

lemma orEmpty {a : Arena α} (ha : r.defaulting? name {} (Arena.ofJson? decode) = some a) : ∀ x ∈ a.values, P x := by
  refine h.arena.defaulting (fun x hx => ?_) ha
  cases hx

end

end Gives

abbrev Readable (types : List Ty) : Prop :=
  ∀ ty ∈ types, ty.Within 64 64

lemma gives_ty : Gives Ty.ofJson? fun ty => ty.Within 64 64 :=
  fun _ _ => Ty.within_of_ofJson?

lemma gives_port : Gives Port.ofJson? fun port => port.ty.Within 64 64 := by
  intro j port h
  simp only [Port.ofJson?, bind, bind_eq_some_iff, pure, Option.some.injEq] at h
  obtain ⟨r, -, name, -, ty, hty, rfl⟩ := h
  exact gives_ty.required hty

lemma gives_exprAt (budget : Nat) : Gives (Expr.ofJsonAt? budget) fun e => Readable e.types := by
  induction budget with
  | zero =>
    intro j e h
    cases h
  | succ budget ih =>
    intro j e h
    simp only [Expr.ofJsonAt?, bind, bind_eq_some_iff] at h
    obtain ⟨⟨tag, fields⟩, -, h⟩ := h
    split at h
    all_goals simp only [bind_eq_some_iff, map_eq_some_iff, pure, Option.some.injEq, reduceCtorEq] at h
    · obtain ⟨b, -, rfl⟩ := h
      simp [Readable, Expr.types]
    · obtain ⟨r, -, value, -, ty, hty, rfl⟩ := h
      simpa [Readable, Expr.types] using gives_ty.required hty
    · obtain ⟨s, -, rfl⟩ := h
      simp [Readable, Expr.types]
    · obtain ⟨r, -, elems, helems, ty, hty, rfl⟩ := h
      have helems := ih.list.required helems
      have hty := gives_ty.required hty
      simp only [Readable, Expr.types, Expr.typesOf_eq_flatMap, forall_mem_cons, forall_mem_flatMap]
      exact ⟨hty, helems⟩
    · obtain ⟨r, -, op, -, inner, hinner, ty, hty, rfl⟩ := h
      exact forall_mem_cons.mpr ⟨gives_ty.required hty, ih.required hinner⟩
    · obtain ⟨r, -, op, -, lhs, hl, rhs, hr, ty, hty, rfl⟩ := h
      exact forall_mem_cons.mpr
        ⟨gives_ty.required hty, forall_mem_append.mpr ⟨ih.required hl, ih.required hr⟩⟩
    · obtain ⟨v, -, rfl⟩ := h
      simp [Readable, Expr.types]

lemma gives_expr : Gives Expr.ofJson? fun e => Readable e.types :=
  fun _ _ h => gives_exprAt _ h

lemma readable_toList {e : Option Expr} (h : ∀ e' ∈ e, Readable e'.types) : Readable (e.toList.flatMap Expr.types) := by
  cases e with
  | none => exact fun _ hty => nomatch hty
  | some e => simpa [Readable] using h e rfl

lemma readable_flatMap {α : Type} {xs : List α} {f : α → List Ty} (h : ∀ x ∈ xs, Readable (f x)) :
    Readable (xs.flatMap f) := by
  intro ty hty
  obtain ⟨x, hx, hty⟩ := mem_flatMap.mp hty
  exact h x hx ty hty

lemma gives_variable : Gives Variable.ofJson? fun v => Readable v.types := by
  intro j v h
  simp only [Variable.ofJson?, bind, bind_eq_some_iff, pure, Option.some.injEq] at h
  obtain ⟨r, -, name, -, ty, hty, index, -, suffix, -, assignable, -, init, hinit, rfl⟩ := h
  have hinit := gives_expr.orNone hinit
  exact forall_mem_cons.mpr ⟨gives_ty.required hty, readable_toList hinit⟩

lemma gives_arm : Gives PhiArm.ofJson? fun arm => Readable arm.types := by
  intro j arm h
  simp only [PhiArm.ofJson?, bind, bind_eq_some_iff, pure, Option.some.injEq] at h
  obtain ⟨r, -, edge, -, var, -, guard, hguard, rfl⟩ := h
  exact readable_toList (gives_expr.orNone hguard)

lemma gives_inst : Gives Inst.ofJson? fun i => Readable i.types := by
  intro j i h
  have hexprs : ∀ {r : Record} {name : String} {es : List Expr},
      r.defaulting? name [] (listOf? Expr.ofJson?) = some es → Readable (es.flatMap Expr.types) :=
    fun hes => readable_flatMap (gives_expr.orNil hes)
  simp only [Inst.ofJson?, bind, bind_eq_some_iff] at h
  obtain ⟨⟨tag, fields⟩, -, h⟩ := h
  split at h
  all_goals simp only [bind_eq_some_iff, pure, Option.some.injEq, reduceCtorEq] at h
  · obtain ⟨r, -, target, -, value, hvalue, rfl⟩ := h
    exact gives_expr.required hvalue
  · obtain ⟨r, -, target, -, source, -, indexes, hindexes, rfl⟩ := h
    exact hexprs hindexes
  · obtain ⟨r, -, target, -, indexes, hindexes, value, hvalue, rfl⟩ := h
    exact forall_mem_append.mpr ⟨hexprs hindexes, gives_expr.required hvalue⟩
  · obtain ⟨r, -, target, -, callee, -, args, hargs, rfl⟩ := h
    exact hexprs hargs
  · obtain ⟨r, -, target, -, arms, harms, rfl⟩ := h
    exact readable_flatMap (gives_arm.list.required harms)
  · obtain ⟨r, -, value, hvalue, rfl⟩ := h
    exact readable_toList (gives_expr.orNone hvalue)
  · obtain ⟨r, -, source, -, target, -, ty, hty, rfl⟩ := h
    exact forall_mem_singleton.mpr (gives_ty.required hty)

lemma gives_instData : Gives InstData.ofJson? fun d => Readable d.types := by
  intro j d h
  simp only [InstData.ofJson?, bind, bind_eq_some_iff, pure, Option.some.injEq] at h
  obtain ⟨r, -, inst, hinst, block, -, predicate, hpredicate, rfl⟩ := h
  have hpredicate := gives_expr.orNone hpredicate
  exact forall_mem_append.mpr ⟨gives_inst.required hinst, readable_toList hpredicate⟩

lemma gives_node : Gives Node.ofJson? fun node => Readable node.types := by
  intro j node h
  simp only [Node.ofJson?, bind, bind_eq_some_iff] at h
  obtain ⟨⟨tag, fields⟩, -, h⟩ := h
  split at h
  all_goals simp only [bind_eq_some_iff, pure, Option.some.injEq, reduceCtorEq] at h
  · obtain ⟨r, -, insts, -, rfl⟩ := h
    exact fun _ hty => by cases hty
  · obtain ⟨r, -, condition, hcondition, thenNodes, -, elseNodes, -, join, -, rfl⟩ := h
    simpa [Readable, Node.types, Node.condition?] using gives_expr.required hcondition
  · obtain ⟨r, -, condition, hcondition, body, -, join, -, rfl⟩ := h
    simpa [Readable, Node.types, Node.condition?] using gives_expr.required hcondition

lemma gives_procedure : Gives Procedure.ofJson? fun p => Readable p.types := by
  intro j p h
  simp only [Procedure.ofJson?, bind, bind_eq_some_iff, pure, Option.some.injEq] at h
  obtain ⟨r, -, name, -, params, -, returnTy, hty, native, -, locals, hlocals, nodes, hnodes, insts,
    hinsts, body, -, nextTemp, -, rfl⟩ := h
  have hlocals := gives_variable.orEmpty hlocals
  have hnodes := gives_node.orEmpty hnodes
  have hinsts := gives_instData.orEmpty hinsts
  simp only [Readable, Procedure.types, forall_mem_cons, forall_mem_append]
  exact ⟨gives_ty.required hty, readable_flatMap hlocals, readable_flatMap hnodes, readable_flatMap hinsts⟩

lemma gives_actor : Gives Actor.ofJson? fun a => Readable a.types := by
  intro j a h
  simp only [Actor.ofJson?, bind, bind_eq_some_iff, pure, Option.some.injEq] at h
  obtain ⟨r, -, name, -, inputs, hinputs, outputs, houtputs, globals, hglobals, procs, hprocs,
    actions, -, fsm, -, ids, -, rfl⟩ := h
  have hinputs := gives_port.orNil hinputs
  have houtputs := gives_port.orNil houtputs
  have hglobals := gives_variable.orNil hglobals
  have hprocs := gives_procedure.orNil hprocs
  simp only [Readable, Actor.types, forall_mem_append, forall_mem_map]
  exact ⟨hinputs, houtputs, readable_flatMap hglobals, readable_flatMap hprocs⟩

end ActorNet
