import ActorNet.Network.Graph
import ActorNet.Proofs.Effects
import Mathlib.Algebra.Group.Int.Defs
import Mathlib.Data.List.Nodup
import Mathlib.Data.Set.List

/-!
# Which descriptions are networks

A description is `Structured` if its names are there, distinct and known, and every connection joins
two ports (`ConnectionDecl.Joins`). It is `WellTyped` if the ports that it joins have equal types.
Building succeeds on the descriptions that are both, and a type error is reported only if nothing
else is wrong.
-/

namespace ActorNet

open List

variable {k : Connection} {c : ConnectionDecl} {i : InstanceDecl} {connections : List Connection}
  {instances seen : List Instance} {decls : List InstanceDecl} {n : Network} {decl : NetworkDecl} {id : String}
  {α β : Type}

/-! ## Homogeneous literals -/

/-- All elements of a list are of one kind, at every level. -/
inductive Literal.Homogeneous : Literal → Prop where
  | bool (b : Bool) : Homogeneous (.bool b)
  | int (n : Int64) : Homogeneous (.int n)
  | str (s : String) : Homogeneous (.str s)
  | list {items : List Literal} (kinds : ∀ a ∈ items, ∀ b ∈ items, a.kind = b.kind)
      (elements : ∀ a ∈ items, a.Homogeneous) : Homogeneous (.list items)

namespace Literal

lemma sameKind_iff (items : List Literal) : sameKind items = true ↔ ∀ a ∈ items, ∀ b ∈ items, a.kind = b.kind := by
  fun_induction sameKind items with
  | case1 a b rest ih => grind
  | case2 items h => rcases items with _ | ⟨a, _ | ⟨b, rest⟩⟩ <;> grind

mutual

lemma isHomogeneous_iff : (value : Literal) → (value.isHomogeneous = true ↔ value.Homogeneous)
  | bool b => iff_of_true rfl (.bool b)
  | int n => iff_of_true rfl (.int n)
  | str s => iff_of_true rfl (.str s)
  | list items => by
    rw [isHomogeneous, Bool.and_eq_true, sameKind_iff, allHomogeneous_iff items]
    exact ⟨fun h => .list h.1 h.2, fun h => by cases h with | list kinds elements => exact ⟨kinds, elements⟩⟩

lemma allHomogeneous_iff : (items : List Literal) →
    (allHomogeneous items = true ↔ ∀ a ∈ items, a.Homogeneous)
  | [] => by simp [allHomogeneous]
  | item :: rest => by
    rw [allHomogeneous, Bool.and_eq_true, isHomogeneous_iff item, allHomogeneous_iff rest, forall_mem_cons]

end

end Literal

/-! ## Conditions -/

/-- An instance has a name, a known class, and named parameters with homogeneous values. -/
structure InstanceDecl.Sound (registry : Registry) (i : InstanceDecl) : Prop where
  id : i.id ≠ ""
  cls : i.cls ≠ ""
  params : ∀ param ∈ i.params, param.1 ≠ "" ∧ param.2.Homogeneous
  known : ∃ cls, registry.lookup? i.cls = some cls

/-- A connection leads from an output port of one instance of the description to an input port of
another, and its buffer size, if it has one, is an unsigned 32-bit integer. -/
structure ConnectionDecl.Joins (registry : Registry) (instances : List InstanceDecl)
    (c : ConnectionDecl) (source target : Port) : Prop where
  named : c.src ≠ "" ∧ c.srcPort ≠ "" ∧ c.dst ≠ "" ∧ c.dstPort ≠ ""
  source : ∃ i ∈ instances, i.id = c.src ∧
    ∃ cls, registry.lookup? i.cls = some cls ∧ cls.output? c.srcPort = some source
  target : ∃ i ∈ instances, i.id = c.dst ∧
    ∃ cls, registry.lookup? i.cls = some cls ∧ cls.input? c.dstPort = some target
  buffer : ∀ value, c.attributes.lookup bufferSizeAttribute = some value →
    ∃ n : Int64, value = .int n ∧ 0 ≤ n.toInt ∧ n.toInt < 2 ^ 32

namespace NetworkDecl

/-- All that a network needs, but for the types of the ports that are joined. -/
structure Structured (registry : Registry) (decl : NetworkDecl) : Prop where
  name : decl.name ≠ ""
  nonempty : decl.instances ≠ []
  instances : ∀ i ∈ decl.instances, i.Sound registry
  distinct : (decl.instances.map (·.id)).Nodup
  connections : ∀ c ∈ decl.connections, ∃ source target, c.Joins registry decl.instances source target

/-- The ports that connections join have equal types. -/
def WellTyped (registry : Registry) (decl : NetworkDecl) (connections : List ConnectionDecl) : Prop :=
  ∀ c ∈ connections, ∀ source target, c.Joins registry decl.instances source target → source.ty = target.ty

end NetworkDecl

namespace Network

open NetworkError (code)

variable {registry : Registry} {e : NetworkError}

/-! ## Instances -/

lemma require_eq_ok_iff {value element field : String} {span : Option Span} :
    require value element field span = .ok () ↔ value ≠ "" := by
  by_cases h : value = "" <;> simp [require, h]

lemma check_bind {check : Except NetworkError Unit} {next : Unit → Except NetworkError α} {y : α} :
    (check >>= next) = .ok y ↔ check = .ok () ∧ next () = .ok y := by
  cases check <;> simp [bind, Except.bind]

lemma checkParams_eq_ok_iff {params : Params} :
    checkParams i params = .ok () ↔ ∀ param ∈ params, param.1 ≠ "" ∧ param.2.Homogeneous := by
  induction params with
  | nil => simp [checkParams]
  | cons param rest ih =>
    obtain ⟨name, value⟩ := param
    rw [checkParams, check_bind, require_eq_ok_iff, forall_mem_cons, ← Literal.isHomogeneous_iff]
    by_cases h : value.isHomogeneous = true <;> simp [h, ih]

/-- The instance that a declaration stands for. -/
def instanceOf (i : InstanceDecl) : Instance :=
  ⟨i.id, i.cls, i.params⟩

lemma addInstance_eq_ok_iff {next : List Instance} : addInstance registry seen i = .ok next ↔
      i.Sound registry ∧ (∀ s ∈ seen, s.id ≠ i.id) ∧ next = seen ++ [instanceOf i] := by
  have hsound : i.Sound registry ↔ i.id ≠ "" ∧ i.cls ≠ "" ∧ checkParams i i.params = .ok () ∧
      ∃ cls, registry.lookup? i.cls = some cls := by
    rw [checkParams_eq_ok_iff]
    exact ⟨fun h => ⟨h.id, h.cls, h.params, h.known⟩, fun h => ⟨h.1, h.2.1, h.2.2.1, h.2.2.2⟩⟩
  simp only [addInstance, check_bind, require_eq_ok_iff, hsound]
  by_cases hseen : seen.any (·.id = i.id) = true
  · have htaken : ¬ ∀ s ∈ seen, s.id ≠ i.id := by simpa using hseen
    simp [hseen, htaken]
  · have hfresh : (∀ s ∈ seen, s.id ≠ i.id) ↔ True := iff_true_intro (by simpa using hseen)
    rw [if_neg hseen, check_bind, hfresh]
    cases registry.lookup? i.cls <;> simp [instanceOf, and_assoc, eq_comm (b := next)]

/-- Adding succeeds iff declarations are sound and ids distinct. -/
lemma addInstances_eq_ok_iff (hseen : (seen.map (·.id)).Nodup) :
    decls.foldlM (addInstance registry) seen = .ok instances ↔ (∀ i ∈ decls, i.Sound registry) ∧
      (seen.map (·.id) ++ decls.map (·.id)).Nodup ∧ instances = seen ++ decls.map instanceOf := by
  induction decls generalizing seen with
  | nil => simp [hseen, pure, Except.pure, eq_comm]
  | cons i rest ih =>
    rw [foldlM_cons, bind_eq_ok]
    simp only [addInstance_eq_ok_iff, forall_mem_cons]
    have hadd (hfresh : ∀ s ∈ seen, s.id ≠ i.id) : ((seen ++ [instanceOf i]).map (·.id)).Nodup := by
      simpa [nodup_append, hseen, instanceOf] using hfresh
    constructor
    · rintro ⟨_, ⟨hi, hfresh, rfl⟩, h⟩
      rw [ih (hadd hfresh)] at h
      simpa [hi, instanceOf] using h
    · rintro ⟨⟨hi, hrest⟩, hnodup, rfl⟩
      have hfresh : ∀ s ∈ seen, s.id ≠ i.id := fun s hs =>
        (nodup_append.mp hnodup).2.2 s.id (mem_map_of_mem hs) i.id mem_cons_self
      refine ⟨_, ⟨hi, hfresh, rfl⟩, (ih (hadd hfresh)).mpr ⟨hrest, ?_, by simp⟩⟩
      simpa [instanceOf] using hnodup

/-! ## Connections -/

lemma bufferSize?_eq_ok_iff {attributes : Params} (span : Option Span) :
    (∃ size, bufferSize? attributes span = .ok size) ↔ ∀ value, attributes.lookup bufferSizeAttribute = some value →
      ∃ n : Int64, value = .int n ∧ 0 ≤ n.toInt ∧ n.toInt < 2 ^ 32 := by
  rw [bufferSize?]
  cases attributes.lookup bufferSizeAttribute with
  | none => simp
  | some value =>
    cases value with
    | int n =>
      have hmax : n.toInt ≤ Text.word32Max ↔ n.toInt < 2 ^ 32 := by simp [Text.word32Max]; omega
      simp only [hmax]
      by_cases h : 0 ≤ n.toInt ∧ n.toInt < 2 ^ 32
      · rw [if_pos h]
        exact iff_of_true ⟨_, rfl⟩ fun value hvalue => ⟨n, (Option.some.inj hvalue).symm, h⟩
      · rw [if_neg h]
        refine iff_of_false (by simp) fun hall => ?_
        obtain ⟨n', hn, h'⟩ := hall _ rfl
        cases hn
        exact h h'
    | _ => simp

/-- The class of the instance at an index. -/
def classAt (registry : Registry) (instances : List Instance) (index : Nat) : Option ActorClass :=
  instances[index]?.bind fun i => registry.lookup? i.cls

/-- A connection resolves iff its ends are ports of instances. -/
lemma resolve_eq_ok_iff :
    resolve registry instances c = .ok k ↔ (c.src ≠ "" ∧ c.srcPort ≠ "" ∧ c.dst ≠ "" ∧ c.dstPort ≠ "") ∧
      instances.findIdx? (·.id = c.src) = some k.source ∧ instances.findIdx? (·.id = c.dst) = some k.target ∧
      (classAt registry instances k.source).bind (·.output? c.srcPort) = some k.sourcePort ∧
      (classAt registry instances k.target).bind (·.input? c.dstPort) = some k.targetPort ∧
      bufferSize? c.attributes c.span = .ok k.bufferSize ∧ k.attributes = c.attributes ∧ k.span = c.span := by
  obtain ⟨source, sourcePort, target, targetPort, bufferSize, attributes, span⟩ := k
  rw [resolve, check_bind, check_bind, check_bind, check_bind]
  simp only [require_eq_ok_iff, and_assoc]
  refine and_congr_right fun _ => and_congr_right fun _ => and_congr_right fun _ => and_congr_right fun _ => ?_
  cases instances.findIdx? (·.id = c.src) with
  | none => simp [bind, Except.bind]
  | some source' =>
    cases instances.findIdx? (·.id = c.dst) with
    | none => simp [bind, Except.bind]
    | some target' =>
      simp only [bind, Except.bind, Option.some.injEq]
      cases hsourcePort : (instances[source']?.bind fun i => registry.lookup? i.cls).bind (·.output? c.srcPort) with
      | none => grind [classAt]
      | some sourcePort' =>
        cases htargetPort : (instances[target']?.bind fun i => registry.lookup? i.cls).bind (·.input? c.dstPort) with
        | none => grind [classAt]
        | some targetPort' =>
          cases hsize : bufferSize? c.attributes c.span with
          | error e => simp
          | ok size => simp [pure, Except.pure]; grind [classAt]

/-- Where names are distinct, the first instance of a name is the only one. -/
lemma exists_findIdx?_iff (hdistinct : (decls.map (·.id)).Nodup) {port? : ActorClass → Option Port}
    {port : Port} : (∃ index, (decls.map instanceOf).findIdx? (·.id = id) = some index ∧
      (classAt registry (decls.map instanceOf) index).bind port? = some port) ↔
    ∃ i ∈ decls, i.id = id ∧ ∃ cls, registry.lookup? i.cls = some cls ∧ port? cls = some port := by
  induction decls with
  | nil => simp
  | cons i rest ih =>
    simp only [map_cons, nodup_cons] at hdistinct
    rw [map_cons, findIdx?_cons]
    by_cases hi : i.id = id
    · have hother : ∀ j ∈ rest, j.id ≠ id := fun j hj hid =>
        hdistinct.1 (mem_map.mpr ⟨j, hj, hid.trans hi.symm⟩)
      simp only [instanceOf, hi, decide_true, if_true, Option.some.injEq, exists_eq_left']
      simp [classAt, bind_eq_some_iff, hi]
      grind
    · have hcons : (∃ j ∈ i :: rest, j.id = id ∧ ∃ cls, registry.lookup? j.cls = some cls ∧ port? cls = some port) ↔
          ∃ j ∈ rest, j.id = id ∧ ∃ cls, registry.lookup? j.cls = some cls ∧ port? cls = some port := by
        simp [hi]
      rw [if_neg (by simp [instanceOf, hi]), hcons, ← ih hdistinct.2]
      simp only [map_eq_some_iff]
      constructor
      · rintro ⟨_, ⟨index, hindex, rfl⟩, h⟩
        exact ⟨index, hindex, h⟩
      · rintro ⟨index, hindex, h⟩
        exact ⟨index + 1, ⟨index, hindex, rfl⟩, h⟩

lemma mapM_eq_ok_iff {f : α → Except NetworkError β} {xs : List α} {ys : List β} :
    xs.mapM f = .ok ys ↔ xs.map f = ys.map .ok := by
  induction xs generalizing ys with
  | nil => cases ys <;> simp [pure, Except.pure]
  | cons x xs ih =>
    simp only [mapM_cons, bind_eq_ok, ih, pure, Except.pure, Except.ok.injEq]
    cases ys <;> simp

lemma exists_resolve_iff (hdistinct : (decls.map (·.id)).Nodup) {source target : Port} :
    (∃ k, resolve registry (decls.map instanceOf) c = .ok k ∧ k.sourcePort = source ∧
      k.targetPort = target) ↔ c.Joins registry decls source target := by
  constructor
  · rintro ⟨k, hk, rfl, rfl⟩
    obtain ⟨hnamed, hsource, htarget, hsourcePort, htargetPort, hsize, -⟩ := resolve_eq_ok_iff.mp hk
    exact ⟨hnamed, (exists_findIdx?_iff hdistinct).mp ⟨_, hsource, hsourcePort⟩,
      (exists_findIdx?_iff hdistinct).mp ⟨_, htarget, htargetPort⟩, (bufferSize?_eq_ok_iff _).mp ⟨_, hsize⟩⟩
  · intro h
    obtain ⟨sourceIndex, hsource, hsourcePort⟩ := (exists_findIdx?_iff hdistinct).mpr h.source
    obtain ⟨targetIndex, htarget, htargetPort⟩ := (exists_findIdx?_iff hdistinct).mpr h.target
    obtain ⟨size, hsize⟩ := (bufferSize?_eq_ok_iff c.span).mpr h.buffer
    exact ⟨⟨sourceIndex, source, targetIndex, target, size, c.attributes, c.span⟩,
      resolve_eq_ok_iff.mpr ⟨h.named, hsource, htarget, hsourcePort, htargetPort, hsize, rfl, rfl⟩, rfl, rfl⟩

/-- A resolved connection names the instances and ports of its declaration. -/
lemma names_of_resolve (h : resolve registry instances c = .ok k) :
    instances[k.source]?.map (·.id) = some c.src ∧ k.sourcePort.name = c.srcPort ∧
      instances[k.target]?.map (·.id) = some c.dst ∧ k.targetPort.name = c.dstPort := by
  obtain ⟨-, hsource, htarget, hsourcePort, htargetPort, -⟩ := resolve_eq_ok_iff.mp h
  have hid {id : String} {index : Nat} (hindex : instances.findIdx? (·.id = id) = some index) :
      instances[index]?.map (·.id) = some id := by
    obtain ⟨hlt, hp, -⟩ := findIdx?_eq_some_iff_getElem.mp hindex
    simpa [hlt] using hp
  obtain ⟨cls, -, hout⟩ := bind_eq_some_iff.mp hsourcePort
  obtain ⟨cls', -, hin⟩ := bind_eq_some_iff.mp htargetPort
  exact ⟨hid hsource, by simpa using find?_some hout, hid htarget, by simpa using find?_some hin⟩

/-! ## Types -/

/-- The check of types passes iff joined ports have equal types. -/
lemma checkTypes_eq_ok_iff :
    n.checkTypes connections = .ok () ↔ ∀ k ∈ connections, k.sourcePort.ty = k.targetPort.ty := by
  induction connections with
  | nil => simp [checkTypes]
  | cons k rest ih => by_cases h : k.sourcePort.ty = k.targetPort.ty <;> simp [checkTypes, h, ih]

/-- The first connection with different types is reported. -/
lemma checkTypes_eq_error (h : n.checkTypes connections = .error e) :
    ∃ before k after, connections = before ++ k :: after ∧
      (∀ k' ∈ before, k'.sourcePort.ty = k'.targetPort.ty) ∧ k.sourcePort.ty ≠ k.targetPort.ty ∧ e =
      .typeMismatch (n.sourceText k) k.sourcePort.ty (n.targetText k) k.targetPort.ty k.span := by
  induction connections with
  | nil => cases h
  | cons k rest ih =>
    rw [checkTypes] at h
    split at h
    · next hty =>
      obtain ⟨before, k', after, rfl, hbefore, hrest⟩ := ih h
      exact ⟨k :: before, k', after, rfl, forall_mem_cons.mpr ⟨hty, hbefore⟩, hrest⟩
    · next hty =>
      obtain rfl := Except.error.inj h
      exact ⟨[], k, rest, rfl, by simp, hty, rfl⟩

/-! ## Other errors -/

/-- Whatever fails here is not a type error. -/
def Structural {α : Type} (x : Except NetworkError α) : Prop :=
  ∀ e, x = .error e → e.code ≠ .typeMismatch

@[simp]
lemma structural_ok (x : α) : Structural (.ok x) := by
  intro e h
  cases h

@[simp]
lemma structural_error : Structural (.error e : Except NetworkError α) ↔ e.code ≠ .typeMismatch := by
  simp [Structural]

/-- Errors of a sequence are those of its parts. -/
lemma structural_bind {x : Except NetworkError α} {f : α → Except NetworkError β}
    (hx : Structural x) (hf : ∀ a, Structural (f a)) : Structural (x >>= f) := by
  cases x with
  | error e => exact structural_error.mpr (structural_error.mp hx)
  | ok a => exact hf a

lemma structural_require (value element field : String) (span : Option Span) :
    Structural (require value element field span) := by
  rw [require]
  split <;> simp [code]

lemma structural_checkParams (i : InstanceDecl) (params : Params) : Structural (checkParams i params) := by
  induction params with
  | nil => exact structural_ok ()
  | cons param rest ih =>
    refine structural_bind (structural_require _ _ _ _) fun _ => ?_
    split
    · exact ih
    · simp [code]

lemma structural_addInstance (seen : List Instance) (i : InstanceDecl) : Structural (addInstance registry seen i) := by
  refine structural_bind (structural_require _ _ _ _) fun _ => structural_bind (structural_require _ _ _ _) fun _ => ?_
  split
  · simp [code]
  · refine structural_bind (structural_checkParams i i.params) fun _ => ?_
    split <;> simp [code]

lemma structural_bufferSize? (attributes : Params) (span : Option Span) : Structural (bufferSize? attributes span) := by
  rw [bufferSize?]
  split
  · simp
  · split <;> simp [code]
  · simp [code]

lemma structural_resolve (instances : List Instance) (c : ConnectionDecl) :
    Structural (resolve registry instances c) := by
  refine structural_bind (structural_require _ _ _ _) fun _ => structural_bind (structural_require _ _ _ _) fun _ =>
    structural_bind (structural_require _ _ _ _) fun _ => structural_bind (structural_require _ _ _ _) fun _ =>
    structural_bind ?_ fun source => structural_bind ?_ fun target => ?_
  · dsimp only
    split <;> simp [code]
  · dsimp only
    split <;> simp [code]
  · dsimp only
    split
    · refine structural_bind (structural_ok _) fun sourcePort => ?_
      split
      · exact structural_bind (structural_ok _) fun targetPort =>
          structural_bind (structural_bufferSize? _ _) fun _ => structural_ok _
      · exact structural_error.mpr (by simp [code])
    · exact structural_error.mpr (by simp [code])

lemma structural_foldlM {f : β → α → Except NetworkError β} (hf : ∀ b a, Structural (f b a)) (b : β)
    (xs : List α) : Structural (xs.foldlM f b) := by
  induction xs generalizing b with
  | nil => exact structural_ok b
  | cons x xs ih =>
    rw [foldlM_cons]
    exact structural_bind (hf b x) ih

lemma structural_mapM {f : α → Except NetworkError β} (hf : ∀ a, Structural (f a)) (xs : List α) :
    Structural (xs.mapM f) := by
  induction xs with
  | nil => exact structural_ok []
  | cons x xs ih =>
    rw [mapM_cons]
    exact structural_bind (hf x) fun _ => structural_bind ih fun _ => structural_ok _

/-! ## Building -/

/-- Building up to the check of types. -/
def graph (decl : NetworkDecl) (registry : Registry) : Except NetworkError Network := do
  require decl.name "Network" "name" decl.span
  let instances ← decl.instances.foldlM (addInstance registry) []
  if instances.isEmpty then .error (.emptyNetwork decl.name)
  else return ⟨decl.name, instances, ← decl.connections.mapM (resolve registry instances)⟩

lemma build_eq_graph (decl : NetworkDecl) (registry : Registry) : build decl registry =
    graph decl registry >>= fun n => n.checkTypes n.connections >>= fun _ => .ok n := by
  simp only [build, graph, bind_assoc]
  refine bind_congr fun _ => bind_congr fun instances => ?_
  split
  · rfl
  · simp only [bind_assoc]; rfl

/-- The check of types is the only one that finds a mismatch. -/
lemma structural_graph (decl : NetworkDecl) (registry : Registry) : Structural (graph decl registry) := by
  refine structural_bind (structural_require _ _ _ _) fun _ =>
    structural_bind (structural_foldlM structural_addInstance _ _) fun instances => ?_
  split
  · simp [code]
  · exact structural_bind (structural_mapM (structural_resolve instances) _) fun _ => structural_ok _

/-- The graph holds every declaration, in order. -/
lemma graph_eq_ok_iff : graph decl registry = .ok n ↔
    decl.Structured registry ∧ n.name = decl.name ∧ n.instances = decl.instances.map instanceOf ∧
      decl.connections.map (resolve registry n.instances) = n.connections.map .ok := by
  obtain ⟨name, instances, connections⟩ := n
  have hinstances (instances : List Instance) :
      decl.instances.foldlM (addInstance registry) [] = .ok instances ↔ _ := addInstances_eq_ok_iff nodup_nil
  rw [graph, check_bind, require_eq_ok_iff, bind_eq_ok]
  simp only [hinstances, map_nil, nil_append]
  constructor
  · rintro ⟨hname, _, ⟨hsound, hdistinct, rfl⟩, h⟩
    split at h
    · cases h
    · next hnonempty =>
      obtain ⟨ks, hks, heq⟩ := bind_eq_ok.mp h
      cases heq
      rw [mapM_eq_ok_iff] at hks
      refine ⟨⟨hname, by simpa using hnonempty, hsound, hdistinct, fun c hc => ?_⟩, rfl, rfl, hks⟩
      obtain ⟨k, -, hk⟩ := mem_map.mp (hks ▸ mem_map_of_mem hc)
      exact ⟨_, _, (exists_resolve_iff hdistinct).mp ⟨k, hk.symm, rfl, rfl⟩⟩
  · rintro ⟨h, rfl, rfl, hks⟩
    refine ⟨h.name, _, ⟨h.instances, h.distinct, rfl⟩, ?_⟩
    rw [if_neg (by simpa using h.nonempty), mapM_eq_ok_iff.mpr hks]
    rfl

lemma exists_graph_iff : (∃ n, graph decl registry = .ok n) ↔ decl.Structured registry := by
  constructor
  · rintro ⟨n, h⟩
    exact (graph_eq_ok_iff.mp h).1
  · intro h
    have hks : decl.connections.map (resolve registry (decl.instances.map instanceOf)) ∈
        Set.range (List.map Except.ok) := by
      rw [Set.range_list_map]
      intro outcome houtcome
      obtain ⟨c, hc, rfl⟩ := mem_map.mp houtcome
      obtain ⟨source, target, hjoins⟩ := h.connections c hc
      obtain ⟨k, hk, -⟩ := (exists_resolve_iff h.distinct).mpr hjoins
      exact ⟨k, hk.symm⟩
    obtain ⟨ks, hks⟩ := hks
    exact ⟨⟨decl.name, decl.instances.map instanceOf, ks⟩, graph_eq_ok_iff.mpr ⟨h, rfl, rfl, hks.symm⟩⟩

lemma nameOf_eq {index : Nat} (h : n.instances[index]?.map (·.id) = some id) : n.nameOf index = id := by
  obtain ⟨i, hi, rfl⟩ := map_eq_some_iff.mp h
  simp [nameOf, hi]

lemma texts_of_resolve (h : resolve registry n.instances c = .ok k) :
    n.sourceText k = c.src ++ "." ++ c.srcPort ∧ n.targetText k = c.dst ++ "." ++ c.dstPort := by
  obtain ⟨hsource, hsourcePort, htarget, htargetPort⟩ := names_of_resolve h
  rw [sourceText, targetText, nameOf_eq hsource, nameOf_eq htarget, hsourcePort, htargetPort]
  exact ⟨rfl, rfl⟩

/-- In the graph of a description the resolved connections are well typed if the declared ones
are. -/
lemma wellTyped_iff (h : graph decl registry = .ok n) {cs : List ConnectionDecl}
    {ks : List Connection} (hks : cs.map (resolve registry n.instances) = ks.map .ok) :
    (∀ k ∈ ks, k.sourcePort.ty = k.targetPort.ty) ↔ decl.WellTyped registry cs := by
  obtain ⟨hstructured, -, hinstances, -⟩ := graph_eq_ok_iff.mp h
  rw [hinstances] at hks
  constructor
  · intro hty c hc source target hjoins
    obtain ⟨k, hk, rfl, rfl⟩ := (exists_resolve_iff hstructured.distinct).mpr hjoins
    obtain ⟨k', hk', heq⟩ := mem_map.mp (hks ▸ mem_map_of_mem hc)
    cases heq.trans hk
    exact hty k hk'
  · intro hty k hk
    have hok : Except.ok k ∈ cs.map (resolve registry (decl.instances.map instanceOf)) := hks ▸ mem_map_of_mem hk
    obtain ⟨c, hc, heq⟩ := mem_map.mp hok
    exact hty c hc _ _ ((exists_resolve_iff hstructured.distinct).mp ⟨k, heq, rfl, rfl⟩)

/-- A network is a graph with well-typed connections. -/
lemma build_eq_ok_iff : build decl registry = .ok n ↔
    graph decl registry = .ok n ∧ decl.WellTyped registry decl.connections := by
  have hty {n : Network} (hn : graph decl registry = .ok n) :
      n.checkTypes n.connections = .ok () ↔ decl.WellTyped registry decl.connections :=
    checkTypes_eq_ok_iff.trans (wellTyped_iff hn (graph_eq_ok_iff.mp hn).2.2.2)
  rw [build_eq_graph, bind_eq_ok]
  constructor
  · rintro ⟨n', hn, h⟩
    obtain ⟨hchecked, heq⟩ := check_bind.mp h
    cases heq
    exact ⟨hn, (hty hn).mp hchecked⟩
  · rintro ⟨hn, h⟩
    exact ⟨n, hn, check_bind.mpr ⟨(hty hn).mpr h, rfl⟩⟩

lemma exists_build_iff : (∃ n, build decl registry = .ok n) ↔
    decl.Structured registry ∧ decl.WellTyped registry decl.connections := by
  simp only [build_eq_ok_iff, exists_and_right, exists_graph_iff]

/-- Building succeeds on the descriptions that are structured and well typed. It fails with a type
error if the description is structured, and the error names the ends of the first connection that
joins ports of different types. -/
theorem build_accepts_wellTyped (decl : NetworkDecl) (registry : Registry) :
    ((∃ n, build decl registry = .ok n) ↔
      decl.Structured registry ∧ decl.WellTyped registry decl.connections) ∧
    ∀ e, build decl registry = .error e →
      ((∃ source sourceTy target targetTy span, e = .typeMismatch source sourceTy target targetTy span) ↔
        decl.Structured registry) ∧
      (decl.Structured registry → ∃ before c after source target, decl.connections = before ++ c :: after ∧
        decl.WellTyped registry before ∧ c.Joins registry decl.instances source target ∧ source.ty ≠ target.ty ∧
        e = .typeMismatch (c.src ++ "." ++ c.srcPort) source.ty (c.dst ++ "." ++ c.dstPort) target.ty c.span) := by
  refine ⟨exists_build_iff, fun e he => ?_⟩
  rw [build_eq_graph] at he
  cases hgraph : graph decl registry with
  | error e' =>
    rw [hgraph] at he
    cases he
    have hnot : ¬ decl.Structured registry := by simp [← exists_graph_iff, hgraph]
    refine ⟨iff_of_false ?_ hnot, fun h => absurd h hnot⟩
    rintro ⟨source, sourceTy, target, targetTy, span, rfl⟩
    exact structural_graph decl registry _ hgraph rfl
  | ok n =>
    obtain ⟨hstructured, -, hinstances, hks⟩ := graph_eq_ok_iff.mp hgraph
    rw [hgraph] at he
    have hcheck : n.checkTypes n.connections = .error e := by
      cases hcheck : n.checkTypes n.connections <;> simp_all [bind, Except.bind]
    obtain ⟨before, k, after, hconnections, hbefore, hty, rfl⟩ := checkTypes_eq_error hcheck
    rw [hconnections, List.map_append, List.map_cons] at hks
    obtain ⟨cs, rest, hcs, hbefores, hrest⟩ := List.map_eq_append_iff.mp hks
    obtain ⟨c, cs', rfl, hk, -⟩ := List.map_eq_cons_iff.mp hrest
    obtain ⟨hsource, htarget⟩ := texts_of_resolve hk
    rw [hsource, htarget, (resolve_eq_ok_iff.mp hk).2.2.2.2.2.2.2]
    refine ⟨iff_of_true ⟨_, _, _, _, _, rfl⟩ hstructured, fun _ => ?_⟩
    rw [hinstances] at hk
    exact ⟨cs, c, cs', k.sourcePort, k.targetPort, hcs, (wellTyped_iff hgraph hbefores).mp hbefore,
      (exists_resolve_iff hstructured.distinct).mp ⟨k, hk, rfl, rfl⟩, hty, rfl⟩

end Network

end ActorNet
