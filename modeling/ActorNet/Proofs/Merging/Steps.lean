import ActorNet.Pass.Merging
import ActorNet.Proofs.Structure.Verified
import Mathlib.Data.List.Sort

/-!
# What merging does to an actor

`Actor.MergesTo a group merged b` says all that one merge does: which actions it takes, in which
order, what stands for them, and what becomes of the procedures and of the state machine.
`Actor.Merged` is a sequence of merges, and what `classify` does is one (`Actor.merged_classify`).
Whatever a single merge keeps is kept by all of them, so an actor that is consistent stays so
(`Actor.Merged.consistent`).
-/

namespace ActorNet

open List

variable {x y : Action} {id : ActionId} {fsm : Fsm} {ids : List ActionId} {s : StateId}

/-! ## State machines -/

namespace Fsm

lemma foldl_addTransition (ts : List Transition) (m : Fsm) :
    ts.foldl addTransition m = { m with transitions := m.transitions ++ ts } := by
  induction ts generalizing m with
  | nil => simp
  | cons t rest ih =>
    rw [foldl_cons, ih, addTransition]
    simp

lemma relabel_eq (m : Fsm) (ids : List ActionId) (merged : ActionId) : m.relabel ids merged = { m with
      transitions := (m.transitions.filter fun t => !ids.contains t.action) ++
        (distinct ((m.transitions.filter fun t => ids.contains t.action).map fun t => (t.source, t.target))).map
          fun pair => ⟨pair.1, merged, pair.2⟩ } := by
  rw [relabel, remove]
  simp only
  rw [← foldl_map, foldl_addTransition]

lemma mem_relabel {m : Fsm} {merged : ActionId} {t : Transition} :
      t ∈ (m.relabel ids merged).transitions ↔ (t ∈ m.transitions ∧ t.action ∉ ids) ∨
        (t.action = merged ∧ ∃ id ∈ ids, ⟨t.source, id, t.target⟩ ∈ m.transitions) := by
  rw [relabel_eq]
  simp only [mem_append, mem_filter, mem_map, mem_distinct, Bool.not_eq_true',
    contains_eq_mem, decide_eq_false_iff_not, decide_eq_true_eq]
  refine or_congr_right ⟨?_, ?_⟩
  · rintro ⟨pair, ⟨u, ⟨hu, hid⟩, rfl⟩, rfl⟩
    exact ⟨rfl, u.action, hid, hu⟩
  · rintro ⟨rfl, id, hid, hmem⟩
    exact ⟨(t.source, t.target), ⟨_, ⟨hmem, hid⟩, rfl⟩, rfl⟩

end Fsm

namespace Actor

variable {a b c : Actor} {group : List Action} {merged : Action}

/-! ## The order of urgency -/

lemma urgency_getElem (h : (a.actions.map (·.id)).Nodup) {i : Nat} (hi : i < a.actions.length) :
    a.urgency (a.actions[i]).id = i := by
  rw [urgency, findIdx_eq hi]
  refine ⟨by simp, fun j hj => ?_⟩
  have hne := pairwise_iff_getElem.mp h j i (by simpa using Nat.lt_trans hj hi) (by simpa using hi) hj
  simpa using hne

lemma urgency_inj (h : (a.actions.map (·.id)).Nodup) (hx : x ∈ a.actions) (hy : y ∈ a.actions)
    (heq : a.urgency x.id = a.urgency y.id) : x = y := by
  obtain ⟨i, hi, rfl⟩ := mem_iff_getElem.mp hx
  obtain ⟨j, hj, rfl⟩ := mem_iff_getElem.mp hy
  rw [urgency_getElem h hi, urgency_getElem h hj] at heq
  subst heq
  rfl

def InOrder (a : Actor) (group : List Action) : Prop :=
  group.Pairwise fun x y => a.urgency x.id < a.urgency y.id

lemma inOrder_actions (h : (a.actions.map (·.id)).Nodup) : a.InOrder a.actions := by
  refine pairwise_iff_getElem.mpr fun i j hi hj hij => ?_
  rw [urgency_getElem h hi, urgency_getElem h hj]
  exact hij

lemma nodup_offered (fsm : Fsm) (s : StateId) : (a.offered fsm s).Nodup :=
  (mergeSort_perm _ _).nodup_iff.mpr (nodup_distinct _)

lemma mem_offered : id ∈ a.offered fsm s ↔ ∃ t ∈ fsm.transitions, t.source = s ∧ t.action = id := by
  rw [offered, (mergeSort_perm _ _).mem_iff, mem_distinct]
  simp [Fsm.outgoing, and_assoc]

lemma offered_sorted (fsm : Fsm) (s : StateId) : (a.offered fsm s).Pairwise fun x y => a.urgency x ≤ a.urgency y := by
  have hsorted : ((distinct ((fsm.outgoing s).map (·.action))).mergeSort
      fun x y => decide (a.urgency x ≤ a.urgency y)).Pairwise fun x y => decide (a.urgency x ≤ a.urgency y) = true :=
    pairwise_mergeSort (fun x y z => by simpa using Nat.le_trans) (fun x y => by simpa using Nat.le_total _ _) _
  exact hsorted.imp fun hle => of_decide_eq_true hle

lemma offered_eq (hperm : (distinct ((fsm.outgoing s).map (·.action))).Perm ids)
    (hsorted : ids.Pairwise fun x y => a.urgency x < a.urgency y) : a.offered fsm s = ids := by
  have hperm : (a.offered fsm s).Perm ids := (mergeSort_perm _ _).trans hperm
  have hplaces : (ids.map a.urgency).Nodup := pairwise_map.mpr (hsorted.imp Nat.ne_of_lt)
  have hstrict : (a.offered fsm s).Pairwise fun x y => a.urgency x < a.urgency y := by
    refine ((offered_sorted fsm s).and (nodup_offered fsm s)).imp_of_mem fun {x y} hx hy ⟨hle, hne⟩ => ?_
    refine lt_of_le_of_ne hle fun heq => hne ?_
    exact inj_on_of_nodup_map hplaces (hperm.mem_iff.mp hx) (hperm.mem_iff.mp hy) heq
  exact hperm.eq_of_pairwise (fun x y _ _ hlt hlt' => absurd hlt' (Nat.lt_asymm hlt)) hstrict hsorted

def urgentActions (a : Actor) (s : StateId) : List Action :=
  match a.fsm with
  | some fsm => (a.offered fsm s).filterMap a.action?
  | none => []

/-! ## One merge -/

/-- One merge: the actions of `group`, which have the same patterns and stand in the order of
urgency, give way to `merged`, in the place of the most urgent one and on all transitions. -/
structure MergesTo (a : Actor) (group : List Action) (merged : Action) (b : Actor) : Prop where
  two_le : 2 ≤ group.length
  members : ∀ x ∈ group, x ∈ a.actions
  inOrder : a.InOrder group
  patterns : ∀ x ∈ group, x.input = merged.input ∧ x.output = merged.output
  id : merged.id = ⟨a.ids.next.toNat⟩
  scheduler : merged.scheduler = ⟨a.procs.length⟩
  body : merged.body = ⟨a.procs.length + 1⟩
  name : b.name = a.name
  inputs : b.inputs = a.inputs
  outputs : b.outputs = a.outputs
  globals : b.globals = a.globals
  ids : b.ids = ⟨a.ids.next + 1⟩
  procs : ∃ name name' known, b.procs = a.procs ++ [.alwaysTrue name, .dispatch known name' group]
  actions : b.actions = Procedure.insertAt (a.actions.findIdx fun y => group.any (·.id = y.id)) merged
    (a.actions.filter fun y => !group.any (·.id = y.id))
  fsm : b.fsm = a.fsm.map (·.relabel (group.map (·.id)) merged.id)

lemma map_id_filterMap_action? (h : ∀ id ∈ ids, (a.action? id).isSome) :
    (ids.filterMap a.action?).map (·.id) = ids := by
  induction ids with
  | nil => rfl
  | cons id rest ih =>
    obtain ⟨x, hx⟩ := isSome_iff_exists.mp (h id mem_cons_self)
    have hid : x.id = id := by simpa using find?_some hx
    rw [filterMap_cons, hx, map_cons, hid, ih fun id' hid' => h id' (mem_cons_of_mem id hid')]

lemma actionNames_eq (h : ∀ id ∈ ids, (a.action? id).isSome) :
    a.actionNames ids = (ids.filterMap a.action?).map (·.name) := by
  induction ids with
  | nil => rfl
  | cons id rest ih =>
    have hrest := ih fun id' hid' => h id' (mem_cons_of_mem id hid')
    obtain ⟨x, hx⟩ := isSome_iff_exists.mp (h id mem_cons_self)
    simp only [actionNames, map_cons, filterMap_cons, hx] at hrest ⊢
    rw [hrest]

lemma inOrder_filterMap_action? (hnodup : (a.actions.map (·.id)).Nodup) (hids : ids.Nodup)
    (hsorted : ids.Pairwise fun x y => a.urgency x ≤ a.urgency y) : a.InOrder (ids.filterMap a.action?) := by
  have hpairs := hids.and hsorted
  refine (pairwise_filterMap.mpr (hpairs.imp ?_))
  intro i j ⟨hne, hle⟩ x hx y hy
  obtain ⟨hxmem, rfl⟩ := (action?_eq_some hnodup).mp hx
  obtain ⟨hymem, rfl⟩ := (action?_eq_some hnodup).mp hy
  refine lt_of_le_of_ne hle fun heq => hne ?_
  rw [urgency_inj hnodup hxmem hymem heq]

lemma replaceActions_eq (a : Actor) (first : Action) (rest : List Action) : ∃ name name' known, ∃ merged : Action,
      merged = { id := ⟨a.ids.next.toNat⟩, name := name', input := first.input, output := first.output,
                 scheduler := ⟨a.procs.length⟩, body := ⟨a.procs.length + 1⟩ } ∧
      a.replaceActions first rest = (merged.id, { a with
        procs := a.procs ++ [.alwaysTrue name, .dispatch known name' (first :: rest)], ids := ⟨a.ids.next + 1⟩
        actions := Procedure.insertAt (a.actions.findIdx fun y => (first :: rest).any (·.id = y.id)) merged
          (a.actions.filter fun y => !(first :: rest).any (·.id = y.id)) }) := by
  let known := (a.addProc (Procedure.alwaysTrue (a.freshProcName "isSchedulable_SDF"))).2
  refine ⟨a.freshProcName "isSchedulable_SDF", known.freshProcName "SDF", known, _, rfl, ?_⟩
  simp only [replaceActions, addProc, takeId, ActionSupply.take, List.append_assoc, length_append,
    length_singleton, singleton_append, known]

section Classify

variable {P : Nat → Actor → Prop}
  (hstep : ∀ n b first rest fsm, P n b → P (n + 1) { (Actor.replaceActions b first rest).2 with fsm := fsm })
include hstep

lemma mergeGroup?_induction {n : Nat} {id : ActionId} (h : P n a) (hm : a.mergeGroup? ids = some (id, b))
    (fsm : Option Fsm) : P (n + 1) { b with fsm := fsm } := by
  unfold mergeGroup? at hm
  split at hm
  · cases hm
  · split at hm
    · cases hm
    · rename_i first rest _
      split at hm
      · have hmerged := hstep n a first rest fsm h
        rwa [Option.some.inj hm] at hmerged
      · cases hm

lemma mergeState_induction {n : Nat} (h : P n a) (s : StateId) :
    P (n + (a.mergeState s).1.length) (a.mergeState s).2 := by
  unfold mergeState
  cases a.fsm with
  | none => exact h
  | some fsm =>
    simp only
    split
    · cases hgroup : a.mergeGroup? (a.offered fsm s) with
      | none => exact h
      | some result => exact mergeGroup?_induction hstep h hgroup _
    · exact h

lemma mergeStates_induction {n : Nat} (h : P n a) (states : List StateId) :
    P (n + (a.mergeStates states).1.length) (a.mergeStates states).2 := by
  induction states generalizing a n with
  | nil => exact h
  | cons s rest ih =>
    rw [mergeStates, length_append, ← Nat.add_assoc]
    exact ih (mergeState_induction hstep h s)

/-- What holds after each further merge, whatever becomes of the state machine, holds after
classification. -/
lemma classify_induction (h : P 0 a) : P a.classify.1.length a.classify.2 := by
  unfold classify
  cases a.fsm with
  | some fsm =>
    have hall := mergeStates_induction hstep h fsm.stateIds
    rwa [Nat.zero_add] at hall
  | none =>
    simp only
    cases hgroup : a.mergeGroup? (a.actions.map (·.id)) with
    | none => exact h
    | some result => exact mergeGroup?_induction hstep h hgroup result.2.fsm

end Classify

/-- A group that is merged, and the actor afterwards with its state machine relabelled. -/
lemma mergesTo_of_mergeGroup? (hnodup : (a.actions.map (·.id)).Nodup) (hknown : ∀ id ∈ ids, (a.action? id).isSome)
    (hids : ids.Nodup) (hsorted : ids.Pairwise fun x y => a.urgency x ≤ a.urgency y)
    (h : a.mergeGroup? ids = some (id, b)) : b.fsm = a.fsm ∧ ∃ merged : Action, merged.id = id ∧
      a.MergesTo (ids.filterMap a.action?) merged { b with fsm := a.fsm.map (·.relabel ids id) } := by
  have hmap := map_id_filterMap_action? hknown
  have hinOrder := inOrder_filterMap_action? hnodup hids hsorted
  have hmembers : ∀ x ∈ ids.filterMap a.action?, x ∈ a.actions := by
    intro x hx
    obtain ⟨id, _, hid⟩ := mem_filterMap.mp hx
    exact mem_of_find?_eq_some hid
  unfold mergeGroup? at h
  by_cases hlength : ids.length ≤ 1
  · rw [if_pos hlength] at h
    cases h
  · rw [if_neg hlength] at h
    cases hgroup : ids.filterMap a.action? with
    | nil =>
      rw [hgroup] at h
      cases h
    | cons first rest =>
      rw [hgroup] at hmap hinOrder hmembers
      simp only [hgroup] at h
      split at h
      · rename_i hsame
        obtain ⟨name, name', known, merged, hmerged, hreplace⟩ := a.replaceActions_eq first rest
        rw [hreplace] at h
        cases h
        -- all fields but the two below are those of the replacement
        refine ⟨rfl, merged, rfl,
          ?_, hmembers, hinOrder, ?_, ?_, ?_, ?_, rfl, rfl, rfl, rfl, rfl, ⟨_, _, _, rfl⟩, rfl, ?_⟩
        · have hlen := congrArg List.length hmap
          rw [length_map] at hlen
          omega
        · intro x hx
          rw [hmerged]
          rcases mem_cons.mp hx with rfl | hx
          · exact ⟨rfl, rfl⟩
          · have hsame := all_eq_true.mp hsame x hx
            simp only [Action.samePatterns, Bool.and_eq_true, decide_eq_true_eq] at hsame
            exact ⟨hsame.1.symm, hsame.2.symm⟩
        · rw [hmerged]
        · rw [hmerged]
        · rw [hmerged]
        · rw [hmap]
      · cases h

namespace MergesTo

section

variable (h : a.MergesTo group merged b)
include h

lemma proc?_of_lt {id : ProcId} (hid : id.index < a.procs.length) : b.proc? id = a.proc? id := by
  obtain ⟨name, name', known, hprocs⟩ := h.procs
  rw [proc?, proc?, hprocs, getElem?_append_left hid]

lemma proc?_scheduler : ∃ name, b.proc? merged.scheduler = some (.alwaysTrue name) := by
  obtain ⟨name, name', known, hprocs⟩ := h.procs
  refine ⟨name, ?_⟩
  rw [proc?, hprocs, h.scheduler]
  simp

lemma proc?_body : ∃ known name, b.proc? merged.body = some (.dispatch known name group) := by
  obtain ⟨name, name', known, hprocs⟩ := h.procs
  refine ⟨known, name', ?_⟩
  rw [proc?, hprocs, h.body]
  simp

lemma actions_perm : b.actions.Perm (merged :: a.actions.filter fun y => !group.any (·.id = y.id)) := by
  rw [h.actions, Procedure.insertAt]
  refine perm_middle.trans (List.Perm.cons merged ?_)
  rw [take_append_drop]

lemma mem_actions : y ∈ b.actions ↔ y = merged ∨ y ∈ a.actions ∧ y.id ∉ group.map (·.id) := by
  rw [h.actions_perm.mem_iff, mem_cons, mem_filter]
  simp

lemma proc?_isSome {id : ProcId} (hid : (a.proc? id).isSome) : (b.proc? id).isSome := by
  have hlt : id.index < a.procs.length := by
    by_contra hge
    rw [proc?, getElem?_eq_none (Nat.le_of_not_lt hge)] at hid
    cases hid
  rw [h.proc?_of_lt hlt]
  exact hid

lemma unknownPort?_eq (hinput : x.input = y.input) (houtput : x.output = y.output) :
    b.unknownPort? y = a.unknownPort? x := by
  simp only [unknownPort?, hasInput, hasOutput, h.inputs, h.outputs, hinput, houtput]

lemma exists_mem : ∃ x, x ∈ group := by
  refine exists_mem_of_ne_nil group fun hnil => ?_
  have := h.two_le
  rw [hnil] at this
  cases this

lemma consistent (hc : a.Consistent) (hs : a.Supplied) : b.Consistent where
  ids := by
    rw [(h.actions_perm.map (·.id)).nodup_iff, map_cons, nodup_cons]
    refine ⟨fun hmem => ?_, hc.ids.sublist (filter_sublist.map _)⟩
    -- the new handle is above the others
    obtain ⟨y, hy, hid⟩ := mem_map.mp hmem
    have hlt := hs.above y (mem_of_mem_filter hy)
    rw [hid, h.id] at hlt
    exact Nat.lt_irrefl _ hlt
  procs := by
    intro y hy
    rcases h.mem_actions.mp hy with rfl | ⟨hy, _⟩
    · obtain ⟨_, hscheduler⟩ := h.proc?_scheduler
      obtain ⟨_, _, hbody⟩ := h.proc?_body
      rw [hscheduler, hbody]
      exact ⟨rfl, rfl⟩
    · exact ⟨h.proc?_isSome (hc.procs y hy).1, h.proc?_isSome (hc.procs y hy).2⟩
  ports := by
    intro y hy
    rcases h.mem_actions.mp hy with rfl | ⟨hy, _⟩
    · obtain ⟨x, hx⟩ := h.exists_mem
      rw [h.unknownPort?_eq (h.patterns x hx).1 (h.patterns x hx).2]
      exact hc.ports x (h.members x hx)
    · rw [h.unknownPort?_eq rfl rfl]
      exact hc.ports y hy
  fsm := by
    intro m hm t ht
    rw [h.fsm] at hm
    obtain ⟨fsm, hfsm, rfl⟩ := map_eq_some_iff.mp hm
    rw [action?_isSome]
    rcases Fsm.mem_relabel.mp ht with ⟨ht, hid⟩ | ⟨hid, _⟩
    · obtain ⟨y, hy, hyid⟩ := action?_isSome.mp (hc.fsm fsm hfsm t ht)
      exact ⟨y, h.mem_actions.mpr (.inr ⟨hy, hyid ▸ hid⟩), hyid⟩
    · exact ⟨merged, h.mem_actions.mpr (.inl rfl), hid.symm⟩

/-- A merge leaves fewer actions: two or more give way to one. -/
lemma length_actions : b.actions.length < a.actions.length := by
  let replaced : Action → Bool := fun y => group.any (·.id = y.id)
  have hnodup : group.Nodup := by
    refine Pairwise.imp ?_ h.inOrder
    rintro x _ hlt rfl
    exact Nat.lt_irrefl _ hlt
  have hsubset : group ⊆ a.actions.filter replaced := fun x hx =>
    mem_filter.mpr ⟨h.members x hx, any_eq_true.mpr ⟨x, hx, decide_eq_true rfl⟩⟩
  have hgroup := (subperm_of_subset hnodup hsubset).length_le
  have hactions := length_eq_length_filter_add (l := a.actions) replaced
  have hlength := h.actions_perm.length_eq
  have htwo := h.two_le
  rw [length_cons] at hlength
  simp only [replaced] at hgroup hactions
  omega

/-- The next handle goes up by one: the supply does not start again. -/
lemma toNat_next (hs : a.Supplied) : b.ids.next.toNat = a.ids.next.toNat + 1 := by
  have hroom := hs.room
  have hlength := h.length_actions
  have hpos : 0 < b.actions.length := length_pos_of_mem (h.mem_actions.mpr (.inl rfl))
  rw [h.ids, UInt32.toNat_add, UInt32.toNat_one]
  omega

lemma supplied (hs : a.Supplied) : b.Supplied where
  above := by
    intro y hy
    rw [h.toNat_next hs]
    rcases h.mem_actions.mp hy with rfl | ⟨hy, _⟩
    · rw [h.id]
      exact Nat.lt_succ_self _
    · exact Nat.lt_succ_of_lt (hs.above y hy)
  room := by
    have hroom := hs.room
    have hlength := h.length_actions
    rw [h.toNat_next hs]
    omega

end

end MergesTo

/-! ## Merge after merge -/

/-- Merges one after the other, with their records. -/
inductive Merged : Actor → List Merge → Actor → Prop
  | refl (a : Actor) : Merged a [] a
  | step {a b c : Actor} {group : List Action} {merged : Action} {merge : Merge} {merges : List Merge} :
    a.MergesTo group merged b → merge.merged = merged.id → merge.sources = group.map (·.name) → Merged b merges c →
    Merged a (merge :: merges) c

namespace Merged

variable {merges merges' : List Merge}

lemma trans (h : Merged a merges b) (h' : Merged b merges' c) : Merged a (merges ++ merges') c := by
  induction h with
  | refl => exact h'
  | step hmerge hid hsources _ ih => exact .step hmerge hid hsources (ih h')

lemma consistent (h : Merged a merges b) (hc : a.Consistent) (hs : a.Supplied) : b.Consistent ∧ b.Supplied := by
  induction h with
  | refl => exact ⟨hc, hs⟩
  | step hmerge _ _ _ ih => exact ih (hmerge.consistent hc hs) (hmerge.supplied hs)

/-- The merge of a record, with what came before it and what comes after it. -/
lemma split {merge : Merge} (h : Merged a (merges ++ merge :: merges') c) :
    ∃ stage group merged next, Merged a merges stage ∧ stage.MergesTo group merged next ∧
      merge.merged = merged.id ∧ merge.sources = group.map (·.name) ∧ Merged next merges' c := by
  induction merges generalizing a with
  | nil =>
    cases h with
    | step hmerge hid hsources hrest => exact ⟨a, _, _, _, .refl a, hmerge, hid, hsources, hrest⟩
  | cons first rest ih =>
    cases h with
    | step hmerge hid hsources hrest =>
      obtain ⟨stage, group, merged, next, hbefore, hstep, hid', hsources', hafter⟩ := ih hrest
      exact ⟨stage, group, merged, next, .step hmerge hid hsources hbefore, hstep, hid', hsources', hafter⟩

end Merged

/-- A state is left alone, or its actions are merged. -/
lemma mergeState_cases (hc : a.Consistent) (s : StateId) : a.mergeState s = ([], a) ∨
    ∃ merge merged b, a.mergeState s = ([merge], b) ∧ merge.merged = merged.id ∧ merge.sources =
      (a.urgentActions s).map (·.name) ∧ a.MergesTo (a.urgentActions s) merged b := by
  unfold mergeState urgentActions
  cases hfsm : a.fsm with
  | none => exact .inl rfl
  | some fsm =>
    simp only
    split
    · have hknown : ∀ id ∈ a.offered fsm s, (a.action? id).isSome := by
        intro id hid
        obtain ⟨t, ht, _, rfl⟩ := mem_offered.mp hid
        exact hc.fsm fsm hfsm t ht
      cases hgroup : a.mergeGroup? (a.offered fsm s) with
      | none => exact .inl rfl
      | some result =>
        obtain ⟨id, b⟩ := result
        obtain ⟨_, merged, hid, hmerge⟩ :=
          mergesTo_of_mergeGroup? hc.ids hknown (nodup_offered fsm s) (offered_sorted fsm s) hgroup
        rw [hfsm] at hmerge
        exact .inr ⟨_, merged, _, rfl, hid.symm, actionNames_eq hknown, hmerge⟩
    · exact .inl rfl

/-- Without a state machine, an actor is left alone, or all its actions are merged. -/
lemma classify_cases (hc : a.Consistent) (hfsm : a.fsm = none) :
    a.classify = ([], a) ∨ ∃ merge merged b, a.classify = ([merge], b) ∧ merge.merged = merged.id ∧
      merge.sources = a.actions.map (·.name) ∧ a.MergesTo a.actions merged b := by
  have hknown : ∀ id ∈ a.actions.map (·.id), (a.action? id).isSome := by
    intro id hid
    obtain ⟨x, hx, hxid⟩ := mem_map.mp hid
    exact action?_isSome.mpr ⟨x, hx, hxid⟩
  have hactions : (a.actions.map (·.id)).filterMap a.action? = a.actions := by
    rw [filterMap_map]
    refine (filterMap_congr fun x hx => ?_).trans filterMap_some
    exact (action?_eq_some hc.ids).mpr ⟨hx, rfl⟩
  have hsorted : (a.actions.map (·.id)).Pairwise fun x y => a.urgency x ≤ a.urgency y :=
    pairwise_map.mpr ((inOrder_actions hc.ids).imp Nat.le_of_lt)
  unfold classify
  simp only [hfsm]
  cases hgroup : a.mergeGroup? (a.actions.map (·.id)) with
  | none => exact .inl rfl
  | some result =>
    obtain ⟨id, b⟩ := result
    obtain ⟨hb, merged, hid, hmerge⟩ := mergesTo_of_mergeGroup? hc.ids hknown hc.ids hsorted hgroup
    -- there is no state machine to relabel
    have hsame : { b with fsm := a.fsm.map (·.relabel (a.actions.map (·.id)) id) } = b := by
      rw [hfsm, map_none, ← hfsm, ← hb]
    have hnames := actionNames_eq hknown
    rw [hactions] at hmerge hnames
    rw [hsame] at hmerge
    exact .inr ⟨_, merged, b, rfl, hid.symm, hnames, hmerge⟩

lemma merged_mergeState (hc : a.Consistent) (s : StateId) : Merged a (a.mergeState s).1 (a.mergeState s).2 := by
  rcases mergeState_cases hc s with h | ⟨merge, merged, b, h, hid, hsources, hmerge⟩
  · rw [h]
    exact .refl a
  · rw [h]
    exact .step hmerge hid hsources (.refl b)

lemma merged_mergeStates (hc : a.Consistent) (hs : a.Supplied) (states : List StateId) :
    Merged a (a.mergeStates states).1 (a.mergeStates states).2 := by
  induction states generalizing a with
  | nil => exact .refl a
  | cons s rest ih =>
    have hfirst := merged_mergeState hc s
    obtain ⟨hc', hs'⟩ := hfirst.consistent hc hs
    exact hfirst.trans (ih hc' hs')

lemma merged_classify (hc : a.Consistent) (hs : a.Supplied) : Merged a a.classify.1 a.classify.2 := by
  cases hfsm : a.fsm with
  | some fsm =>
    rw [classify, hfsm]
    exact merged_mergeStates hc hs fsm.stateIds
  | none =>
    rcases classify_cases hc hfsm with h | ⟨merge, merged, b, h, hid, hsources, hmerge⟩
    · rw [h]
      exact .refl a
    · rw [h]
      exact .step hmerge hid hsources (.refl b)

end Actor

end ActorNet
