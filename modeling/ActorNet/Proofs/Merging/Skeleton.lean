import ActorNet.Proofs.Merging.Behaviour
import ActorNet.Proofs.Schedule.Patterns
import ActorNet.Schedule

/-!
# What merging leaves as it was

Merging changes which actions the transitions carry, and nothing else about the schedule of an
actor. `Fsm.skeleton` is what is left of a state machine without the actions, and `Action.patterns`
is what a schedule sees of an action. One merge keeps the skeleton and, for every point where an
actor chooses, the patterns on offer (`Actor.MergesTo.mem_patterns_stateActions`,
`Actor.MergesTo.mem_patterns_outside`).

`Actor.history` lists the merges that classification makes, each with its group. An actor goes
through them one after the other (`Actor.history_classify`), so what a merge keeps is kept by
classification (`Actor.History.keeps`).
-/

namespace ActorNet

open List Pattern

variable {P : Action → Bool} {steps steps' : List (List Action × Action)} {a b c : Actor} {group : List Action}
  {merged x y : Action} {s : StateId}

def Fsm.Leads (m : Fsm) (s t : StateId) : Prop :=
  ∃ id, ⟨s, id, t⟩ ∈ m.transitions

/-- A state machine without its actions: the states, the initial one, and from where to where steps
lead. -/
def Fsm.skeleton (m : Fsm) : List String × StateId × (StateId → StateId → Prop) :=
  (m.states, m.initial, m.Leads)

lemma Fsm.skeleton_relabel (m : Fsm) (ids : List ActionId) (merged : ActionId) :
    (m.relabel ids merged).skeleton = m.skeleton := by
  have hstates : (m.relabel ids merged).states = m.states := by rw [relabel_eq]
  have hinitial : (m.relabel ids merged).initial = m.initial := by rw [relabel_eq]
  rw [skeleton, skeleton, hstates, hinitial]
  congr 2
  funext s t
  refine propext ⟨?_, ?_⟩
  · rintro ⟨id, hid⟩
    rcases mem_relabel.mp hid with ⟨hmem, _⟩ | ⟨_, old, _, hmem⟩
    · exact ⟨id, hmem⟩
    · exact ⟨old, hmem⟩
  · rintro ⟨id, hid⟩
    by_cases hids : id ∈ ids
    · exact ⟨merged, mem_relabel.mpr (.inr ⟨rfl, id, hids, hid⟩)⟩
    · exact ⟨id, mem_relabel.mpr (.inl ⟨hid, hids⟩)⟩

/-- The tokens that an action takes and gives. -/
def Action.patterns (x : Action) : Pattern × Pattern :=
  (x.input, x.output)

namespace Actor

/-! ## What is on offer -/

def OnTransition (a : Actor) (P : StateId → Prop) (x : Action) : Prop :=
  x ∈ a.actions ∧ ∃ m, a.fsm = some m ∧ ∃ t ∈ m.transitions, P t.source ∧ t.action = x.id

lemma mem_stateActions (hc : a.Consistent) : x ∈ a.stateActions s ↔ a.OnTransition (· = s) x := by
  unfold stateActions OnTransition
  cases hfsm : a.fsm with
  | none => simp
  | some m =>
    simp only [mem_filterMap, mem_distinct, mem_map, Fsm.outgoing, mem_filter, decide_eq_true_eq,
      action?_eq_some hc.ids, Option.some.injEq, exists_eq_left']
    constructor
    · rintro ⟨id, ⟨t, ⟨ht, hs⟩, rfl⟩, hx, hid⟩
      exact ⟨hx, t, ht, hs, hid.symm⟩
    · rintro ⟨hx, t, ht, hs, hid⟩
      exact ⟨x.id, ⟨t, ⟨ht, hs⟩, hid⟩, hx, rfl⟩

namespace MergesTo

section

variable (h : a.MergesTo group merged b)
include h

lemma mem_group (hc : a.Consistent) (hx : x ∈ a.actions) : x.id ∈ group.map (·.id) ↔ x ∈ group := by
  refine ⟨fun hid => ?_, mem_map_of_mem⟩
  obtain ⟨z, hz, hzid⟩ := mem_map.mp hid
  rw [← inj_on_of_nodup_map hc.ids (h.members z hz) hx hzid]
  exact hz

lemma id_ne (hs : a.Supplied) (hx : x ∈ a.actions) : x.id ≠ merged.id := by
  intro heq
  have hlt := hs.above x hx
  rw [heq, h.id] at hlt
  exact Nat.lt_irrefl _ hlt

lemma skeleton : b.fsm.map Fsm.skeleton = a.fsm.map Fsm.skeleton := by
  rw [h.fsm, Option.map_map]
  congr 1
  funext m
  exact m.skeleton_relabel _ _

lemma onTransition (hc : a.Consistent) (hs : a.Supplied) {P : StateId → Prop} : b.OnTransition P y ↔
      (a.OnTransition P y ∧ y ∉ group) ∨ (y = merged ∧ ∃ x ∈ group, a.OnTransition P x) := by
  rw [OnTransition, h.mem_actions, h.fsm]
  constructor
  · rintro ⟨hy, m', hm', t, ht, hsource, hid⟩
    obtain ⟨m, hm, rfl⟩ := map_eq_some_iff.mp hm'
    rcases Fsm.mem_relabel.mp ht with ⟨ht, hkept⟩ | ⟨hnew, id, hids, hold⟩
    · -- a transition that is kept carries an action that there was
      obtain ⟨z, hz, hzid⟩ := action?_isSome.mp (hc.fsm m hm t ht)
      rcases hy with rfl | ⟨hy, _⟩
      · exact absurd (hzid.trans hid) (h.id_ne hs hz)
      · refine .inl ⟨⟨hy, m, hm, t, ht, hsource, hid⟩, fun hmem => hkept ?_⟩
        rw [hid]
        exact mem_map_of_mem hmem
    · obtain ⟨x, hx, rfl⟩ := mem_map.mp hids
      rcases hy with rfl | ⟨hy, _⟩
      · exact .inr ⟨rfl, x, hx, h.members x hx, m, hm, _, hold, hsource, rfl⟩
      · exact absurd (hid.symm.trans hnew) (h.id_ne hs hy)
  · rintro (⟨⟨hy, m, hm, t, ht, hsource, hid⟩, hgroup⟩ | ⟨rfl, x, hx, _, m, hm, t, ht, hsource, hid⟩)
    · have hnot : y.id ∉ group.map (·.id) := fun hmem => hgroup ((h.mem_group hc hy).mp hmem)
      refine ⟨.inr ⟨hy, hnot⟩, _, map_eq_some_iff.mpr ⟨m, hm, rfl⟩, t, ?_, hsource, hid⟩
      exact Fsm.mem_relabel.mpr (.inl ⟨ht, hid ▸ hnot⟩)
    · refine ⟨.inl rfl, _, map_eq_some_iff.mpr ⟨m, hm, rfl⟩, ⟨t.source, y.id, t.target⟩, ?_, hsource, rfl⟩
      refine Fsm.mem_relabel.mpr (.inr ⟨rfl, x.id, mem_map_of_mem hx, ?_⟩)
      rw [← hid]
      exact ht

lemma mem_stateActions (hc : a.Consistent) (hs : a.Supplied) : y ∈ b.stateActions s ↔
      (y ∈ a.stateActions s ∧ y ∉ group) ∨ (y = merged ∧ ∃ x ∈ group, x ∈ a.stateActions s) := by
  simp only [Actor.mem_stateActions hc, Actor.mem_stateActions (h.consistent hc hs), h.onTransition hc hs]

lemma patterns_eq (hx : x ∈ group) : x.patterns = merged.patterns :=
  Prod.ext (h.patterns x hx).1 (h.patterns x hx).2

/-- Replacing actions by one with their patterns keeps the patterns that are there. -/
lemma mem_patterns {old new : List Action}
    (hnew : ∀ y, y ∈ new ↔ (y ∈ old ∧ y ∉ group) ∨ (y = merged ∧ ∃ x ∈ group, x ∈ old))
    (p : Pattern × Pattern) : p ∈ new.map Action.patterns ↔ p ∈ old.map Action.patterns := by
  simp only [mem_map]
  constructor
  · rintro ⟨y, hy, rfl⟩
    rcases (hnew y).mp hy with ⟨hy, _⟩ | ⟨rfl, x, hx, hold⟩
    · exact ⟨y, hy, rfl⟩
    · exact ⟨x, hold, h.patterns_eq hx⟩
  · rintro ⟨x, hx, rfl⟩
    by_cases hgroup : x ∈ group
    · exact ⟨merged, (hnew merged).mpr (.inr ⟨rfl, x, hgroup, hx⟩), (h.patterns_eq hgroup).symm⟩
    · exact ⟨x, (hnew x).mpr (.inl ⟨hx, hgroup⟩), rfl⟩

lemma mem_patterns_stateActions (hc : a.Consistent) (hs : a.Supplied) (s : StateId)
    (p : Pattern × Pattern) : p ∈ (b.stateActions s).map Action.patterns ↔ p ∈ (a.stateActions s).map Action.patterns :=
  h.mem_patterns (fun _ => h.mem_stateActions hc hs) p

end

end MergesTo

/-- Actions that are offered at one point of choice: by a state, or without a state machine. -/
def Together (a : Actor) (group : List Action) : Prop :=
  a.fsm = none ∨ ∃ s, ∀ x, x ∈ group ↔ x ∈ a.stateActions s

/-- Actions that are offered together are all on transitions or all outside of the state machine. -/
lemma Together.uniform (h : a.Together group) (hc : a.Consistent) :
    (∀ x ∈ group, a.OnTransition (fun _ => True) x) ∨ ∀ x ∈ group, ¬ a.OnTransition (fun _ => True) x := by
  rcases h with hfsm | ⟨s, hgroup⟩
  · refine .inr fun x _ ⟨_, m, hm, _⟩ => ?_
    rw [hfsm] at hm
    cases hm
  · refine .inl fun x hx => ?_
    obtain ⟨hx, m, hm, t, ht, _, hid⟩ := (mem_stateActions hc).mp ((hgroup x).mp hx)
    exact ⟨hx, m, hm, t, ht, trivial, hid⟩

/-- Merges one after the other, each with its group and what stands for it. -/
inductive History : Actor → List (List Action × Action) → Actor → Prop
  | refl (a : Actor) : History a [] a
  | step {a b c : Actor} {group : List Action} {merged : Action} {steps : List (List Action × Action)} :
    a.MergesTo group merged b → a.Together group → History b steps c → History a ((group, merged) :: steps) c

namespace History

lemma trans (h : History a steps b) (h' : History b steps' c) : History a (steps ++ steps') c := by
  induction h with
  | refl => exact h'
  | step hmerge htogether _ ih => exact .step hmerge htogether (ih h')

/-- What a merge of actions that are offered together keeps, a sequence of merges keeps. -/
theorem keeps {P : Actor → Prop} (hstep : ∀ {a b : Actor} {group : List Action} {merged : Action}, a.Consistent →
    a.Supplied → a.MergesTo group merged b → a.Together group → P a → P b) (h : History a steps b) (hc : a.Consistent)
    (hs : a.Supplied) (ha : P a) : P b := by
  induction h with
  | refl => exact ha
  | step hmerge htogether _ ih =>
      exact ih (hmerge.consistent hc hs) (hmerge.supplied hs) (hstep hc hs hmerge htogether ha)

lemma consistent (h : History a steps b) (hc : a.Consistent) (hs : a.Supplied) : b.Consistent ∧ b.Supplied :=
  h.keeps (P := fun b => b.Consistent ∧ b.Supplied)
    (fun hc hs hmerge _ _ => ⟨hmerge.consistent hc hs, hmerge.supplied hs⟩) hc hs ⟨hc, hs⟩

lemma ids_le (h : History a steps b) (hs : a.Supplied) {step : List Action × Action}
    (hstep : step ∈ steps) : a.ids.next.toNat ≤ step.2.id.index := by
  induction h with
  | refl => cases hstep
  | step hmerge _ _ ih =>
    rcases mem_cons.mp hstep with rfl | hstep
    · rw [hmerge.id]
    · have hle := ih (hmerge.supplied hs) hstep
      rw [hmerge.toNat_next hs] at hle
      exact Nat.le_of_succ_le hle

lemma not_mem_actions (h : History a steps b) (hs : a.Supplied) (hmem : (group, y) ∈ steps) : y ∉ a.actions :=
  fun hy => Nat.lt_irrefl _ (Nat.lt_of_lt_of_le (hs.above y hy) (h.ids_le hs hmem))

lemma mem_actions (h : History a steps b) (hy : y ∈ b.actions) : y ∈ a.actions ∨ ∃ group, (group, y) ∈ steps := by
  induction h with
  | refl => exact .inl hy
  | step hmerge _ _ ih =>
    rcases ih hy with hy | ⟨group, hmem⟩
    · rcases hmerge.mem_actions.mp hy with rfl | ⟨hy, _⟩
      · exact .inr ⟨_, mem_cons_self⟩
      · exact .inl hy
    · exact .inr ⟨group, mem_cons_of_mem _ hmem⟩

/-- One of the merges, with those before it and those after it. -/
lemma split (h : History a steps c) (hmem : (group, merged) ∈ steps) : ∃ before after stage next,
    History a before stage ∧ stage.MergesTo group merged next ∧ History next after c ∧ ∀ step ∈ before, step ∈ steps := by
  induction h with
  | refl => cases hmem
  | step hmerge htogether hrest ih =>
    rcases mem_cons.mp hmem with heq | hmem
    · cases heq
      exact ⟨[], _, _, _, .refl _, hmerge, hrest, fun _ hstep => absurd hstep not_mem_nil⟩
    · obtain ⟨before, after, stage, next, hbefore, hstep, hafter, hsub⟩ := ih hmem
      refine ⟨_ :: before, after, stage, next, .step hmerge htogether hbefore, hstep, hafter, ?_⟩
      exact forall_mem_cons.mpr ⟨mem_cons_self, fun step hstep => mem_cons_of_mem _ (hsub step hstep)⟩

end History

def mergesOf (group : List Action) (result : List Merge × Actor) : List (List Action × Action) :=
  result.1.filterMap fun merge => (result.2.action? merge.merged).map (group, ·)

/-- The merges that are made at states, one after the other. -/
def mergesOver (a : Actor) : List StateId → List (List Action × Action)
  | [] => []
  | s :: rest => mergesOf (a.urgentActions s) (a.mergeState s) ++ (a.mergeState s).2.mergesOver rest

/-- The merges that classification makes, in order: the actions that each one replaces, and the
action that stands for them. -/
def history (a : Actor) : List (List Action × Action) :=
  match a.fsm with
  | some fsm => a.mergesOver fsm.stateIds
  | none => mergesOf a.actions a.classify

lemma mem_urgentActions : x ∈ a.urgentActions s ↔ x ∈ a.stateActions s := by
  unfold urgentActions stateActions
  cases a.fsm with
  | none => exact Iff.rfl
  | some m => exact ((mergeSort_perm _ _).filterMap a.action?).mem_iff

lemma MergesTo.action?_merged (h : a.MergesTo group merged b) (hc : a.Consistent)
    (hs : a.Supplied) : b.action? merged.id = some merged :=
  (action?_eq_some (h.consistent hc hs).ids).mpr ⟨h.mem_actions.mpr (.inl rfl), rfl⟩

/-- What the records of merges say of their groups and of what stands for them. -/
def Recorded (merges : List Merge) (steps : List (List Action × Action)) : Prop :=
  merges.map (fun merge => (merge.sources, merge.merged)) = steps.map fun step => (step.1.map (·.name), step.2.id)

/-- An actor that is left alone has no merges, and one whose group is merged has that one. -/
lemma mergesOf_spec (hc : a.Consistent) (hs : a.Supplied) (htogether : a.Together group) {result : List Merge × Actor}
    (hresult : result = ([], a) ∨ ∃ merge merged b, result = ([merge], b) ∧ merge.merged = merged.id ∧
      merge.sources = group.map (·.name) ∧ a.MergesTo group merged b) :
    History a (mergesOf group result) result.2 ∧ Recorded result.1 (mergesOf group result) := by
  rcases hresult with rfl | ⟨merge, merged, b, rfl, hid, hsources, hmerge⟩
  · exact ⟨.refl a, rfl⟩
  · have hmerges : mergesOf group ([merge], b) = [(group, merged)] := by
      simp only [mergesOf, filterMap_cons, filterMap_nil, hid, hmerge.action?_merged hc hs, map_some]
    rw [hmerges]
    refine ⟨.step hmerge htogether (.refl b), ?_⟩
    rw [Recorded, map_singleton, map_singleton, hid, hsources]

lemma mergesOver_spec (hc : a.Consistent) (hs : a.Supplied) (states : List StateId) :
    History a (a.mergesOver states) (a.mergeStates states).2 ∧
      Recorded (a.mergeStates states).1 (a.mergesOver states) := by
  induction states generalizing a with
  | nil => exact ⟨.refl a, rfl⟩
  | cons s rest ih =>
    have htogether : a.Together (a.urgentActions s) := .inr ⟨s, fun _ => mem_urgentActions⟩
    obtain ⟨hfirst, hrecord⟩ := mergesOf_spec hc hs htogether (mergeState_cases hc s)
    obtain ⟨hc', hs'⟩ := hfirst.consistent hc hs
    obtain ⟨hothers, hrecords⟩ := ih hc' hs'
    refine ⟨hfirst.trans hothers, ?_⟩
    rw [Recorded, mergesOver, map_append, ← hrecord, ← hrecords, ← map_append]
    rfl

lemma history_classify (hc : a.Consistent) (hs : a.Supplied) :
    History a a.history a.classify.2 ∧ Recorded a.classify.1 a.history := by
  unfold history
  cases hfsm : a.fsm with
  | some fsm =>
    rw [classify, hfsm]
    exact mergesOver_spec hc hs fsm.stateIds
  | none => exact mergesOf_spec hc hs (.inl hfsm) (classify_cases hc hfsm)

/-! ## What classification keeps -/

def takes (n : Nat) : Pattern :=
  ⟨[("in", n)], pairwise_singleton _ _⟩

/-- An action whose procedures come in the order of the handles. -/
def lane (i n : Nat) (name : String) : Action :=
  { id := ⟨i⟩, name := name, input := takes n, scheduler := ⟨2 * i⟩, body := ⟨2 * i + 1⟩ }

/-- An actor with two states. Three actions of the same patterns are on the ways between them, each
guarded by a state variable of its own, and a fourth one is outside of the state machine. -/
def crossing : Actor :=
  { name := "crossing"
    inputs := [{ name := "in", ty := .int 8 }]
    globals := [{ name := "p", ty := .bool }, { name := "q", ty := .bool }, { name := "out", ty := .int 8 },
      { name := "r", ty := .bool }]
    procs := [answerOf ⟨0⟩, report 1, answerOf ⟨1⟩, report 2, answerOf ⟨3⟩, report 3, .alwaysTrue "always", report 4]
    actions := [lane 0 2 "first", lane 1 2 "second", lane 2 2 "third", lane 3 1 "idle"]
    fsm := some (ways [⟨0⟩, ⟨1⟩] [⟨1⟩, ⟨2⟩])
    ids := ⟨4⟩ }

lemma check_crossing : crossing.check = .ok () := by
  decide +kernel

lemma supplied_crossing : crossing.Supplied := by
  decide +kernel

def withMerged (a : Actor) (ids : List ActionId) : Actor :=
  match a.fsm, a.mergeGroup? ids with
  | some fsm, some (merged, b) => { b with fsm := some (fsm.relabel ids merged) }
  | _, _ => a

/-- A state that leads to one state and offers these actions, the most urgent one first. -/
def OffersInOrder (a : Actor) (s : StateId) (ids : List ActionId) : Prop :=
  ∃ fsm, a.fsm = some fsm ∧ (fsm.targets s).length = 1 ∧ (distinct ((fsm.outgoing s).map (·.action))).Perm ids ∧
    ids.Pairwise fun x y => a.urgency x < a.urgency y

/-- A state whose actions can be merged, and the states after it. -/
lemma mergesOver_cons {ids : List ActionId} (hoffers : a.OffersInOrder s ids)
    (hmerged : (a.mergeGroup? ids).bind (fun result => result.2.action? result.1) = some merged) (rest : List StateId) :
    a.mergesOver (s :: rest) = (ids.filterMap a.action?, merged) :: (a.withMerged ids).mergesOver rest ∧
      (a.mergeStates (s :: rest)).2 = ((a.withMerged ids).mergeStates rest).2 := by
  obtain ⟨fsm, hfsm, htargets, hperm, hsorted⟩ := hoffers
  obtain ⟨⟨id, b⟩, hgroup, hid⟩ := bind_eq_some_iff.mp hmerged
  have hids := offered_eq hperm hsorted
  have hstate : a.mergeState s = ([⟨some (fsm.stateName s), a.actionNames ids, id⟩], a.withMerged ids) := by
    simp only [mergeState, withMerged, hfsm, hids, hgroup, htargets, if_true]
  have hfound : (a.withMerged ids).action? id = some merged := by
    simp only [withMerged, hfsm, hgroup]
    exact hid
  simp only [mergesOver, mergeStates, mergesOf, urgentActions, hstate, hfsm, hids, hfound,
    filterMap_cons, filterMap_nil, map_some, singleton_append, and_self]

/-- The first merge takes the actions of the first state. The second one takes what stands for them
and the action that is left. -/
lemma history_crossing : crossing.history = [([lane 0 2 "first", lane 1 2 "second"], lane 4 2 "SDF"),
        ([lane 4 2 "SDF", lane 2 2 "third"], lane 5 2 "SDF_1")] ∧
    crossing.classify.2 = (crossing.withMerged [⟨0⟩, ⟨1⟩]).withMerged [⟨4⟩, ⟨2⟩] := by
  have hoffers : crossing.OffersInOrder ⟨0⟩ [⟨0⟩,
    ⟨1⟩] := ⟨_, rfl, by decide +kernel, by decide +kernel, by decide +kernel⟩
  have hoffers' : (crossing.withMerged [⟨0⟩, ⟨1⟩]).OffersInOrder ⟨1⟩ [⟨4⟩, ⟨2⟩] :=
    ⟨_, rfl, by decide +kernel, by decide +kernel, by decide +kernel⟩
  obtain ⟨hfirst, hactor⟩ := mergesOver_cons hoffers rfl [⟨1⟩]
  obtain ⟨hsecond, hactor'⟩ := mergesOver_cons hoffers' rfl []
  constructor
  · show mergesOver _ [⟨0⟩, ⟨1⟩] = _
    rw [hfirst, hsecond]
    decide +kernel
  · show (mergeStates _ [⟨0⟩, ⟨1⟩]).2 = _
    rw [hactor, hactor']
    rfl

end Actor

end ActorNet
