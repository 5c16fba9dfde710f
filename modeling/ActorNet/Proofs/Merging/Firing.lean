import ActorNet.Proofs.Merging.Settled
import Mathlib.Logic.Relation

/-!
# What can still fire after merging

A merged action may always fire, so its scheduler no longer says whether anything will happen. Its
body fires the first action of its group that may fire; if that one is merged as well, and no guard
behind it is true, nothing happens, and the rest of the group is not asked.

`Actor.Wakes` says that behind an action there is one with a true guard. If in every group with an
action that wakes the first one that may fire wakes (`Actor.Unblocked`), then the body of an action
that wakes enters the body of an action with a true guard (`Actor.enters_of_wakes`), and no state
that could fire is stuck after classification.
-/

namespace ActorNet

open List

variable {before : List Action} {v : Option Value} {id target : ProcId} {name : String}

namespace Actor

variable {a b c : Actor} {group : List Action} {merged x y z : Action} {steps : List (List Action × Action)}
  {g : List (Option Value)} {guard : Action → Bool}

/-! ## What stands behind an action -/

/-- An action stands behind another one: it is that one, or it stands behind one of the actions that
were merged to it. -/
def Behind (steps : List (List Action × Action)) : Action → Action → Prop :=
  Relation.ReflTransGen fun z y => ∃ group, (group, y) ∈ steps ∧ z ∈ group

/-- Behind an action there is one with a true guard. -/
def Wakes (a : Actor) (guard : Action → Bool) (y : Action) : Prop :=
  ∃ x ∈ a.actions, Behind a.history x y ∧ guard x = true

/-- Whether an action may fire after classification: always if it is merged, and by its guard if it
is not. -/
def mayFire (a : Actor) (guard : Action → Bool) (y : Action) : Bool :=
  decide (y ∉ a.actions) || guard y

/-- In every group with an action that wakes, the first action that may fire wakes. -/
def Unblocked (a : Actor) (guard : Action → Bool) : Prop :=
  ∀ group merged, (group, merged) ∈ a.history → (∃ w ∈ group, a.Wakes guard w) → ∀ z,
    group.find? (a.mayFire guard) = some z → a.Wakes guard z

/-- An action of a group was there from the start or comes from a merge, and its handle is
smaller. -/
lemma History.mem_group (h : History a steps c) (hc : a.Consistent) (hs : a.Supplied) (hmem : (group, merged) ∈ steps)
    (hz : z ∈ group) : (z ∈ a.actions ∨ ∃ group, (group, z) ∈ steps) ∧ z.id.index < merged.id.index := by
  obtain ⟨before, after, stage, next, hbefore, hmerge, _, hsub⟩ := h.split hmem
  have hz := hmerge.members z hz
  refine ⟨?_, ?_⟩
  · rcases hbefore.mem_actions hz with hold | ⟨group, hmem⟩
    · exact .inl hold
    · exact .inr ⟨group, hsub _ hmem⟩
  · rw [hmerge.id]
    exact (hbefore.consistent hc hs).2.above z hz

lemma Wakes.guard_eq_true (h : a.Wakes guard y) (hc : a.Consistent) (hs : a.Supplied)
    (hy : y ∈ a.actions) : guard y = true := by
  obtain ⟨x, _, hbehind, hguard⟩ := h
  rcases Relation.ReflTransGen.cases_tail hbehind with rfl | ⟨z, _, group, hmem, _⟩
  · exact hguard
  · exact absurd hy ((history_classify hc hs).1.not_mem_actions hs hmem)

lemma Wakes.mayFire (h : a.Wakes guard y) (hc : a.Consistent) (hs : a.Supplied) : a.mayFire guard y = true := by
  by_cases hy : y ∈ a.actions
  · rw [Actor.mayFire, h.guard_eq_true hc hs hy, Bool.or_true]
  · rw [Actor.mayFire, decide_eq_true hy, Bool.true_or]

lemma wakes_of_mayFire (hx : x ∈ a.actions) (h : a.mayFire guard x = true) : a.Wakes guard x := by
  rw [mayFire, decide_eq_false (not_not.mpr hx), Bool.false_or] at h
  exact ⟨x, hx, .refl, h⟩

lemma Wakes.exists_mem (h : a.Wakes guard y) (hy : y ∉ a.actions) :
    ∃ group, (group, y) ∈ a.history ∧ ∃ z ∈ group, a.Wakes guard z := by
  obtain ⟨x, hx, hbehind, hguard⟩ := h
  rcases Relation.ReflTransGen.cases_tail hbehind with rfl | ⟨z, hz, group, hmem, hgroup⟩
  · exact absurd hx hy
  · exact ⟨group, hmem, z, hgroup, x, hx, hz, hguard⟩

/-- A transition is still there after merges, with an action behind which there is the one that it
carried. -/
lemma History.transition (h : History a steps c) (hc : a.Consistent) (hs : a.Supplied) {m : Fsm}
    (hm : a.fsm = some m) {s t : StateId} (hx : x ∈ a.actions) (ht : ⟨s, x.id, t⟩ ∈ m.transitions) :
    ∃ y ∈ c.actions, Behind steps x y ∧ ∃ m', c.fsm = some m' ∧ ⟨s, y.id, t⟩ ∈ m'.transitions := by
  induction h generalizing x m with
  | refl => exact ⟨x, hx, .refl, m, hm, ht⟩
  | @step a b c group merged steps hmerge _ _ ih =>
    have hfsm : b.fsm = some (m.relabel (group.map (·.id)) merged.id) := by rw [hmerge.fsm, hm, map_some]
    have hmono : ∀ {x y}, Behind steps x y → Behind ((group, merged) :: steps) x y := fun hbehind =>
      Relation.ReflTransGen.mono (fun _ _ ⟨group, hmem, hz⟩ => ⟨group, mem_cons_of_mem _ hmem, hz⟩) _ _ hbehind
    by_cases hgroup : x ∈ group
    · have ht' : ⟨s, merged.id, t⟩ ∈ (m.relabel (group.map (·.id)) merged.id).transitions :=
        Fsm.mem_relabel.mpr (.inr ⟨rfl, x.id, mem_map_of_mem hgroup, ht⟩)
      obtain ⟨y, hy, hbehind, hlast⟩ :=
        ih (hmerge.consistent hc hs) (hmerge.supplied hs) hfsm (hmerge.mem_actions.mpr (.inl rfl)) ht'
      exact ⟨y, hy, .head ⟨group, mem_cons_self, hgroup⟩ (hmono hbehind), hlast⟩
    · have hid : x.id ∉ group.map (·.id) := fun hid => hgroup ((hmerge.mem_group hc hx).mp hid)
      have ht' : ⟨s, x.id, t⟩ ∈ (m.relabel (group.map (·.id)) merged.id).transitions :=
        Fsm.mem_relabel.mpr (.inl ⟨ht, hid⟩)
      obtain ⟨y, hy, hbehind, hlast⟩ :=
        ih (hmerge.consistent hc hs) (hmerge.supplied hs) hfsm (hmerge.mem_actions.mpr (.inr ⟨hx, hid⟩)) ht'
      exact ⟨y, hy, hmono hbehind, hlast⟩

/-! ## Calls at some values of the state variables -/

/-- With enough levels, a call returns a value and changes no state variable, over any trace. -/
def Answers (c : Actor) (g : List (Option Value)) (id : ProcId) (v : Option Value) : Prop :=
  ∃ k, ∀ k' ≥ k, ∀ trace, ∃ entered, c.calls k' id [] ⟨g, trace⟩ v ⟨g, entered ++ trace⟩

/-- With enough levels, a call succeeds and enters another procedure on its way, over any trace. -/
def Enters (c : Actor) (g : List (Option Value)) (id target : ProcId) : Prop :=
  ∃ k, ∀ k' ≥ k, ∀ trace, ∃ v g' entered, c.calls k' id [] ⟨g, trace⟩ v ⟨g', entered ++ trace⟩ ∧ target ∈ entered

lemma calls_anywhere {k : Nat} {w' : World} (h : c.calls k id [] ⟨g, []⟩ v w') : ∃ entered, id ∈
    entered ∧ ∀ k' ≥ k, ∀ trace, c.calls k' id [] ⟨g, trace⟩ v ⟨w'.globals, entered ++ trace⟩ := by
  obtain ⟨entered, htrace⟩ := calls_entered h
  refine ⟨w'.trace, by simp [htrace], fun k' hk trace => ?_⟩
  obtain ⟨entered', htrace', hcall⟩ := c.calls_shift k [] trace id [] g [] v w' h
  rw [List.append_nil] at htrace'
  rw [htrace']
  exact calls_le hk _ _ _ _ _ hcall

lemma calls_of_old (ha : a.HasTrees) (hprocs : ∀ id p, a.proc? id = some p → c.proc? id = some p) {limits : Limits}
    {m' : Machine} (h : (Machine.call a limits id []).on { globals := g } = (.ok v, m')) :
    c.calls limits.maxDepth id [] ⟨g, []⟩ v m'.world :=
  calls_of_extends hprocs (calls_of_call ha h)

lemma answers_alwaysTrue (hc : c.HasTrees) (hp : c.proc? id = some (.alwaysTrue name))
    (g : List (Option Value)) : c.Answers g id (some (.bool true)) := by
  have hcall : (Machine.call c ⟨1, 2⟩ id []).on { globals := g } = _ :=
    call_alwaysTrue hp Nat.one_pos (Nat.le_refl 2)
  obtain ⟨entered, _, hall⟩ := calls_anywhere (calls_of_call hc hcall)
  exact ⟨1, fun k' hk trace => ⟨entered, hall k' hk trace⟩⟩

/-- The first action that answers `true` is fired, and what its body enters is entered. The
induction is on the actions that answer `false` before it. -/
lemma firesFirst_enters (after : List Action) (hbefore : ∀ y ∈ before, c.Answers g y.scheduler (some (.bool false)))
    (hanswer : c.Answers g z.scheduler (some (.bool true))) (hbody : c.Enters g z.body target) :
    ∃ k, ∀ k' ≥ k, ∀ trace, ∃ g' entered,
      (c.calls k').FiresFirst (before ++ z :: after) ⟨g, trace⟩ ⟨g', entered ++ trace⟩ ∧ target ∈ entered := by
  induction before with
  | nil =>
    obtain ⟨k, hk⟩ := hanswer
    obtain ⟨l, hl⟩ := hbody
    refine ⟨max k l, fun k' hk' trace => ?_⟩
    obtain ⟨entered, hcall⟩ := hk k' (by omega) trace
    obtain ⟨v, g', entered', hcall', htarget⟩ := hl k' (by omega) (entered ++ trace)
    rw [← List.append_assoc] at hcall'
    exact ⟨g', entered' ++ entered, ⟨_, .inl ⟨hcall, v, hcall'⟩⟩, mem_append_left _ htarget⟩
  | cons y rest ih =>
    obtain ⟨k, hk⟩ := hbefore y mem_cons_self
    obtain ⟨l, hl⟩ := ih fun y hy => hbefore y (mem_cons_of_mem _ hy)
    refine ⟨max k l, fun k' hk' trace => ?_⟩
    obtain ⟨entered, hcall⟩ := hk k' (by omega) trace
    obtain ⟨g', entered', hfires, htarget⟩ := hl k' (by omega) (entered ++ trace)
    rw [← List.append_assoc] at hfires
    exact ⟨g', entered' ++ entered, ⟨_, .inr ⟨hcall, hfires⟩⟩, mem_append_left _ htarget⟩

lemma enters_dispatch {after : List Action} {known : Actor}
    (hp : c.proc? id = some (.dispatch known name (before ++ z :: after)))
    (hbefore : ∀ y ∈ before, c.Answers g y.scheduler (some (.bool false)))
    (hanswer : c.Answers g z.scheduler (some (.bool true))) (hbody : c.Enters g z.body target) :
    c.Enters g id target := by
  obtain ⟨k, hk⟩ := firesFirst_enters after hbefore hanswer hbody
  refine ⟨k + 1, fun k' hk' trace => ?_⟩
  obtain ⟨k', rfl⟩ : ∃ l, k' = l + 1 := ⟨k' - 1, by omega⟩
  obtain ⟨g', entered, hfires, htarget⟩ := hk k' (by omega) (id :: trace)
  refine ⟨none, g', entered ++ [id], ?_, mem_append_left _ htarget⟩
  rw [List.append_assoc, singleton_append]
  exact calls_dispatch hp hfires

/-! ## Classification -/

/-- The schedulers answer with these guards and change no state variable, and the bodies of actions
with a true guard succeed. -/
structure Guarded (a : Actor) (g : List (Option Value)) (guard : Action → Bool) : Prop where
  answers : ∀ x ∈ a.actions, ∃ limits m', (Machine.call a limits x.scheduler []).on { globals := g } =
    (.ok (some (.bool (guard x))), m') ∧ m'.globals = g
  bodies : ∀ x ∈ a.actions, guard x = true → ∃ limits v m',
    (Machine.call a limits x.body []).on { globals := g } = (.ok v, m')

lemma History.exists_merged (h : History a steps b) : ∃ merges, Merged a merges b := by
  induction h with
  | refl => exact ⟨[], .refl _⟩
  | @step a b c group merged steps hmerge _ _ ih =>
    obtain ⟨merges, hmerges⟩ := ih
    exact ⟨⟨none, group.map (·.name), merged.id⟩ :: merges, .step hmerge rfl rfl hmerges⟩

/-- The procedures of a merged action are there after all merges. -/
lemma History.procs (h : History a steps c) (hmem : (group, merged) ∈ steps) :
    (∃ name, c.proc? merged.scheduler = some (.alwaysTrue name)) ∧
      ∃ known name, c.proc? merged.body = some (.dispatch known name group) := by
  obtain ⟨_, _, stage, next, _, hmerge, hafter, _⟩ := h.split hmem
  obtain ⟨merges, hmerges⟩ := hafter.exists_merged
  obtain ⟨name, hscheduler⟩ := hmerge.proc?_scheduler
  obtain ⟨known, name', hbody⟩ := hmerge.proc?_body
  exact ⟨⟨name, hmerges.proc?_eq_some hscheduler⟩, known, name', hmerges.proc?_eq_some hbody⟩

section Guarded

variable (hcheck : a.check = .ok ()) (hids : a.Supplied) (hguarded : a.Guarded g guard)
include hcheck hids hguarded

/-- After classification a merged action may always fire, and another one if its guard is true. -/
lemma answers_scheduler (hz : z ∈ a.actions ∨ ∃ group, (group, z) ∈ a.history) :
    a.classify.2.Answers g z.scheduler (some (.bool (a.mayFire guard z))) := by
  have hc := (check_eq_ok.mp hcheck).1
  have htrees := hasTrees_of_check hcheck
  have hmerged := merged_classify hc hids
  by_cases hold : z ∈ a.actions
  · rw [mayFire, decide_eq_false (not_not.mpr hold), Bool.false_or]
    obtain ⟨limits, m', hcall, hm'⟩ := hguarded.answers z hold
    obtain ⟨entered, _, hall⟩ := calls_anywhere (calls_of_old htrees (fun _ _ => hmerged.proc?_eq_some) hcall)
    exact ⟨limits.maxDepth, fun k' hk trace => ⟨entered, hm' ▸ hall k' hk trace⟩⟩
  · obtain ⟨group, hmem⟩ := hz.resolve_left hold
    obtain ⟨⟨name, hscheduler⟩, _⟩ := (history_classify hc hids).1.procs hmem
    rw [mayFire, decide_eq_true hold, Bool.true_or]
    exact answers_alwaysTrue (hmerged.hasTrees htrees) hscheduler g

/-- The body of an action that wakes enters the body of an action with a true guard. The induction
is on the handles, which are smaller in the group than that of what stands for it. -/
theorem enters_of_wakes (hfree : a.Unblocked guard)
    (hy : y ∈ a.actions ∨ ∃ group, (group, y) ∈ a.history) (hwakes : a.Wakes guard y) : ∃ x ∈
    a.actions, guard x = true ∧ Behind a.history x y ∧ a.classify.2.Enters g y.body x.body := by
  have hc := (check_eq_ok.mp hcheck).1
  have hhistory := (history_classify hc hids).1
  induction hn : y.id.index using Nat.strong_induction_on generalizing y with
  | _ n ih =>
    subst hn
    by_cases hold : y ∈ a.actions
    · have hguard := hwakes.guard_eq_true hc hids hold
      obtain ⟨limits, v, m', hcall⟩ := hguarded.bodies y hold hguard
      obtain ⟨entered, hentered, hall⟩ := calls_anywhere
        (calls_of_old (hasTrees_of_check hcheck) (fun _ _ => (merged_classify hc hids).proc?_eq_some) hcall)
      refine ⟨y, hold, hguard, .refl, limits.maxDepth, fun k' hk trace => ?_⟩
      exact ⟨v, m'.globals, entered, hall k' hk trace, hentered⟩
    · obtain ⟨group, hmem, w, hw, hwwakes⟩ := hwakes.exists_mem hold
      have hmembers : ∀ z ∈ group, (z ∈ a.actions ∨ ∃ group, (group, z) ∈ a.history) ∧ z.id.index < y.id.index :=
        fun z hz => hhistory.mem_group hc hids hmem hz
      have hanswers : ∀ z ∈ group, a.classify.2.Answers g z.scheduler (some (.bool (a.mayFire guard z))) :=
        fun z hz => answers_scheduler hcheck hids hguarded (hmembers z hz).1
      -- there is one that may fire, and the first of them wakes
      obtain ⟨z, hfind⟩ := isSome_iff_exists.mp (find?_isSome.mpr ⟨w, hw, hwwakes.mayFire hc hids⟩)
      have hzwakes := hfree _ _ hmem ⟨w, hw, hwwakes⟩ z hfind
      obtain ⟨hztrue, before, after, rfl, hbefore⟩ := find?_eq_some_iff_append.mp hfind
      have hz : z ∈ before ++ z :: after := by simp
      obtain ⟨x, hx, hguard, hbehind, henters⟩ := ih _ (hmembers z hz).2 (hmembers z hz).1 hzwakes rfl
      obtain ⟨_, known, name, hbody⟩ := hhistory.procs hmem
      refine ⟨x, hx, hguard, hbehind.tail ⟨_, hmem, hz⟩, enters_dispatch hbody (fun v hv => ?_) ?_ henters⟩
      · have hfalse := hbefore v hv
        rw [Bool.not_eq_true'] at hfalse
        rw [← hfalse]
        exact hanswers v (mem_append_left _ hv)
      · rw [← hztrue]
        exact hanswers z hz

end Guarded

/-- A call that returns whatever the trace is, on a machine with room for it. -/
lemma Answers.call {id : ProcId} {v : Option Value} (h : c.Answers g id v) {m : Machine} (hm : m.globals = g) :
    ∃ bound, ∀ limits : Limits, bound ≤ limits.maxDepth → bound ≤ limits.maxSteps →
      ∃ m', (Machine.call c limits id []).on m = (.ok v, m') ∧ m'.globals = g := by
  obtain ⟨k, hk⟩ := h
  obtain ⟨entered, hcall⟩ := hk k (Nat.le_refl k) m.trace
  subst hm
  obtain ⟨n, hn⟩ := call_of_calls hcall
  refine ⟨max (k + m.depth) n, fun limits hdepth hsteps => ?_⟩
  obtain ⟨m', hm', hworld⟩ := hn limits (by omega) (by omega)
  exact ⟨m', hm', congrArg World.globals hworld⟩

lemma Enters.call {id target : ProcId} (h : c.Enters g id target) {m : Machine}
    (hm : m.globals = g) : ∃ bound, ∀ limits : Limits, bound ≤ limits.maxDepth →
      bound ≤ limits.maxSteps → ∃ v m' entered, (Machine.call c limits id []).on m = (.ok v, m') ∧
        m'.trace = entered ++ m.trace ∧ target ∈ entered := by
  obtain ⟨k, hk⟩ := h
  obtain ⟨v, g', entered, hcall, htarget⟩ := hk k (Nat.le_refl k) m.trace
  subst hm
  obtain ⟨n, hn⟩ := call_of_calls hcall
  refine ⟨max (k + m.depth) n, fun limits hdepth hsteps => ?_⟩
  obtain ⟨m', hm', hworld⟩ := hn limits (by omega) (by omega)
  exact ⟨v, m', entered, hm', congrArg World.trace hworld, htarget⟩

/-- If no merged action is in the way of others, then classification loses nothing that can fire:
where a transition has an action with a true guard, there is one between the same states afterwards
whose action may fire, and whose body enters the body of an action with a true guard. -/
theorem classify_fires {m₀ : Fsm} (hcheck : a.check = .ok ()) (hids : a.Supplied) (hfsm : a.fsm = some m₀)
    (hguarded : a.Guarded g guard) (hfree : a.Unblocked guard) {t : Transition} (ht : t ∈ m₀.transitions)
    (hx : a.action? t.action = some x) (htrue : guard x = true) :
    ∃ m y, a.classify.2.fsm = some m ∧ a.classify.2.action? y.id = some y ∧ ⟨t.source, y.id, t.target⟩ ∈ m.transitions ∧
      ∃ z ∈ a.actions, guard z = true ∧ Behind a.history z y ∧ ∀ w : Machine, w.globals = g →
        ∃ bound, ∀ limits : Limits, bound ≤ limits.maxDepth → bound ≤ limits.maxSteps →
          (∃ w', (Machine.isSchedulable a.classify.2 limits y).on w = (.ok true, w') ∧ w'.globals = g) ∧
          ∃ v w' entered, (Machine.call a.classify.2 limits y.body []).on w = (.ok v, w') ∧
            w'.trace = entered ++ w.trace ∧ z.body ∈ entered := by
  have hc := (check_eq_ok.mp hcheck).1
  have hhistory := (history_classify hc hids).1
  obtain ⟨hmem, hid⟩ := (action?_eq_some hc.ids).mp hx
  have ht : ⟨t.source, x.id, t.target⟩ ∈ m₀.transitions := by
    rw [hid]
    exact ht
  obtain ⟨y, hy, hbehind, m, hm, ht'⟩ := hhistory.transition hc hids hfsm hmem ht
  have hwakes : a.Wakes guard y := ⟨x, hmem, hbehind, htrue⟩
  have hscheduler := answers_scheduler hcheck hids hguarded (hhistory.mem_actions hy)
  obtain ⟨z, hz, hguard, hbehind', henters⟩ :=
    enters_of_wakes hcheck hids hguarded hfree (hhistory.mem_actions hy) hwakes
  rw [hwakes.mayFire hc hids] at hscheduler
  refine ⟨m, y, hm, (action?_eq_some (hhistory.consistent hc hids).1.ids).mpr ⟨hy, rfl⟩, ht', z, hz,
    hguard, hbehind', fun w hw => ?_⟩
  obtain ⟨k, hk⟩ := hscheduler.call hw
  obtain ⟨l, hl⟩ := henters.call hw
  refine ⟨max k l, fun limits hdepth hsteps => ⟨?_, hl limits (by omega) (by omega)⟩⟩
  obtain ⟨w', hcall, hw'⟩ := hk limits (by omega) (by omega)
  exact ⟨w', yields_bind.mpr ⟨_, w', hcall, rfl⟩, hw'⟩

/-- Values for the state variables of the crossing. -/
def signals (p q r : Bool) (n : Int64) : List (Option Value) :=
  [some (.bool p), some (.bool q), some (.int n), some (.bool r)]

/-- The guards of the actions of the crossing. -/
def signalled (p q r : Bool) (x : Action) : Bool :=
  [p, q, r, true].getD x.id.index false

lemma guarded_crossing (p q r : Bool) (n : Int64) : crossing.Guarded (signals p q r n) (signalled p q r) := by
  constructor
  · intro x hx
    simp only [crossing, mem_cons, not_mem_nil, or_false] at hx
    rcases hx with rfl | rfl | rfl | rfl <;> exact ⟨{}, _, rfl, rfl⟩
  · intro x hx _
    simp only [crossing, mem_cons, not_mem_nil, or_false] at hx
    rcases hx with rfl | rfl | rfl | rfl <;> exact ⟨{}, _, _, rfl⟩

/-- The way back has the second and the third action. With their guards true, the merged action that
stands before the third one wakes, and an action fires. -/
theorem classify_fires_crossing : crossing.check = .ok () ∧ crossing.Supplied ∧
    crossing.Guarded (signals false true true 0) (signalled false true true) ∧
    crossing.Unblocked (signalled false true true) ∧
    ∃ m y, crossing.classify.2.fsm = some m ∧ crossing.classify.2.action? y.id = some y ∧
      ⟨⟨1⟩, y.id, ⟨0⟩⟩ ∈ m.transitions ∧ ∃ z ∈ crossing.actions, signalled false true true z = true ∧
        ∃ bound, ∀ limits : Limits, bound ≤ limits.maxDepth → bound ≤ limits.maxSteps →
          ∃ v w', (Machine.call crossing.classify.2 limits y.body []).on { globals := signals false true true 0 } =
            (.ok v, w') ∧ z.body ∈ w'.trace := by
  have hguarded := guarded_crossing false true true 0
  have hwakes : crossing.Wakes (signalled false true true) (lane 4 2 "SDF") := by
    refine ⟨lane 1 2 "second", by decide +kernel, .single ⟨[lane 0 2 "first", lane 1 2 "second"], ?_, ?_⟩, rfl⟩
    · rw [history_crossing.1]
      exact List.mem_cons_self
    · decide +kernel
  have hfree : crossing.Unblocked (signalled false true true) := by
    intro group merged hmem _ z hfind
    by_cases hz : z ∈ crossing.actions
    · exact wakes_of_mayFire hz (List.find?_some hfind)
    · -- only one of the merged actions is in a group
      have hmembers : ∀ step ∈ crossing.history, ∀ z ∈ step.1, z ∈ crossing.actions ∨ z = lane 4 2 "SDF" := by
        rw [history_crossing.1]
        decide +kernel
      rw [(hmembers _ hmem z (List.mem_of_find?_eq_some hfind)).resolve_left hz]
      exact hwakes
  have ht : ⟨⟨1⟩, ⟨2⟩, ⟨0⟩⟩ ∈ (ways [⟨0⟩, ⟨1⟩] [⟨1⟩, ⟨2⟩]).transitions := by decide +kernel
  obtain ⟨m, y, hm, hy, ht', z, hz, hguard, _, hfires⟩ :=
    classify_fires check_crossing supplied_crossing rfl hguarded hfree ht rfl rfl
  obtain ⟨bound, hbound⟩ := hfires { globals := signals false true true 0 } rfl
  refine ⟨check_crossing, supplied_crossing, hguarded, hfree, m, y, hm, hy, ht', z, hz, hguard,
    bound, fun limits hdepth hsteps => ?_⟩
  obtain ⟨_, v, w', entered, hcall, htrace, hentered⟩ := hbound limits hdepth hsteps
  rw [List.append_nil] at htrace
  exact ⟨v, w', hcall, htrace ▸ hentered⟩

/-- With a true guard of the third action alone, nothing fires on the way back any more: the merged
action that stands before it may always fire, and does nothing. -/
theorem classify_blocks_crossing : crossing.check = .ok () ∧ crossing.Supplied ∧
    (∀ p q r n, crossing.Guarded (signals p q r n) (signalled p q r)) ∧
    ⟨⟨1⟩, ⟨2⟩, ⟨0⟩⟩ ∈ (ways [⟨0⟩, ⟨1⟩] [⟨1⟩, ⟨2⟩]).transitions ∧ signalled false false true (lane 2 2 "third") = true ∧
    ∃ m, crossing.classify.2.fsm = some m ∧ ∀ t ∈ m.outgoing ⟨1⟩, ∃ y w, crossing.classify.2.action? t.action = some y ∧
      (Machine.call crossing.classify.2 {} y.body []).on { globals := signals false false true 0 } = (.ok none, w) ∧
      w.globals = signals false false true 0 ∧ ∀ x ∈ crossing.actions, x.body ∉ w.trace := by
  refine ⟨check_crossing, supplied_crossing, guarded_crossing, by decide +kernel, rfl, ?_⟩
  rw [history_crossing.2]
  have hout : ∀ t ∈ ({ ways [] [] with transitions := [⟨⟨1⟩, ⟨5⟩, ⟨0⟩⟩, ⟨⟨0⟩, ⟨5⟩, ⟨1⟩⟩] } : Fsm).outgoing ⟨1⟩,
      t.action = ⟨5⟩ := by decide +kernel
  refine ⟨_, rfl, fun t ht => ⟨lane 5 2 "SDF_1", _, ?_, rfl, rfl, ?_⟩⟩
  · rw [hout t ht]
    rfl
  · decide +kernel

end Actor

end ActorNet
