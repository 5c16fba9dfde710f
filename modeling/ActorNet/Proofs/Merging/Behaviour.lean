import ActorNet.Proofs.Merging.Dispatch

/-!
# What the states offer after merging

A merge that is decided at one state relabels the transitions of the whole state machine.
`Actor.Dispatches` says which of the first procedures of an actor stand behind the body of an
action, and `Actor.Keeps` relates an actor to what merges have made of it: every transition carries
an action behind which there is one that labelled a transition between the same states before, and
no transition is lost. Each merge keeps the relation (`Actor.MergesTo.keeps`).

A state that offered one of two merged actions offers both afterwards (`Actor.detour`).
-/

namespace ActorNet

open List

namespace Dispatch

lemma mem_chain_of_lt {left i j : Nat} (hi : i ≤ j) (hj : j < i + left) :
    InstId.mk (2 * j + 1) ∈ (chain left i).insts := by
  induction left generalizing i with
  | zero => omega
  | succ left ih =>
    simp only [chain, Tree.insts, mem_append, mem_singleton, not_mem_nil, or_false, InstId.mk.injEq]
    by_cases heq : j = i
    · exact .inr (.inl (by omega))
    · exact .inr (.inr (ih (by omega) (by omega)))

/-- The dispatch procedure calls the body of each of its actions. -/
lemma exists_call (known : Actor) (name : String) {group : List Action} {x : Action}
    (hx : x ∈ group) : ∃ i ∈ (Procedure.dispatch known name group).forward, ∃ d,
      (Procedure.dispatch known name group).inst? i = some d ∧ d.inst = .call none x.body [] := by
  obtain ⟨j, hj, rfl⟩ := mem_iff_getElem.mp hx
  refine ⟨⟨2 * j + 1⟩, ?_, _, inst?_row known name (getElem?_eq_getElem hj) (show 1 < 2 by omega), rfl⟩
  rw [Procedure.forward_eq (spans_tree known name), tree, Tree.insts_append]
  exact mem_append_left _ (mem_chain_of_lt (Nat.zero_le j) (by omega))

end Dispatch

namespace Actor

variable {a b c : Actor} {group : List Action} {merged : Action} {n : Nat}

/-- What stands behind a procedure, among the first `n`: one of these stands for itself, a later one
for what stands behind the procedures that it calls without taking an answer. -/
inductive Dispatches (a : Actor) (n : Nat) : ProcId → ProcId → Prop
  | own {id : ProcId} : id.index < n → Dispatches a n id id
  | through {id callee x : ProcId} {p : Procedure} {i : InstId} {d : InstData} : n ≤ id.index → a.proc? id = some p →
    i ∈ p.forward → p.inst? i = some d → d.inst = .call none callee [] → Dispatches a n callee x → Dispatches a n id x

lemma MergesTo.dispatches (h : a.MergesTo group merged b) {id x : ProcId}
    (hd : a.Dispatches n id x) : b.Dispatches n id x := by
  induction hd with
  | own hid => exact .own hid
  | through hid hp hi hd hcall _ ih =>
    refine .through hid ?_ hi hd hcall ih
    rw [h.proc?_of_lt (List.getElem?_eq_some_iff.mp hp).1]
    exact hp

lemma MergesTo.dispatches_merged (h : a.MergesTo group merged b) (hn : n ≤ a.procs.length) {x : Action} (hx : x ∈ group)
    {id : ProcId} (hd : a.Dispatches n x.body id) : b.Dispatches n merged.body id := by
  obtain ⟨known, name, hbody⟩ := h.proc?_body
  obtain ⟨i, hi, d, hinst, hcall⟩ := Dispatch.exists_call known name hx
  refine .through ?_ hbody hi hinst hcall (h.dispatches hd)
  rw [h.body]
  exact Nat.le_succ_of_le hn

/-- What merges have made of an actor: every transition carries an action behind which there is one
of the old actions with the same patterns, which labelled a transition between the same states, and
which is the action itself if that is an old one; and every old transition is still there, with an
action behind which there is the old one. -/
structure Keeps (old a : Actor) : Prop where
  bodies : ∀ x ∈ old.actions, x.body.index < old.procs.length
  procs : old.procs.length ≤ a.procs.length
  states : a.fsm.map (fun m => (m.states, m.initial)) = old.fsm.map (fun m => (m.states, m.initial))
  sound : ∀ m, a.fsm = some m → ∀ t ∈ m.transitions, ∀ y ∈ a.actions, y.id = t.action →
    ∃ x ∈ old.actions, x.input = y.input ∧ x.output = y.output ∧ a.Dispatches old.procs.length y.body x.body ∧
      (y ∈ old.actions → x = y) ∧ ∃ m₀, old.fsm = some m₀ ∧ ⟨t.source, x.id, t.target⟩ ∈ m₀.transitions
  complete : ∀ m₀, old.fsm = some m₀ → ∀ t ∈ m₀.transitions, ∀ x ∈ old.actions, x.id = t.action →
    ∃ y ∈ a.actions, a.Dispatches old.procs.length y.body x.body ∧
      ∃ m, a.fsm = some m ∧ ⟨t.source, y.id, t.target⟩ ∈ m.transitions

lemma Consistent.keeps (hc : a.Consistent) : a.Keeps a := by
  have hbody : ∀ x ∈ a.actions, x.body.index < a.procs.length := by
    intro x hx
    obtain ⟨p, hp⟩ := isSome_iff_exists.mp (hc.procs x hx).2
    exact (List.getElem?_eq_some_iff.mp hp).1
  refine ⟨hbody, le_rfl, rfl, fun m hm t ht y hy hid => ?_, fun m hm t ht x hx hid => ?_⟩
  · exact ⟨y, hy, rfl, rfl, .own (hbody y hy), fun _ => rfl, m, hm, hid ▸ ht⟩
  · exact ⟨x, hx, .own (hbody x hx), m, hm, hid ▸ ht⟩

/-- A merge keeps the relation: the transitions that it relabels have an action of its group behind
them. -/
theorem MergesTo.keeps {old : Actor} (h : a.MergesTo group merged b) (hc : a.Consistent)
    (hs : a.Supplied) (hk : old.Keeps a) : old.Keeps b where
  bodies := hk.bodies
  procs := by
    obtain ⟨name, name', known, hprocs⟩ := h.procs
    rw [hprocs, length_append]
    exact Nat.le_add_right_of_le hk.procs
  states := by
    rw [← hk.states, h.fsm]
    cases a.fsm with
    | none => rfl
    | some m => rw [map_some, map_some, map_some, Fsm.relabel_eq]
  sound := by
    intro m hm t ht y hy hid
    rw [h.fsm] at hm
    obtain ⟨m₁, hm₁, rfl⟩ := map_eq_some_iff.mp hm
    rcases Fsm.mem_relabel.mp ht with ⟨ht, hkept⟩ | ⟨hnew, id, hids, ht⟩
    · -- a transition that is kept has an action that is kept, for the new handle is on none of the old transitions
      obtain ⟨z, hz, hzid⟩ := action?_isSome.mp (hc.fsm m₁ hm₁ t ht)
      have hzb : z ∈ b.actions := h.mem_actions.mpr (.inr ⟨hz, hzid ▸ hkept⟩)
      cases inj_on_of_nodup_map (h.consistent hc hs).ids hzb hy (hzid.trans hid.symm)
      obtain ⟨x, hx, hinput, houtput, hd, hown, hold⟩ := hk.sound m₁ hm₁ t ht _ hz hid
      exact ⟨x, hx, hinput, houtput, h.dispatches hd, hown, hold⟩
    · obtain ⟨z, hz, rfl⟩ := mem_map.mp hids
      have hmerged : merged ∈ b.actions := h.mem_actions.mpr (.inl rfl)
      cases inj_on_of_nodup_map (h.consistent hc hs).ids hmerged hy (hnew.symm.trans hid.symm)
      obtain ⟨x, hx, hinput, houtput, hd, _, hold⟩ := hk.sound m₁ hm₁ _ ht z (h.members z hz) rfl
      refine ⟨x, hx, hinput.trans (h.patterns _ hz).1, houtput.trans (h.patterns _ hz).2,
        h.dispatches_merged hk.procs hz hd, fun hy => ?_, hold⟩
      have hlt := hk.bodies _ hy
      have hle := hk.procs
      rw [h.body] at hlt
      exact absurd hlt (Nat.not_lt.mpr (Nat.le_succ_of_le hle))
  complete := by
    intro m₀ hm0 t ht x hx hid
    obtain ⟨y, hy, hd, m, hm, ht'⟩ := hk.complete m₀ hm0 t ht x hx hid
    have hfsm : b.fsm = some (m.relabel (group.map (·.id)) merged.id) := by rw [h.fsm, hm, map_some]
    by_cases hgroup : y.id ∈ group.map (·.id)
    · obtain ⟨z, hz, hzid⟩ := mem_map.mp hgroup
      cases inj_on_of_nodup_map hc.ids (h.members z hz) hy hzid
      refine ⟨merged, h.mem_actions.mpr (.inl rfl), h.dispatches_merged hk.procs hz hd, _, hfsm, ?_⟩
      exact Fsm.mem_relabel.mpr (.inr ⟨rfl, _, hgroup, ht'⟩)
    · refine ⟨y, h.mem_actions.mpr (.inr ⟨hy, hgroup⟩), h.dispatches hd, _, hfsm, ?_⟩
      exact Fsm.mem_relabel.mpr (.inl ⟨ht', hgroup⟩)

lemma Merged.keeps {old : Actor} {merges : List Merge} (h : Merged a merges b) (hc : a.Consistent)
    (hs : a.Supplied) (hk : old.Keeps a) : old.Keeps b := by
  induction h with
  | refl => exact hk
  | step hmerge _ _ _ ih => exact ih (hmerge.consistent hc hs) (hmerge.supplied hs) (hmerge.keeps hc hs hk)

/-- Merging keeps the states. A transition afterwards carries an action behind which there is one
with the same patterns that labelled a transition between the same two states, the action itself if
it was not merged; so no state gets a new target. A state that offered some of the merged actions
offers the bodies of the others as well. Every old transition is still there, with an action behind
which there is the old one. -/
theorem classify_transitions {m₀ : Fsm} (hcheck : a.check = .ok ()) (hids : a.Supplied)
    (hfsm : a.fsm = some m₀) : ∃ m, a.classify.2.fsm = some m ∧ m.states = m₀.states ∧
      m.initial = m₀.initial ∧ (∀ t ∈ m.transitions, ∃ y, a.classify.2.action? t.action = some y ∧
        ∃ x ∈ a.actions, x.input = y.input ∧ x.output = y.output ∧
        a.classify.2.Dispatches a.procs.length y.body x.body ∧
      (y ∈ a.actions → x = y) ∧ ⟨t.source, x.id, t.target⟩ ∈ m₀.transitions) ∧ ∀ t ∈ m₀.transitions,
        ∃ x y, a.action? t.action = some x ∧ a.classify.2.Dispatches a.procs.length y.body x.body ∧
        a.classify.2.action? y.id = some y ∧ ⟨t.source, y.id, t.target⟩ ∈ m.transitions := by
  have hc := (check_eq_ok.mp hcheck).1
  have hmerged := merged_classify hc hids
  have hk := hmerged.keeps hc hids hc.keeps
  have hc' := (hmerged.consistent hc hids).1
  obtain ⟨m, hm, hstates⟩ : ∃ m, a.classify.2.fsm = some m ∧ (m.states, m.initial) = (m₀.states, m₀.initial) := by
    have hstates := hk.states
    rw [hfsm, Option.map_some, Option.map_eq_some_iff] at hstates
    exact hstates
  refine ⟨m, hm, congrArg Prod.fst hstates, congrArg Prod.snd hstates, fun t ht => ?_, fun t ht => ?_⟩
  · obtain ⟨y, hy⟩ := Option.isSome_iff_exists.mp (hc'.fsm m hm t ht)
    obtain ⟨hmem, hid⟩ := (action?_eq_some hc'.ids).mp hy
    obtain ⟨x, hx, hinput, houtput, hd, hown, m₁, hm₁, ht'⟩ := hk.sound m hm t ht y hmem hid
    cases hfsm.symm.trans hm₁
    exact ⟨y, hy, x, hx, hinput, houtput, hd, hown, ht'⟩
  · obtain ⟨x, hx⟩ := Option.isSome_iff_exists.mp (hc.fsm m₀ hfsm t ht)
    obtain ⟨hmem, hid⟩ := (action?_eq_some hc.ids).mp hx
    obtain ⟨y, hy, hd, m₁, hm₁, ht'⟩ := hk.complete m₀ hfsm t ht x hmem hid
    cases hm.symm.trans hm₁
    exact ⟨x, y, hx, hd, (action?_eq_some hc'.ids).mpr ⟨hy, rfl⟩, ht'⟩

/-- Two states, the actions that lead from the first to the second, and those that lead back. -/
def ways (forth back : List ActionId) : Fsm :=
  { states := ["here", "there"], initial := ⟨0⟩
    transitions := forth.map (⟨⟨0⟩, ·, ⟨1⟩⟩) ++ back.map (⟨⟨1⟩, ·, ⟨0⟩⟩) }

/-- An actor with two actions of the same patterns. In its first state both may fire, in its second
state only the one that goes back. -/
def detour : Actor :=
  { name := "detour"
    globals := [{ name := "p", ty := .bool }, { name := "q", ty := .bool }, { name := "out", ty := .int 8 }]
    procs := [.alwaysTrue "always", report 1, report 2]
    actions := [{ id := ⟨0⟩, name := "go", scheduler := ⟨0⟩, body := ⟨1⟩ },
      { id := ⟨1⟩, name := "turn", scheduler := ⟨0⟩, body := ⟨2⟩ }]
    fsm := some (ways [⟨0⟩, ⟨1⟩] [⟨1⟩])
    ids := ⟨2⟩ }

/-- The actor with its two actions merged. -/
def detourMerged : Actor :=
  { (detour.replaceActions { id := ⟨0⟩, name := "go", scheduler := ⟨0⟩, body := ⟨1⟩ }
      [{ id := ⟨1⟩, name := "turn", scheduler := ⟨0⟩, body := ⟨2⟩ }]).2 with fsm := some (ways [⟨2⟩] [⟨2⟩]) }

lemma classify_detour : detour.classify.2 = detourMerged := by
  have hfirst : detour.mergeState ⟨0⟩ = ([⟨some "here", ["go", "turn"], ⟨2⟩⟩], detourMerged) := by
    -- what a state offers is sorted by a recursion that does not reduce, so the list is shown to be
    -- in order
    have hoffered : detour.offered (ways [⟨0⟩, ⟨1⟩] [⟨1⟩]) ⟨0⟩ = [⟨0⟩, ⟨1⟩] :=
      mergeSort_of_pairwise (by decide +kernel)
    rw [mergeState]
    simp only [show detour.fsm = some (ways [⟨0⟩, ⟨1⟩] [⟨1⟩]) from rfl, hoffered]
    rfl
  have hsecond : detourMerged.mergeState ⟨1⟩ = ([], detourMerged) := by
    have hoffered : detourMerged.offered (ways [⟨2⟩] [⟨2⟩]) ⟨1⟩ = [⟨2⟩] :=
      mergeSort_of_pairwise (by decide +kernel)
    rw [mergeState]
    simp only [show detourMerged.fsm = some (ways [⟨2⟩] [⟨2⟩]) from rfl, hoffered]
    rfl
  show (detour.mergeStates [⟨0⟩, ⟨1⟩]).2 = detourMerged
  simp only [mergeStates, hfirst, hsecond]

/-- The way back carries the merged action, behind which there is the one that labelled it. -/
theorem classify_transitions_detour : ∃ m, detour.classify.2.fsm = some m ∧
    ⟨⟨1⟩, ⟨2⟩, ⟨0⟩⟩ ∈ m.transitions ∧ ∃ y, detour.classify.2.action? ⟨2⟩ = some y ∧
      ∃ x ∈ detour.actions, detour.classify.2.Dispatches 3 y.body x.body ∧ x.id = ⟨1⟩ := by
  have hcheck : detour.check = .ok () := by decide +kernel
  have hids : detour.Supplied := by decide +kernel
  obtain ⟨m, hm, _, _, hsound, _⟩ := classify_transitions hcheck hids rfl
  obtain rfl : ways [⟨2⟩] [⟨2⟩] = m := by
    rw [classify_detour] at hm
    exact Option.some.inj hm
  obtain ⟨y, hy, x, hx, _, _, hd, _, ht⟩ := hsound ⟨⟨1⟩, ⟨2⟩, ⟨0⟩⟩ (by decide +kernel)
  refine ⟨_, hm, by decide +kernel, y, hy, x, hx, hd, ?_⟩
  simpa [ways] using ht

/-- After merging, the second state offers the body of the first action, which it did not offer
before. -/
theorem classify_transitions_gain : detour.check = .ok () ∧ detour.Supplied ∧ ∃ m y,
    detour.classify.2.fsm = some m ∧ detour.classify.2.action? ⟨2⟩ = some y ∧ ⟨⟨1⟩, ⟨2⟩, ⟨0⟩⟩ ∈
      m.transitions ∧ detour.classify.2.Dispatches detour.procs.length y.body ⟨1⟩ ∧ ∀ m₀ ∈
      detour.fsm, ∀ x ∈ detour.actions, x.body = ⟨1⟩ → ⟨⟨1⟩, x.id, ⟨0⟩⟩ ∉ m₀.transitions := by
  rw [classify_detour]
  refine ⟨by decide +kernel,
    by decide +kernel, ways [⟨2⟩] [⟨2⟩], _, rfl, rfl, by decide +kernel, ?_, by decide +kernel⟩
  have hcalled : InstId.mk 1 ∈ (Procedure.dispatch (detour.addProc (.alwaysTrue "isSchedulable_SDF")).2 "SDF"
      detour.actions).forward := by decide +kernel
  exact .through (by decide +kernel) rfl hcalled rfl rfl (.own (by decide +kernel))

end Actor

end ActorNet
