import ActorNet.Proofs.Merging.Skeleton
import Mathlib.Data.Finset.Card

/-!
# Classification is done after one run

A state is settled if there is nothing to merge at it: steps from it lead to different states, or it
offers one action, or it offers actions of different patterns. Nothing is merged at a state exactly
if it is settled (`Actor.mergeState_eq_nil_iff`), and merges at other states leave it settled
(`Actor.MergesTo.settled`), since they keep where steps lead and which patterns are on offer. So the
states stay settled that classification has looked at.
-/

namespace ActorNet

open List

variable {m : Fsm} {states : List StateId} {s : StateId}

namespace Actor

variable {a b : Actor} {group : List Action} {merged : Action}

/-- Steps from a state lead to different states. -/
def Forks (a : Actor) (s : StateId) : Prop :=
  ∃ m, a.fsm = some m ∧ ∃ t t', m.Leads s t ∧ m.Leads s t' ∧ t ≠ t'

/-- There is nothing to merge at a state. -/
inductive Settled (a : Actor) (s : StateId) : Prop
  | forks : a.Forks s → Settled a s
  | single : (∀ x ∈ a.stateActions s, ∀ y ∈ a.stateActions s, x = y) → Settled a s
  | differ {x y : Action} : x ∈ a.stateActions s → y ∈ a.stateActions s → x.patterns ≠ y.patterns → Settled a s

/-! ## Where nothing is merged -/

lemma MergesTo.settled (h : a.MergesTo group merged b) (hc : a.Consistent) (hs : a.Supplied)
    (hsettled : a.Settled s) : b.Settled s := by
  cases hsettled with
  | forks hforks =>
    obtain ⟨m, hm, t, t', ht, ht', hne⟩ := hforks
    have hleads : (m.relabel (group.map (·.id)) merged.id).Leads = m.Leads :=
      congrArg (·.2.2) (m.skeleton_relabel _ _)
    refine .forks ⟨_, by rw [h.fsm, hm, map_some], t, t', ?_, ?_, hne⟩ <;> rw [hleads]
    · exact ht
    · exact ht'
  | single hsingle =>
    refine .single fun x hx y hy => ?_
    rcases (h.mem_stateActions hc hs).mp hx with ⟨hx, hkept⟩ | ⟨rfl, z, hz, hoffered⟩
    · rcases (h.mem_stateActions hc hs).mp hy with ⟨hy, _⟩ | ⟨rfl, z, hz, hoffered⟩
      · exact hsingle x hx y hy
      · exact absurd (hsingle z hoffered x hx ▸ hz) hkept
    · rcases (h.mem_stateActions hc hs).mp hy with ⟨hy, hkept⟩ | ⟨rfl, _⟩
      · exact absurd (hsingle z hoffered y hy ▸ hz) hkept
      · rfl
  | differ hx hy hne =>
    obtain ⟨x', hx', hxeq⟩ := mem_map.mp ((h.mem_patterns_stateActions hc hs s _).mpr (mem_map_of_mem hx))
    obtain ⟨y', hy', hyeq⟩ := mem_map.mp ((h.mem_patterns_stateActions hc hs s _).mpr (mem_map_of_mem hy))
    exact .differ hx' hy' (by rw [hxeq, hyeq]; exact hne)

/-- The transitions of a settled state that leads to one state. -/
lemma Settled.outgoing (h : a.Settled s) (hc : a.Consistent) (hm : a.fsm = some m)
    (honly : ∀ t ∈ m.outgoing s, ∀ t' ∈ m.outgoing s, t.target = t'.target) :
    (∀ t ∈ m.outgoing s, ∀ t' ∈ m.outgoing s, t.action = t'.action) ∨ ∃ t ∈ m.outgoing s,
      ∃ t' ∈ m.outgoing s, ∃ x y, a.action? t.action = some x ∧ a.action? t'.action = some y ∧
        x.patterns ≠ y.patterns := by
  have hout : ∀ t, t ∈ m.outgoing s ↔ t ∈ m.transitions ∧ t.source = s := by simp [Fsm.outgoing]
  have hoffered : ∀ x ∈ a.stateActions s, ∃ t ∈ m.outgoing s, a.action? t.action = some x := by
    intro x hx
    obtain ⟨hx, m', hm', t, ht, hsource, hid⟩ := (mem_stateActions hc).mp hx
    obtain rfl : m = m' := Option.some.inj (hm.symm.trans hm')
    exact ⟨t, (hout t).mpr ⟨ht, hsource⟩, (action?_eq_some hc.ids).mpr ⟨hx, hid.symm⟩⟩
  cases h with
  | forks hforks =>
    obtain ⟨m', hm', t, t', ⟨id, ht⟩, ⟨id', ht'⟩, hne⟩ := hforks
    obtain rfl : m = m' := Option.some.inj (hm.symm.trans hm')
    exact absurd (honly _ ((hout _).mpr ⟨ht, rfl⟩) _ ((hout _).mpr ⟨ht', rfl⟩)) hne
  | single hsingle =>
    have hmem : ∀ t ∈ m.outgoing s, ∃ x ∈ a.stateActions s, x.id = t.action := by
      intro t ht
      obtain ⟨ht, hsource⟩ := (hout t).mp ht
      obtain ⟨x, hx, hid⟩ := action?_isSome.mp (hc.fsm m hm t ht)
      exact ⟨x, (mem_stateActions hc).mpr ⟨hx, m, hm, t, ht, hsource, hid.symm⟩, hid⟩
    refine .inl fun t ht t' ht' => ?_
    obtain ⟨x, hx, hid⟩ := hmem t ht
    obtain ⟨y, hy, hid'⟩ := hmem t' ht'
    rw [← hid, ← hid', hsingle x hx y hy]
  | @differ x y hx hy hne =>
    obtain ⟨t, ht, hxt⟩ := hoffered x hx
    obtain ⟨t', ht', hyt⟩ := hoffered y hy
    exact .inr ⟨t, ht, t', ht', x, y, hxt, hyt, hne⟩

end Actor

end ActorNet
