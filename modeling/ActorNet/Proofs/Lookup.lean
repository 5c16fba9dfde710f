import Mathlib.Data.List.Basic

/-!
# Looking up in lists of pairs

What is looked up is found at the first pair with the key. Where every key occurs once, that is the
only one.
-/

namespace ActorNet

open List

variable {α β : Type} [BEq α] [LawfulBEq α] {a : α} {b : β} {x : α × β} {l : List (α × β)}

lemma lookup_cons_ite [DecidableEq α] (x : α × β) (l : List (α × β)) (a : α) :
    (x :: l).lookup a = if a = x.1 then some x.2 else l.lookup a := by
  rw [List.lookup_cons]
  by_cases h : a = x.1
  · rw [if_pos h, h, beq_self_eq_true]
  · rw [if_neg h, beq_false_of_ne h]

lemma lookup_cons_eq_some : (x :: l).lookup a = some b ↔ a = x.1 ∧ b = x.2 ∨ a ≠ x.1 ∧ l.lookup a = some b := by
  classical
  rw [lookup_cons_ite]
  by_cases h : a = x.1
  · simp [h, eq_comm]
  · simp [h]

lemma mem_of_lookup (h : l.lookup a = some b) : (a, b) ∈ l := by
  induction l with
  | nil => cases h
  | cons x rest ih =>
    rcases lookup_cons_eq_some.mp h with ⟨rfl, rfl⟩ | ⟨_, h⟩
    · exact mem_cons_self
    · exact mem_cons_of_mem x (ih h)

lemma lookup_of_mem (hnodup : (l.map (·.1)).Nodup) (h : x ∈ l) : l.lookup x.1 = some x.2 := by
  induction l with
  | nil => cases h
  | cons y rest ih =>
    obtain ⟨hy, hnodup⟩ := nodup_cons.mp hnodup
    refine lookup_cons_eq_some.mpr ((mem_cons.mp h).imp (fun hx => ?_) fun hx => ⟨?_, ih hnodup hx⟩)
    · rw [hx]
      exact ⟨rfl, rfl⟩
    · exact ne_of_mem_of_not_mem (mem_map_of_mem hx) hy

end ActorNet
