import ActorNet.Proofs.Semantics.Code

/-!
# The meaning of code with its cost

The machine counts a step for every line it comes to and for every iteration of a loop. `Code.cost`
is the meaning of code with that count: `c.cost costs n` relates the states before and after a run
of `n` steps. Without the count it is the meaning of the code (`Code.any_cost`).
-/

namespace ActorNet

variable {a b : Costed} {condition : Expr} {predicate : Option Expr}

/-- How code changes states in a number of steps. -/
abbrev Costed := Nat → Step

namespace Costed

/-- What costs nothing. -/
def free (a : Step) : Costed := fun n s f u => n = 0 ∧ a s f u

/-- One step more. -/
def tick (a : Costed) : Costed := fun n s f u => ∃ k, n = k + 1 ∧ a k s f u

/-- One thing after the other, unless the first one returns. -/
def seq (a b : Costed) : Costed := fun n s f u =>
  (∃ k l t, n = k + l ∧ a k s .next t ∧ b l t f u) ∨ ∃ v, f = .ret v ∧ a n s (.ret v) u

/-- One of two, by a condition. -/
def choose (condition : Expr) (a b : Costed) : Costed := fun n => Step.choose condition (a n) (b n)

/-- Only if a predicate holds. -/
def guarded (predicate : Option Expr) (a : Costed) : Costed :=
  match predicate with
  | none => a
  | some p => choose p a (free Step.skip)

/-- Again and again, as long as a condition holds. -/
inductive Loops (condition : Expr) (body : Costed) : Costed
  | stop {s : State} : s.test condition = some false → Loops condition body 0 s .next s
  | again {k l : Nat} {s t u : State} {f : Flow} : s.test condition = some true → body k s .next t →
      Loops condition body l t f u → Loops condition body (k + l) s f u
  | ret {k : Nat} {s t : State} {v : Option Value} : s.test condition = some true → body k s (.ret v) t →
      Loops condition body k s (.ret v) t

lemma skip_seq (a : Costed) : (free Step.skip).seq a = a := by
  funext n s f u
  simp only [seq, free, Step.skip, eq_iff_iff]
  constructor
  · rintro (⟨k, l, t, rfl, ⟨rfl, _, rfl⟩, ha⟩ | ⟨v, hf, _, hv, _⟩)
    · rwa [Nat.zero_add]
    · cases hv
  · exact fun ha => .inl ⟨0, n, s, (Nat.zero_add n).symm, ⟨rfl, trivial, rfl⟩, ha⟩

lemma seq_assoc (a b c : Costed) : (a.seq b).seq c = a.seq (b.seq c) := by
  funext n s f u
  simp only [seq, eq_iff_iff]
  constructor
  · rintro (⟨_, l, t, rfl, ⟨k, l', r, rfl, ha, hb⟩ | ⟨v, hv, _⟩, hc⟩ | ⟨v, rfl, ⟨k, l, r, rfl, ha, hb⟩ | ⟨v', hv, ha⟩⟩)
    · exact .inl ⟨k, l' + l, r, Nat.add_assoc .., ha, .inl ⟨l', l, t, rfl, hb, hc⟩⟩
    · cases hv
    · exact .inl ⟨k, l, r, rfl, ha, .inr ⟨v, rfl, hb⟩⟩
    · exact .inr ⟨v', hv, ha⟩
  · rintro (⟨k, _, r, rfl, ha, ⟨k', l, t, rfl, hb, hc⟩ | ⟨v, rfl, hb⟩⟩ | ⟨v, rfl, ha⟩)
    · exact .inl ⟨k + k', l, t, (Nat.add_assoc ..).symm, .inl ⟨k, k', r, rfl, ha, hb⟩, hc⟩
    · exact .inr ⟨v, rfl, .inl ⟨k, _, r, rfl, ha, hb⟩⟩
    · exact .inr ⟨v, rfl, .inr ⟨v, rfl, ha⟩⟩

/-- What is done in some number of steps. -/
def any (a : Costed) : Step := fun s f u => ∃ n, a n s f u

@[simp] lemma any_free (a : Step) : (free a).any = a := by
  funext s f u
  simp [any, free]

@[simp] lemma any_tick : (tick a).any = a.any := by
  funext s f u
  simp only [any, tick, eq_iff_iff]
  exact ⟨fun ⟨_, k, _, h⟩ => ⟨k, h⟩, fun ⟨k, h⟩ => ⟨k + 1, k, rfl, h⟩⟩

@[simp] lemma any_seq : (a.seq b).any = a.any.seq b.any := by
  funext s f u
  simp only [any, seq, Step.seq, eq_iff_iff]
  constructor
  · rintro ⟨n, ⟨k, l, t, _, ha, hb⟩ | ⟨v, hf, ha⟩⟩
    · exact .inl ⟨t, ⟨k, ha⟩, l, hb⟩
    · exact .inr ⟨v, hf, n, ha⟩
  · rintro (⟨t, ⟨k, ha⟩, l, hb⟩ | ⟨v, hf, n, ha⟩)
    · exact ⟨k + l, .inl ⟨k, l, t, rfl, ha, hb⟩⟩
    · exact ⟨n, .inr ⟨v, hf, ha⟩⟩

@[simp] lemma any_choose : (choose condition a b).any = Step.choose condition a.any b.any := by
  funext s f u
  simp [any, choose, Step.choose, exists_or]

@[simp] lemma any_guarded : (guarded predicate a).any = Step.guarded predicate a.any := by
  cases predicate with
  | none => rfl
  | some p => rw [guarded, any_choose, any_free]; rfl

@[simp] lemma any_loops : any (Loops condition a) = Step.Loops condition a.any := by
  funext s f u
  simp only [eq_iff_iff]
  constructor
  · rintro ⟨n, h⟩
    induction h with
    | stop hc => exact .stop hc
    | again hc hbody _ ih => exact .again hc ⟨_, hbody⟩ ih
    | ret hc hbody => exact .ret hc ⟨_, hbody⟩
  · intro h
    induction h with
    | stop hc => exact ⟨0, .stop hc⟩
    | again hc hbody _ ih =>
      obtain ⟨k, hk⟩ := hbody
      obtain ⟨l, hl⟩ := ih
      exact ⟨k + l, .again hc hk hl⟩
    | ret hc hbody =>
      obtain ⟨k, hk⟩ := hbody
      exact ⟨k, .ret hc hk⟩

end Costed

open Costed

/-- What a single instruction does. Only a call costs something, namely what the called procedure
costs. -/
def Inst.cost (costs : Nat → CallStep) (i : Inst) : Costed := fun n s f u =>
  i.step (costs n) s f u ∧ (i.isCall = false → n = 0)

lemma Inst.cost_of_not_call {costs : Nat → CallStep} {i : Inst} (h : i.isCall = false) :
    i.cost costs = free (i.step (costs 0)) := by
  funext n s f u
  simp only [Inst.cost, free, eq_iff_iff]
  constructor
  · rintro ⟨hi, hn⟩
    obtain rfl := hn h
    exact ⟨rfl, hi⟩
  · rintro ⟨rfl, hi⟩
    exact ⟨hi, fun _ => rfl⟩

namespace Code

def cost (costs : Nat → CallStep) : Code → Costed
  | done => free Step.skip
  | inst i predicate rest => (tick (guarded predicate (i.cost costs))).seq (rest.cost costs)
  | branch condition thenCode elseCode phis rest =>
    (choose condition ((thenCode.cost costs).seq (free (Step.join .thenEnd phis)))
      ((elseCode.cost costs).seq (free (Step.join .elseEnd phis)))).seq (rest.cost costs)
  | loop condition body phis rest =>
    ((free (Step.join .entry phis)).seq
      (Loops condition (tick ((body.cost costs).seq (free (Step.join .back phis)))))).seq (rest.cost costs)

variable {calls : CallStep} {costs : Nat → CallStep}

lemma any_inst_cost (h : ∀ id args w v w', calls id args w v w' ↔ ∃ n, costs n id args w v w')
    (i : Inst) : (i.cost costs).any = i.step calls := by
  funext s f u
  simp only [any, Inst.cost, eq_iff_iff]
  cases i with
  | call target callee args =>
    simp only [Inst.step, h, Inst.isCall]
    constructor
    · rintro ⟨n, ⟨xs, y, w, hxs, hcall, hf, hu⟩, _⟩
      exact ⟨xs, y, w, hxs, ⟨n, hcall⟩, hf, hu⟩
    · rintro ⟨xs, y, w, hxs, ⟨n, hcall⟩, hf, hu⟩
      exact ⟨n, ⟨xs, y, w, hxs, hcall, hf, hu⟩, fun hfalse => by cases hfalse⟩
  | ret value => cases value <;> exact ⟨fun h => h.elim fun _ h => h.1, fun h => ⟨0, h, fun _ => rfl⟩⟩
  | _ => exact ⟨fun h => h.elim fun _ h => h.1, fun h => ⟨0, h, fun _ => rfl⟩⟩

lemma any_cost (h : ∀ id args w v w', calls id args w v w' ↔ ∃ n, costs n id args w v w')
    (c : Code) : (c.cost costs).any = c.step calls := by
  induction c with
  | done => exact any_free _
  | inst i predicate rest ih => rw [cost, step, any_seq, any_tick, any_guarded, any_inst_cost h, ih]
  | branch condition t e phis rest iht ihe ih =>
    rw [cost, step, any_seq, any_choose, any_seq, any_seq, any_free, any_free, iht, ihe, ih]
  | loop condition body phis rest ihb ih =>
    rw [cost, step, any_seq, any_seq, any_free, any_loops, any_tick, any_seq, any_free, ihb, ih]

variable {f : Flow} {s u : State} {c : Code}

lemma step_of_cost {n : Nat} (h : c.cost (fun _ => calls) n s f u) :
    c.step calls s f u := by
  rw [← any_cost fun _ _ _ _ _ => (exists_const Nat).symm]
  exact ⟨n, h⟩

lemma cost_of_step (h : c.step calls s f u) :
    ∃ n, c.cost (fun _ => calls) n s f u := by
  rwa [← any_cost fun _ _ _ _ _ => (exists_const Nat).symm] at h

lemma cost_append (costs : Nat → CallStep) (c d : Code) :
    (c.append d).cost costs = (c.cost costs).seq (d.cost costs) := by
  induction c with
  | done => rw [append, cost, skip_seq]
  | inst i p rest ih | branch c t e phis rest _ _ ih | loop c body phis rest _ ih =>
    rw [append, cost, cost, ih, ← Costed.seq_assoc]

end Code

end ActorNet
