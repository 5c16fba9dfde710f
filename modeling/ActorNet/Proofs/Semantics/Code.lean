import ActorNet.Proofs.Semantics.State

/-!
# Meaning of structured code

`Code` is the body of a procedure without handles and without the borders of blocks: instructions
with their predicates, conditionals and loops, each followed by the rest. `Code.step` is its
meaning, a relation between the state before, how the code ends, and the state after. There are no
limits and no counters: a loop runs as long as its condition holds, which `Loops` describes for any
body.
-/

namespace ActorNet

open List

variable {calls : CallStep} {c c' : Expr} {f : Flow} {r : Option Value} {s u : State} {a a' b b' : Step}

/-- Structured code. -/
inductive Code where
  | done
  | inst (i : Inst) (predicate : Option Expr) (rest : Code)
  | branch (condition : Expr) (thenCode elseCode : Code) (phis : List Phi) (rest : Code)
  | loop (condition : Expr) (body : Code) (phis : List Phi) (rest : Code)

/-- How code changes states: the state before, how it ends, and the state after. -/
abbrev Step := State → Flow → State → Prop

/-- How calls change what outlives them: the callee, the arguments, the world before, the result,
the world after. -/
abbrev CallStep := ProcId → List Value → World → Option Value → World → Prop

def Inst.isCall : Inst → Bool
  | .call _ _ _ => true
  | _ => false

namespace Step

/-- Nothing happens. -/
def skip : Step := fun s f u => f = .next ∧ u = s

/-- One thing after the other, unless the first one returns. -/
def seq (a b : Step) : Step := fun s f u =>
  (∃ t, a s .next t ∧ b t f u) ∨ (∃ v, f = .ret v ∧ a s (.ret v) u)

/-- Only if a predicate holds. -/
def guarded (predicate : Option Expr) (a : Step) : Step :=
  match predicate with
  | none => a
  | some p => fun s f u => (s.test p = some true ∧ a s f u) ∨ (s.test p = some false ∧ f = .next ∧ u = s)

/-- One of two, by a condition. -/
def choose (condition : Expr) (a b : Step) : Step := fun s f u =>
  (s.test condition = some true ∧ a s f u) ∨ (s.test condition = some false ∧ b s f u)

def join (edge : Edge) (phis : List Phi) : Step := fun s f u =>
  f = .next ∧ s.join edge phis = some u

/-- Again and again, as long as a condition holds. -/
inductive Loops (condition : Expr) (body : Step) : Step
  | stop {s : State} : s.test condition = some false → Loops condition body s .next s
  | again {s t u : State} {f : Flow} : s.test condition = some true → body s .next t →
      Loops condition body t f u → Loops condition body s f u
  | ret {s t : State} {v : Option Value} : s.test condition = some true → body s (.ret v) t →
      Loops condition body s (.ret v) t

/-! ## Laws of composition -/

@[simp] lemma skip_seq (a : Step) : skip.seq a = a := by
  funext s f u
  simp [seq, skip]

@[simp] lemma seq_skip (a : Step) : a.seq skip = a := by
  funext s f u
  simp only [seq, skip, eq_iff_iff]
  constructor
  · rintro (⟨t, ha, rfl, rfl⟩ | ⟨v, rfl, ha⟩) <;> exact ha
  · intro ha
    cases f with
    | next => exact .inl ⟨u, ha, rfl, rfl⟩
    | ret v => exact .inr ⟨v, rfl, ha⟩

lemma seq_assoc (a b c : Step) : (a.seq b).seq c = a.seq (b.seq c) := by
  funext s f u
  simp only [seq, eq_iff_iff]
  constructor
  · rintro (⟨t, ⟨r, ha, hb⟩ | ⟨v, h, ha⟩, hc⟩ | ⟨v, rfl, ⟨r, ha, hb⟩ | ⟨w, h, ha⟩⟩)
    · exact .inl ⟨r, ha, .inl ⟨t, hb, hc⟩⟩
    · cases h
    · exact .inl ⟨r, ha, .inr ⟨v, rfl, hb⟩⟩
    · cases h
      exact .inr ⟨v, rfl, ha⟩
  · rintro (⟨r, ha, ⟨t, hb, hc⟩ | ⟨v, rfl, hb⟩⟩ | ⟨v, rfl, ha⟩)
    · exact .inl ⟨t, .inl ⟨r, ha, hb⟩, hc⟩
    · exact .inr ⟨v, rfl, .inl ⟨r, ha, hb⟩⟩
    · exact .inr ⟨v, rfl, .inr ⟨v, rfl, ha⟩⟩

section

variable (ha : ∀ s f u, a s f u → a' s f u)
include ha

lemma seq_mono (hb : ∀ s f u, b s f u → b' s f u) (h : a.seq b s f u) : a'.seq b' s f u := by
  rcases h with ⟨t, h1, h2⟩ | ⟨v, rfl, h1⟩
  · exact .inl ⟨t, ha _ _ _ h1, hb _ _ _ h2⟩
  · exact .inr ⟨v, rfl, ha _ _ _ h1⟩

lemma guarded_mono {p : Option Expr} (s : State) (f : Flow) (u : State)
    (h : guarded p a s f u) : guarded p a' s f u := by
  cases p with
  | none => exact ha s f u h
  | some p => exact h.imp_left fun h => ⟨h.1, ha s f u h.2⟩

lemma choose_mono (hb : ∀ s f u, b s f u → b' s f u) (s : State) (f : Flow) (u : State)
    (h : choose c a b s f u) : choose c a' b' s f u :=
  h.imp (fun h => ⟨h.1, ha s f u h.2⟩) (fun h => ⟨h.1, hb s f u h.2⟩)

lemma loops_mono (s : State) (f : Flow) (u : State) (h : Loops c a s f u) : Loops c a' s f u := by
  induction h with
  | stop hc => exact .stop hc
  | again hc hbody _ ih => exact .again hc (ha _ _ _ hbody) ih
  | ret hc hbody => exact .ret hc (ha _ _ _ hbody)

end

/-- What is guarded runs, or nothing happens. -/
lemma guarded_cases {p : Option Expr} (h : guarded p a s f u) : a s f u ∨ f = .next ∧ u = s := by
  cases p with
  | none => exact .inl h
  | some p => exact h.imp And.right And.right

lemma Loops.exists_return (h : Loops c a s (.ret r) u) : ∃ s', a s' (.ret r) u := by
  generalize hf : Flow.ret r = f at h
  induction h with
  | stop _ => cases hf
  | again _ _ _ ih => exact ih hf
  | ret _ hbody =>
    cases hf
    exact ⟨_, hbody⟩

/-! ## Simulation -/

/-- What one thing does, another one does in every related state: the states afterwards are related
by `Q` if control goes on, and by `E` if the procedure returns. -/
def Sim (R Q E : State → State → Prop) (a b : Step) : Prop :=
  ∀ s s' f u, R s s' → a s f u → ∃ u', b s' f u' ∧ match f with
    | .next => Q u u'
    | .ret _ => E u u'

section Sim

variable {R Q S E : State → State → Prop}

lemma Sim.skip : Sim R R E skip skip := by
  intro s s' f u hs ⟨hf, hu⟩
  subst hf hu
  exact ⟨s', ⟨rfl, rfl⟩, hs⟩

lemma Sim.seq (ha : Sim R Q E a a') (hb : Sim Q S E b b') : Sim R S E (a.seq b) (a'.seq b') := by
  intro s s' f u hs h
  rcases h with ⟨t, h1, h2⟩ | ⟨v, hf, h1⟩
  · obtain ⟨t', h1', ht⟩ := ha s s' .next t hs h1
    obtain ⟨u', h2', hu⟩ := hb t t' f u ht h2
    exact ⟨u', .inl ⟨t', h1', h2'⟩, hu⟩
  · subst hf
    obtain ⟨u', h1', hu⟩ := ha s s' (.ret v) u hs h1
    exact ⟨u', .inr ⟨v, rfl, h1'⟩, hu⟩

lemma Sim.imp {Q' : State → State → Prop} (ha : Sim R Q E a a') (hQ : ∀ u u', Q u u' → Q' u u') : Sim R Q' E a a' := by
  intro s s' f u hs h
  obtain ⟨u', h', hu⟩ := ha s s' f u hs h
  refine ⟨u', h', ?_⟩
  cases f with
  | next => exact hQ u u' hu
  | ret v => exact hu

lemma Sim.choose (hc : ∀ s s', R s s' → ∀ x, s.test c = some x → s'.test c' = some x) (ha : Sim R Q E a a')
    (hb : Sim R Q E b b') : Sim R Q E (Step.choose c a b) (Step.choose c' a' b') := by
  intro s s' f u hs h
  rcases h with ⟨htest, h⟩ | ⟨htest, h⟩
  · obtain ⟨u', h', hu⟩ := ha s s' f u hs h
    exact ⟨u', .inl ⟨hc s s' hs true htest, h'⟩, hu⟩
  · obtain ⟨u', h', hu⟩ := hb s s' f u hs h
    exact ⟨u', .inr ⟨hc s s' hs false htest, h'⟩, hu⟩

/-- A loop is simulated if its body is; the induction is on the iterations. -/
lemma Sim.loops (hc : ∀ s s', R s s' → ∀ x, s.test c = some x → s'.test c' = some x)
    (ha : Sim R R E a a') : Sim R R E (Step.Loops c a) (Step.Loops c' a') := by
  intro s s' f u hs h
  induction h generalizing s' with
  | stop htest => exact ⟨s', .stop (hc _ _ hs false htest), hs⟩
  | again htest hbody _ ih =>
    obtain ⟨t', hbody', ht⟩ := ha _ s' .next _ hs hbody
    obtain ⟨u', hloop', hu⟩ := ih t' ht
    exact ⟨u', .again (hc _ _ hs true htest) hbody' hloop', hu⟩
  | ret htest hbody =>
    obtain ⟨u', hbody', hu⟩ := ha _ s' (.ret _) _ hs hbody
    exact ⟨u', .ret (hc _ _ hs true htest) hbody', hu⟩

end Sim

@[simp] lemma join_nil (edge : Edge) : join edge [] = skip := by
  funext s f u
  simp only [join, skip, State.join, State.phiValues, State.setAll, map_some, foldl_nil,
    Option.some.injEq, eq_iff_iff]
  exact and_congr_right fun _ => eq_comm

end Step

/-- What a single instruction does. -/
def Inst.step (calls : CallStep) : Inst → Step
  | .assign target value => fun s f u => ∃ x, s.eval value = some x ∧ f = .next ∧ u = s.set target x
  | .load target source indexes => fun s f u => ∃ x, s.load source indexes = some x ∧ f = .next ∧ u = s.set target x
  | .store target indexes value => fun s f u =>
    ∃ x y, s.eval value = some x ∧ s.stored target indexes x = some y ∧ f = .next ∧ u = s.write target y
  | .call target callee args => fun s f u =>
    ∃ xs y w, s.evalAll args = some xs ∧ calls callee xs s.toWorld y w ∧ f = .next ∧
      u = { s with toWorld := w }.bindResult target y
  | .phi target arms => fun s f u =>
    ∃ arm x, s.picks arms = some arm ∧ s.read arm.var = some x ∧ f = .next ∧ u = s.set target x
  | .ret (some value) => fun s f u => ∃ x, s.eval value = some x ∧ f = .ret (some x) ∧ u = s
  | .ret none => fun s f u => f = .ret none ∧ u = s
  | .cast source target ty => fun s f u => ∃ x, s.converted source ty = some x ∧ f = .next ∧ u = s.set target x

lemma Inst.isReturn_of_step {i : Inst} (h : i.step calls s (.ret r) u) : i.isReturn = true := by
  cases i with
  | ret value => rfl
  | _ => simp [Inst.step] at h

def Phi.inst (phi : Phi) : Inst := .phi phi.target phi.arms

namespace Code

/-- The meaning of code, given what calls do. -/
def step (calls : CallStep) : Code → Step
  | done => Step.skip
  | inst i predicate rest => (Step.guarded predicate (i.step calls)).seq (rest.step calls)
  | branch condition thenCode elseCode phis rest =>
    (Step.choose condition ((thenCode.step calls).seq (Step.join .thenEnd phis))
      ((elseCode.step calls).seq (Step.join .elseEnd phis))).seq (rest.step calls)
  | loop condition body phis rest =>
    ((Step.join .entry phis).seq (Step.Loops condition ((body.step calls).seq (Step.join .back phis)))).seq
      (rest.step calls)

/-- Code after code. -/
def append : Code → Code → Code
  | done, d => d
  | inst i predicate rest, d => inst i predicate (rest.append d)
  | branch condition t e phis rest, d => branch condition t e phis (rest.append d)
  | loop condition body phis rest, d => loop condition body phis (rest.append d)

/-- Instructions with their predicates, one after the other. -/
def ofLines : List (Inst × Option Expr) → Code
  | [] => done
  | line :: rest => inst line.1 line.2 (ofLines rest)

/-- All instructions in the order of the text: the phis of a conditional after its branches, those
of a loop before its body. -/
def insts : Code → List Inst
  | done => []
  | inst i _ rest => i :: rest.insts
  | branch _ t e phis rest => t.insts ++ e.insts ++ phis.map Phi.inst ++ rest.insts
  | loop _ body phis rest => phis.map Phi.inst ++ body.insts ++ rest.insts

def conditions : Code → List Expr
  | done => []
  | inst _ _ rest => rest.conditions
  | branch c t e _ rest => c :: (t.conditions ++ e.conditions ++ rest.conditions)
  | loop c body _ rest => c :: (body.conditions ++ rest.conditions)

/-- Every instruction, every conditional and every loop of the code has a property. -/
def Forall (line : Inst → Option Expr → Prop) (branches loops : Expr → List Phi → Prop) : Code → Prop
  | done => True
  | inst i predicate rest => line i predicate ∧ rest.Forall line branches loops
  | branch condition t e phis rest => branches condition phis ∧ t.Forall line branches loops ∧
      e.Forall line branches loops ∧ rest.Forall line branches loops
  | loop condition body phis rest =>
    loops condition phis ∧ body.Forall line branches loops ∧ rest.Forall line branches loops

@[simp] lemma append_done (c : Code) : c.append done = c := by
  induction c with
  | done => rfl
  | inst i p rest ih | branch c t e phis rest _ _ ih | loop c body phis rest _ ih => rw [append, ih]

lemma append_assoc (c d e : Code) : (c.append d).append e = c.append (d.append e) := by
  induction c with
  | done => rfl
  | inst i p rest ih | branch c t e phis rest _ _ ih | loop c body phis rest _ ih => rw [append, append, append, ih]

lemma step_append (calls : CallStep) (c d : Code) : (c.append d).step calls = (c.step calls).seq (d.step calls) := by
  induction c with
  | done => rw [append, step, Step.skip_seq]
  | inst i p rest ih | branch c t e phis rest _ _ ih => rw [append, step, step, ih, Step.seq_assoc]
  | loop c body phis rest _ ih => rw [append, step, step, ih, ← Step.seq_assoc]

lemma step_mono {calls' : CallStep} (h : ∀ id args w v w', calls id args w v w' →
    calls' id args w v w') (c : Code) (hstep : c.step calls s f u) : c.step calls' s f u := by
  induction c generalizing s f u with
  | done => exact hstep
  | inst i p rest ih =>
    refine Step.seq_mono (Step.guarded_mono ?_) (fun _ _ _ => ih) hstep
    intro s f u hi
    cases i with
    | call target callee args =>
      obtain ⟨xs, y, w, hxs, hcall, hf, hu⟩ := hi
      exact ⟨xs, y, w, hxs, h _ _ _ _ _ hcall, hf, hu⟩
    | ret value => cases value <;> exact hi
    | _ => exact hi
  | branch c t e phis rest iht ihe ih =>
    refine Step.seq_mono (Step.choose_mono ?_ ?_) (fun _ _ _ => ih) hstep
    · exact fun _ _ _ => Step.seq_mono (fun _ _ _ => iht) (fun _ _ _ hj => hj)
    · exact fun _ _ _ => Step.seq_mono (fun _ _ _ => ihe) (fun _ _ _ hj => hj)
  | loop c body phis rest ihb ih =>
    refine Step.seq_mono (fun _ _ _ => Step.seq_mono (fun _ _ _ hj => hj) (Step.loops_mono ?_)) (fun _ _ _ => ih) hstep
    exact fun _ _ _ => Step.seq_mono (fun _ _ _ => ihb) (fun _ _ _ hj => hj)

lemma ofLines_append (l m : List (Inst × Option Expr)) : ofLines (l ++ m) = (ofLines l).append (ofLines m) := by
  induction l with
  | nil => rfl
  | cons line rest ih => rw [cons_append, ofLines, ofLines, append, ih]

def ofInsts (insts : List Inst) : Code :=
  ofLines (insts.map fun i => (i, none))

lemma ofInsts_append (l m : List Inst) : ofInsts (l ++ m) = (ofInsts l).append (ofInsts m) := by
  rw [ofInsts, map_append, ofLines_append]
  rfl

lemma insts_append (c d : Code) : (c.append d).insts = c.insts ++ d.insts := by
  induction c with
  | done => rfl
  | inst i p rest ih => rw [append, insts, insts, ih, cons_append]
  | branch c t e phis rest _ _ ih | loop c body phis rest _ ih => simp only [append, insts, ih, List.append_assoc]

lemma insts_ofLines (l : List (Inst × Option Expr)) : (ofLines l).insts = l.map (·.1) := by
  induction l with
  | nil => rfl
  | cons line rest ih => rw [ofLines, insts, ih, map_cons]

lemma conditions_append (c d : Code) : (c.append d).conditions = c.conditions ++ d.conditions := by
  induction c with
  | done => rfl
  | inst i predicate rest ih => exact ih
  | branch c t e phis rest _ _ ih | loop c body phis rest _ ih =>
    simp only [append, conditions, ih, cons_append, List.append_assoc]

lemma conditions_ofLines (lines : List (Inst × Option Expr)) : (ofLines lines).conditions = [] := by
  induction lines with
  | nil => rfl
  | cons line rest ih => exact ih

lemma exists_return_of_step {c : Code} (h : c.step calls s (.ret r) u) : ∃ i ∈ c.insts, i.isReturn = true := by
  have hjoin : ∀ {a : Step} {edge : Edge} {phis : List Phi} {s u : State}, a.seq (Step.join edge phis) s (.ret r) u →
      ∃ s, a s (.ret r) u := by
    intro a edge phis s u h
    rcases h with ⟨t, _, hjoin⟩ | ⟨v, hv, ha⟩
    · cases hjoin.1
    · cases hv
      exact ⟨s, ha⟩
  induction c generalizing s u with
  | done => cases h.1
  | inst i predicate rest ih =>
    rcases h with ⟨t, _, hrest⟩ | ⟨v, hv, hi⟩
    · obtain ⟨j, hj, hret⟩ := ih hrest
      exact ⟨j, mem_cons_of_mem i hj, hret⟩
    · cases hv
      -- the instruction has run: a predicate that fails does not return
      rcases Step.guarded_cases hi with hstep | ⟨hnext, _⟩
      · exact ⟨i, mem_cons_self, Inst.isReturn_of_step hstep⟩
      · cases hnext
  | branch condition t e phis rest iht ihe ih =>
    simp only [insts, mem_append]
    rcases h with ⟨w, _, hrest⟩ | ⟨v, hv, hchoose⟩
    · obtain ⟨j, hj, hret⟩ := ih hrest
      exact ⟨j, .inr hj, hret⟩
    · cases hv
      rcases hchoose with ⟨_, h⟩ | ⟨_, h⟩
      · obtain ⟨_, h⟩ := hjoin h
        obtain ⟨j, hj, hret⟩ := iht h
        exact ⟨j, .inl (.inl (.inl hj)), hret⟩
      · obtain ⟨_, h⟩ := hjoin h
        obtain ⟨j, hj, hret⟩ := ihe h
        exact ⟨j, .inl (.inl (.inr hj)), hret⟩
  | loop condition body phis rest ihb ih =>
    simp only [insts, mem_append]
    rcases h with ⟨w, _, hrest⟩ | ⟨v, hv, hloop⟩
    · obtain ⟨j, hj, hret⟩ := ih hrest
      exact ⟨j, .inr hj, hret⟩
    · cases hv
      rcases hloop with ⟨w, _, hloops⟩ | ⟨v, _, hentry⟩
      · obtain ⟨s', hbody⟩ := Step.Loops.exists_return hloops
        obtain ⟨_, hbody⟩ := hjoin hbody
        obtain ⟨j, hj, hret⟩ := ihb hbody
        exact ⟨j, .inl (.inr hj), hret⟩
      · cases hentry.1

section Forall

variable {line line' line'' : Inst → Option Expr → Prop} {branches branches' branches'' : Expr → List Phi → Prop}
  {loops loops' loops'' : Expr → List Phi → Prop}

lemma Forall.and_imp {c : Code} (h : c.Forall line branches loops) (h' : c.Forall line' branches' loops')
    (hline : ∀ i p, line i p → line' i p → line'' i p)
    (hbranches : ∀ e phis, branches e phis → branches' e phis → branches'' e phis)
    (hloops : ∀ e phis, loops e phis → loops' e phis → loops'' e phis) : c.Forall line'' branches'' loops'' := by
  induction c with
  | done => exact trivial
  | inst i p rest ih => exact ⟨hline i p h.1 h'.1, ih h.2 h'.2⟩
  | branch c t e phis rest iht ihe ih =>
    exact ⟨hbranches c phis h.1 h'.1, iht h.2.1 h'.2.1, ihe h.2.2.1 h'.2.2.1, ih h.2.2.2 h'.2.2.2⟩
  | loop c body phis rest ihb ih => exact ⟨hloops c phis h.1 h'.1, ihb h.2.1 h'.2.1, ih h.2.2 h'.2.2⟩

lemma forall_insts {c : Code} {P : Inst → Prop} :
    c.Forall (fun i _ => P i) (fun _ phis => ∀ φ ∈ phis, P φ.inst)
      (fun _ phis => ∀ φ ∈ phis, P φ.inst) ↔ ∀ i ∈ c.insts, P i := by
  induction c with
  | done => simp [Forall, insts]
  | inst i p rest ih => rw [Forall, insts, forall_mem_cons, ih]
  | branch c t e phis rest iht ihe ih =>
    simp only [Forall, insts, forall_mem_append, forall_mem_map, iht, ihe, ih]
    exact ⟨fun ⟨h1, h2, h3, h4⟩ => ⟨⟨⟨h2, h3⟩, h1⟩, h4⟩, fun ⟨⟨⟨h2, h3⟩, h1⟩, h4⟩ => ⟨h1, h2, h3, h4⟩⟩
  | loop c body phis rest ihb ih => simp only [Forall, insts, forall_mem_append, forall_mem_map, ihb, ih, and_assoc]

lemma forall_of_insts {c : Code} {P : Inst → Prop} (h : ∀ i ∈ c.insts, P i) : c.Forall
    (fun i _ => P i) (fun _ phis => ∀ φ ∈ phis, P φ.inst) (fun _ phis => ∀ φ ∈ phis, P φ.inst) :=
  forall_insts.mpr h

lemma forall_append {c d : Code} : (c.append d).Forall line branches loops ↔
    c.Forall line branches loops ∧ d.Forall line branches loops := by
  induction c with
  | done => simp [append, Forall]
  | inst i p rest ih | branch c t e phis rest _ _ ih | loop c body phis rest _ ih =>
      simp only [append, Forall, ih, and_assoc]

lemma forall_ofLines {l : List (Inst × Option Expr)} :
    (ofLines l).Forall line branches loops ↔ ∀ x ∈ l, line x.1 x.2 := by
  induction l with
  | nil => simp [ofLines, Forall]
  | cons x rest ih => simp only [ofLines, Forall, ih, mem_cons, forall_eq_or_imp]

end Forall

end Code

end ActorNet
