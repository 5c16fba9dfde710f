import ActorNet.Proofs.Semantics.Calls
import ActorNet.Proofs.Semantics.Locals

/-!
# The trace is written and never read

A run adds the procedures that it enters to the trace and does not look at what is there. So a call
does the same over another trace, and adds the same procedures to it (`Actor.calls_shift`), its own
one first (`Actor.calls_entered`).
-/

namespace ActorNet

open Step

/-- Two states that differ in what their traces had in them at first. -/
structure State.Shifted (t t' : List ProcId) (s s' : State) : Prop where
  locals : s'.locals = s.locals
  globals : s'.globals = s.globals
  trace : ∃ entered, s.trace = entered ++ t ∧ s'.trace = entered ++ t'

namespace State.Shifted

variable {t t' : List ProcId} {s s' : State}

section

variable (h : Shifted t t' s s')
include h

lemma read (v : VarRef) : s'.read v = s.read v := by
  cases v with
  | loc id => exact congrFun h.locals id
  | glob id => simp only [State.read, h.globals]

lemma write (v : VarRef) (x : Value) : Shifted t t' (s.write v x) (s'.write v x) := by
  cases v with
  | loc id =>
    refine ⟨?_, h.globals, h.trace⟩
    simp only [State.write, State.set, h.locals]
  | glob id =>
    refine ⟨h.locals, ?_, h.trace⟩
    simp only [State.write, State.setGlobal, h.globals]

lemma setAll (bindings : List (LocalId × Value)) : Shifted t t' (s.setAll bindings) (s'.setAll bindings) := by
  induction bindings generalizing s s' with
  | nil => exact h
  | cons b rest ih => exact ih (h.write (.loc b.1) b.2)

lemma test (e : Expr) : s'.test e = s.test e :=
  State.test_congr fun v _ => h.read v

lemma evalAll {es : List Expr} {xs : List Value} (hxs : s.evalAll es = some xs) : s'.evalAll es = some xs := by
  refine State.evalAll_mono (fun v _ x hx => ?_) hxs
  rw [h.read v]
  exact hx

end

end State.Shifted

/-- Calls that do not look at the trace. -/
def CallStep.Shifts (calls : CallStep) (t t' : List ProcId) : Prop :=
  ∀ id args globals entered v w', calls id args ⟨globals, entered ++ t⟩ v w' →
    ∃ entered', w'.trace = entered' ++ t ∧ calls id args ⟨globals, entered ++ t'⟩ v ⟨w'.globals, entered' ++ t'⟩

variable {calls : CallStep} {t t' : List ProcId}

open State (Shifted)

lemma Inst.step_shifted (hcalls : calls.Shifts t t') (i : Inst) :
    Sim (Shifted t t') (Shifted t t') (Shifted t t') (i.step calls) (i.step calls) := by
  intro s s' f u hs h
  cases hcall : i.isCall with
  | false =>
    -- an instruction that is no call sees the variables alone
    have hreads : ∀ v ∈ i.reads, ∀ x, s.read v = some x → s'.read v = some x := by
      intro v _ x hx
      rw [hs.read v]
      exact hx
    rcases Inst.step_transfer calls hcall hreads h with ⟨v, x, _, rfl, rfl, h'⟩ | ⟨r, rfl, rfl, h'⟩
    · exact ⟨_, h', hs.write v x⟩
    · exact ⟨s', h', hs⟩
  | true =>
    cases i with
    | call target callee args =>
      obtain ⟨xs, y, w, hxs, hy, rfl, rfl⟩ := h
      obtain ⟨entered, htrace, htrace'⟩ := hs.trace
      have hworld : s.toWorld = ⟨s.globals, entered ++ t⟩ := by rw [← htrace]
      have hworld' : s'.toWorld = ⟨s.globals, entered ++ t'⟩ := by rw [← htrace', ← hs.globals]
      rw [hworld] at hy
      obtain ⟨entered', hw, hy'⟩ := hcalls _ _ _ _ _ _ hy
      rw [← hworld'] at hy'
      refine ⟨_, ⟨xs, y, _, hs.evalAll hxs, hy', rfl, rfl⟩, ?_⟩
      have hafter : Shifted t t' { s with toWorld := w } { s' with toWorld := ⟨w.globals, entered' ++ t'⟩ } :=
        ⟨hs.locals, rfl, entered', hw, rfl⟩
      cases target with
      | none => exact hafter
      | some id =>
        cases y with
        | none => exact hafter
        | some y => exact hafter.write (.loc id) y
    | _ => cases hcall

lemma Step.join_shifted (edge : Edge) (phis : List Phi) :
    Sim (Shifted t t') (Shifted t t') (Shifted t t') (join edge phis) (join edge phis) := by
  intro s s' f u hs ⟨hf, hu⟩
  subst hf
  obtain ⟨values, hvalues, rfl⟩ := map_eq_some_iff.mp hu
  have hvalues' : s'.phiValues edge phis = some values := by
    refine State.phiValues_mono (fun φ _ arm _ x hx => ?_) hvalues
    rw [hs.read]
    exact hx
  exact ⟨s'.setAll values, ⟨rfl, by rw [State.join, hvalues', map_some]⟩, hs.setAll values⟩

/-- Code does the same over another trace. The induction is on the code. -/
lemma Code.step_shifted (hcalls : calls.Shifts t t') (c : Code) :
    Sim (Shifted t t') (Shifted t t') (Shifted t t') (c.step calls) (c.step calls) := by
  have htest : ∀ (e : Expr) (s s' : State), Shifted t t' s s' → ∀ b, s.test e = some b → s'.test e = some b := by
    intro e s s' hs b hb
    rw [hs.test]
    exact hb
  induction c with
  | done => exact Sim.skip
  | inst i predicate rest ih =>
    refine Sim.seq ?_ ih
    cases predicate with
    | none => exact Inst.step_shifted hcalls i
    | some e => exact Sim.choose (htest e) (Inst.step_shifted hcalls i) Sim.skip
  | branch condition t e phis rest iht ihe ih =>
    refine Sim.seq (Sim.choose (htest condition) ?_ ?_) ih
    · exact iht.seq (join_shifted .thenEnd phis)
    · exact ihe.seq (join_shifted .elseEnd phis)
  | loop condition body phis rest ihb ih =>
    refine Sim.seq ((join_shifted .entry phis).seq (Sim.loops (htest condition) ?_)) ih
    exact ihb.seq (join_shifted .back phis)

lemma Actor.calls_shift (a : Actor) (k : Nat) (t t' : List ProcId) : (a.calls k).Shifts t t' := by
  induction k with
  | zero =>
    intro id args globals entered v w' h
    exact h.elim
  | succ k ih =>
    intro id args globals entered v w' ⟨p, tree, f, u, hp, hnative, hlen, ht, hstep, hv, hw'⟩
    have hs : Shifted t t' (World.enter ⟨globals, entered ++ t⟩ id p args)
        (World.enter ⟨globals, entered ++ t'⟩ id p args) := ⟨rfl, rfl, id :: entered, rfl, rfl⟩
    obtain ⟨u', hstep', hu⟩ := Code.step_shifted ih (tree.code p) _ _ f u hs hstep
    have hu : Shifted t t' u u' := by
      cases f <;> exact hu
    obtain ⟨entered', htrace, htrace'⟩ := hu.trace
    subst hw'
    refine ⟨entered', htrace, p, tree, f, u', hp, hnative, hlen, ht, hstep', hv, ?_⟩
    rw [← htrace', ← hu.globals]

lemma Actor.calls_entered {a : Actor} {k : Nat} {id : ProcId} {args : List Value} {w w' : World} {v : Option Value}
    (h : a.calls k id args w v w') : ∃ entered, w'.trace = entered ++ id :: w.trace := by
  cases k with
  | zero => exact h.elim
  | succ k =>
    obtain ⟨p, tree, f, u, _, _, _, _, hstep, _, rfl⟩ := h
    have hs : Shifted (id :: w.trace) (id :: w.trace) (w.enter id p args) (w.enter id p args) :=
      ⟨rfl, rfl, [], rfl, rfl⟩
    obtain ⟨u', _, hu⟩ := Code.step_shifted (a.calls_shift k _ _) (tree.code p) _ _ f u hs hstep
    have hu : Shifted (id :: w.trace) (id :: w.trace) u u' := by
      cases f <;> exact hu
    obtain ⟨entered, htrace, _⟩ := hu.trace
    exact ⟨entered, htrace⟩

end ActorNet
