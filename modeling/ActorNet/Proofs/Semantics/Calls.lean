import ActorNet.Proofs.Semantics.Machine
import ActorNet.Proofs.Structure.Transform
import ActorNet.Proofs.Structure.Verified

/-!
# Calls

`Actor.calls a k` is what calls of the procedures of `a` mean that nest to at most `k` levels, given
by the code of the procedures. A call that succeeds on the machine is such a call (`calls_of_call`),
and such a call succeeds on a machine with enough room (`call_of_calls`). With these two a
transformation of procedures is shown to preserve what calls do by comparing the meaning of code
alone.
-/

namespace ActorNet

open Context

open Machine (callTo)

variable {a' : Actor} {limits : Limits} {args : List Value} {m m' : Machine} {k : Nat}
  {v : Option Value} {id : ProcId} {p : Procedure} {t : Tree} {w' : World}

def World.enter (w : World) (id : ProcId) (p : Procedure) (args : List Value) : State :=
  ⟨⟨w.globals, id :: w.trace⟩, (Env.ofArgs p.params args).get?⟩

namespace Actor

def calls (a : Actor) : Nat → CallStep
  | 0 => fun _ _ _ _ _ => False
  | k + 1 => fun id args w v w' => ∃
      (p : Procedure) (t : Tree) (f : Flow) (u : State), a.proc? id = some p ∧ p.native = false ∧
      p.params.length = args.length ∧ t.Spans p ∧
      (t.code p).step (a.calls k) (w.enter id p args) f u ∧ v = f.result ∧ w' = u.toWorld

variable {a : Actor}

variable {call : ProcId → List Value → Run (Option Value)}

lemma yields_enter :
    Yields (Machine.enter a limits call id args) m v m' ↔
      ∃ p f env m1, a.proc? id = some p ∧ p.native = false ∧ p.params.length = args.length ∧ m.depth < limits.maxDepth ∧
        Yields (execBody ⟨a, limits, p, call⟩ (Env.ofArgs p.params args))
          { m with trace := id :: m.trace, depth := m.depth + 1 } (f, env) m1 ∧
        v = f.result ∧ m' = { m1 with depth := m1.depth - 1 } := by
  unfold Machine.enter
  cases hp : a.proc? id with
  | none => simp
  | some p =>
    cases hnative : p.native with
    | true => simp [hnative]
    | false =>
      by_cases hlen : p.params.length = args.length
      · simp only [hnative, Bool.false_eq_true, if_false, hlen, ne_eq, not_true_eq_false, yields_bind, yields_get]
        constructor
        · rintro ⟨m1, m2, ⟨hm1, hm2⟩, h⟩
          rw [hm1, hm2] at h
          by_cases hdepth : limits.maxDepth ≤ m.depth
          · rw [if_pos hdepth, yields_throw] at h
            exact h.elim
          · rw [if_neg hdepth] at h
            simp only [yields_bind, yields_modify, yields_leaving] at h
            obtain ⟨_, m2, hm2, ⟨f, env⟩, m3, ⟨m4, hbody, hm3⟩, h⟩ := h
            subst hm2 hm3
            refine ⟨p, f, env, m4, rfl, hnative, hlen, Nat.lt_of_not_le hdepth, hbody, ?_⟩
            cases f with
            | next | ret => exact yields_pure.mp h
        · rintro ⟨q, f, env, m1, hq, _, _, hdepth, hbody, hv, hm'⟩
          cases hq
          refine ⟨m, m, ⟨rfl, rfl⟩, ?_⟩
          rw [if_neg (Nat.not_le.mpr hdepth)]
          simp only [yields_bind, yields_modify, yields_leaving]
          refine ⟨(), _, rfl, (f, env), _, ⟨m1, hbody, rfl⟩, ?_⟩
          cases f with
          | next | ret => exact yields_pure.mpr ⟨hv, hm'⟩
      · simp [hnative, hlen]

/-- What calls mean and cost that nest to at most a number of levels. Entering a procedure costs no
step. -/
def costs (a : Actor) : Nat → Nat → CallStep
  | 0 => fun _ _ _ _ _ _ => False
  | k + 1 => fun n id args w v w' => ∃ (p : Procedure) (t : Tree) (f : Flow) (u : State), a.proc? id = some p ∧
      p.native = false ∧ p.params.length = args.length ∧ t.Spans p ∧
      (t.code p).cost (a.costs k) n (w.enter id p args) f u ∧ v = f.result ∧ w' = u.toWorld

variable {w : World}

lemma calls_iff_costs : a.calls k id args w v w' ↔ ∃ n, a.costs k n id args w v w' := by
  induction k generalizing id args w v w' with
  | zero => simp [calls, costs]
  | succ k ih =>
    simp only [calls, costs, ← Code.any_cost fun _ _ _ _ _ => ih]
    constructor
    · rintro ⟨p, t, f, u, hp, hnative, hlen, ht, ⟨n, hstep⟩, h⟩
      exact ⟨n, p, t, f, u, hp, hnative, hlen, ht, hstep, h⟩
    · rintro ⟨n, p, t, f, u, hp, hnative, hlen, ht, hstep, h⟩
      exact ⟨p, t, f, u, hp, hnative, hlen, ht, ⟨n, hstep⟩, h⟩

/-- The body of a procedure does on the machine what its code means. -/
lemma matches_execBody {H : Prop} {d : Nat} {costs : Nat → CallStep}
    (ht : t.Spans p)
    (hcalls : p.HasCall t.insts → CallsMatch H limits d call costs) :
    Matches H limits d (execBody ⟨a, limits, p, call⟩) ((t.code p).cost costs) := by
  unfold execBody
  rw [← ht.roots]
  exact matches_execEach (c := ⟨a, limits, p, call⟩) hcalls ht.sound.fits ht.sound.phis
    (Nat.le_succ_of_le ht.sound.height_le)

/-- Calls do on the machine what they mean and cost. On a machine where they may nest deeper they do
so as well. -/
lemma callsMatch_callTo (levels : Nat) {d : Nat} (hk : k ≤ levels) (hd : levels + d = limits.maxDepth) :
    CallsMatch (a.HasTrees ∧ k = levels) limits d (callTo a limits levels) (a.costs k) := by
  induction k generalizing levels d with
  | zero =>
    refine ⟨fun hH hm h => ?_, fun _ h => h.elim⟩
    obtain ⟨_, rfl⟩ := hH
    rw [callTo, yields_enter] at h
    obtain ⟨_, _, _, _, _, _, _, hdepth, _⟩ := h
    omega
  | succ k ih =>
    obtain _ | levels := levels
    · omega
    have ih := ih levels (d := d + 1) (by omega) (by omega)
    refine ⟨fun hH hm h => ?_, fun {id args m v w n} hm h hroom => ?_⟩
    · rw [callTo, yields_enter] at h
      obtain ⟨p, f, env, m1, hp, hnative, hlen, hdepth, hbody, hv, rfl⟩ := h
      obtain ⟨t, ht⟩ := hH.1 _ p hp
      obtain ⟨n, hstep, hroom, hdepth1, hsteps⟩ := (matches_execBody ht fun _ => ih).follows
        ⟨hH.1, Nat.succ.inj hH.2⟩ (congrArg (· + 1) hm) hbody
      refine ⟨n, ⟨p, t, f, _, hp, hnative, hlen, ht, hstep, hv, rfl⟩, hroom, ?_, hsteps⟩
      exact Nat.sub_eq_of_eq_add hdepth1
    · obtain ⟨p, t, f, u, hp, hnative, hlen, ht, hstep, hv, rfl⟩ := h
      obtain ⟨env, m1, hyield, rfl, hs⟩ := (matches_execBody ht fun _ => ih).performs
        (m := { m with trace := id :: m.trace, depth := m.depth + 1 }) (congrArg (· + 1) hm) hstep hroom
      refine ⟨{ m1 with depth := m1.depth - 1 }, ?_, rfl, hroom, Nat.sub_eq_of_eq_add hs.depth, hs.steps⟩
      rw [callTo, yields_enter]
      exact ⟨p, f, env, m1, hp, hnative, hlen, by omega, hyield, hv, rfl⟩

lemma yields_call : Yields (Machine.call a limits id args) m v m' ↔
      Yields (callTo a limits (limits.maxDepth - m.depth) id args) m v m' := by
  simp [Machine.call, and_assoc]

lemma depth_lt_of_call (h : (Machine.call a limits id args).on m = (.ok v, m')) : m.depth < limits.maxDepth := by
  have h := yields_call.mp h
  cases hl : limits.maxDepth - m.depth with
  | zero =>
    rw [hl, callTo, yields_enter] at h
    obtain ⟨_, _, _, _, _, _, _, hdepth, _⟩ := h
    exact hdepth
  | succ l => omega

/-- A call that succeeds is one that the procedures mean, and it takes as many steps as they
cost. -/
lemma costs_of_call (ha : a.HasTrees) (h : (Machine.call a limits id args).on m = (.ok v, m')) :
    ∃ n, a.costs (limits.maxDepth - m.depth) n id args m.world v m'.world ∧ Spent limits n m m' := by
  have hdepth := depth_lt_of_call h
  exact (callsMatch_callTo _ (Nat.le_refl _) (by omega)).follows ⟨ha, rfl⟩ rfl (yields_call.mp h)

lemma calls_of_call (ha : a.HasTrees) (h : (Machine.call a limits id args).on m = (.ok v, m')) :
    a.calls (limits.maxDepth - m.depth) id args m.world v m'.world := by
  obtain ⟨n, hcosts, _⟩ := costs_of_call ha h
  exact calls_iff_costs.mpr ⟨n, hcosts⟩

lemma depth_of_call (ha : a.HasTrees) (h : Yields (Machine.call a limits id args) m v m') : m'.depth = m.depth := by
  obtain ⟨_, _, hspent⟩ := costs_of_call ha h
  exact hspent.depth

/-- The locals with which the body of a called procedure ends, if it does. -/
def finalLocals? (a : Actor) (limits : Limits) (id : ProcId) (args : List Value) (m : Machine) : Option Env := do
  let p ← a.proc? id
  let c : Context := ⟨a, limits, p, Machine.callTo a limits (limits.maxDepth - (m.depth + 1))⟩
  let outcome := ((c.execBody (Env.ofArgs p.params args)).on { m with trace := id :: m.trace, depth := m.depth + 1 }).1
  return (← outcome.toOption).2

variable {f : Flow}

lemma finalLocals?_of_yields {levels : Nat} {env : Env} {m1 : Machine} (hp : a.proc? id = some p)
    (hlevels : limits.maxDepth - m.depth = levels + 1)
    (h : Yields (execBody ⟨a, limits, p, callTo a limits levels⟩ (Env.ofArgs p.params args))
      { m with trace := id :: m.trace, depth := m.depth + 1 } (f, env) m1) :
    a.finalLocals? limits id args m = some env := by
  obtain rfl : limits.maxDepth - (m.depth + 1) = levels := by omega
  unfold Yields at h
  simp only [finalLocals?, hp, Run.on, Option.bind_eq_bind, bind_some, h]
  rfl

section

variable (h : (Machine.call a limits id args).on m = (.ok v, m')) (hp : a.proc? id = some p)
  (ht : t.Spans p) (hfree : ¬ p.HasCall t.insts) (calls : CallStep)
include h hp ht hfree calls

/-- A call of a procedure without calls does what the code of the procedure means, whatever calls
mean, and ends with the locals with which the code ends. -/
lemma locals_of_call : p.native = false ∧ p.params.length = args.length ∧
    ∃ f u env, (t.code p).step calls (m.world.enter id p args) f u ∧ v = f.result ∧
      m'.world = u.toWorld ∧ a.finalLocals? limits id args m = some env ∧ u.locals = env.get? := by
  have hdepth := depth_lt_of_call h
  obtain ⟨levels, hlevels⟩ : ∃ levels, limits.maxDepth - m.depth = levels + 1 :=
    ⟨limits.maxDepth - (m.depth + 1), by omega⟩
  have henter := yields_call.mp h
  rw [hlevels, callTo] at henter
  obtain ⟨q, f, env, m1, hq, hnative, hlen, _, hbody, hv, hm'⟩ := yields_enter.mp henter
  cases hp.symm.trans hq
  have hlocals := finalLocals?_of_yields hp hlevels hbody
  have hmatch : Matches True limits (m.depth + 1)
      (execBody ⟨a, limits, p, callTo a limits levels⟩) ((t.code p).cost fun _ => calls) :=
    matches_execBody ht fun hcall => (hfree hcall).elim
  obtain ⟨_, hstep, _⟩ := hmatch.follows trivial rfl hbody
  subst hm'
  exact ⟨hnative, hlen, f, env.on m1, env, Code.step_of_cost hstep, hv, rfl, hlocals, rfl⟩

/-- A call of a procedure without calls does what the code of the procedure means, whatever calls
mean. -/
lemma step_of_call : p.native = false ∧
    p.params.length = args.length ∧ ∃ f u, (t.code p).step calls (m.world.enter id p args) f u ∧
      v = f.result ∧ m'.world = u.toWorld := by
  obtain ⟨hnative, hlen, f, u, _, hstep, hv, hworld, _⟩ := locals_of_call h hp ht hfree calls
  exact ⟨hnative, hlen, f, u, hstep, hv, hworld⟩

end

/-- A call that the procedures mean succeeds on every machine where the limits leave room for what
it costs. -/
lemma call_of_costs {n : Nat} (h : a.costs k n id args m.world v w')
    (hdepth : k + m.depth ≤ limits.maxDepth) (hroom : n = 0 ∨ m.steps + n ≤ limits.maxSteps) : ∃ m',
    (Machine.call a limits id args).on m = (.ok v, m') ∧ m'.world = w' ∧ Spent limits n m m' := by
  obtain ⟨m', hyield, h⟩ := (callsMatch_callTo (limits.maxDepth - m.depth) (by omega) (by omega)).performs rfl h hroom
  exact ⟨m', yields_call.mpr hyield, h⟩

lemma call_of_calls (h : a.calls k id args m.world v w') :
    ∃ bound, ∀ limits : Limits, k + m.depth ≤ limits.maxDepth → bound ≤ limits.maxSteps →
      ∃ m', (Machine.call a limits id args).on m = (.ok v, m') ∧ m'.world = w' := by
  obtain ⟨n, hn⟩ := calls_iff_costs.mp h
  refine ⟨m.steps + n, fun limits hdepth hsteps => ?_⟩
  obtain ⟨m', hcall, hw, _⟩ := call_of_costs hn hdepth (.inr hsteps)
  exact ⟨m', hcall, hw⟩

/-- What the code of a procedure does without calls where another one with its parameters is
entered, a call of the procedure does, if the limits leave enough room, and it ends with the locals
with which the code ends. -/
lemma call_locals_of_step {q : Procedure} {u : State} (hp : a.proc? id = some p) (hnative : p.native = false)
    (hparams : p.params = q.params) (hlen : q.params.length = args.length) (ht : t.Spans p) (hstep : (t.code p).step (fun _ _ _ _ _ => False) (m.world.enter id q args) f u) :
    ∃ bound, ∀ limits : Limits, m.depth < limits.maxDepth → bound ≤ limits.maxSteps →
      ∃ m' env, (Machine.call a limits id args).on m = (.ok f.result, m') ∧ m'.world = u.toWorld ∧
        a.finalLocals? limits id args m = some env ∧ u.locals = env.get? := by
  rw [World.enter, ← hparams] at hstep
  obtain ⟨n, hn⟩ := Code.cost_of_step hstep
  refine ⟨m.steps + n, fun limits hdepth hsteps => ?_⟩
  obtain ⟨levels, hlevels⟩ : ∃ levels, limits.maxDepth - m.depth = levels + 1 :=
    ⟨limits.maxDepth - (m.depth + 1), by omega⟩
  have hmatch : Matches False limits (m.depth + 1)
      (execBody ⟨a, limits, p, callTo a limits levels⟩) ((t.code p).cost fun _ _ _ _ _ _ => False) :=
    matches_execBody ht fun _ => ⟨False.elim, fun _ h => h.elim⟩
  obtain ⟨env, m1, hyield, rfl, _⟩ := hmatch.performs (m := { m with trace := id :: m.trace, depth := m.depth + 1 }) rfl
    hn (.inr hsteps)
  refine ⟨{ m1 with depth := m1.depth - 1 }, env, yields_call.mpr ?_, rfl, finalLocals?_of_yields hp hlevels hyield, rfl⟩
  rw [hlevels, callTo, yields_enter]
  exact ⟨p, f, env, m1, hp, hnative, hparams ▸ hlen, hdepth, hyield, rfl, rfl⟩

lemma calls_le {k' : Nat} (hk : k ≤ k') : ∀ id args w v w', a.calls k id args w v w' → a.calls k' id args w v w' := by
  induction k generalizing k' with
  | zero => exact fun _ _ _ _ _ hcall => hcall.elim
  | succ k ih =>
    obtain ⟨k', rfl⟩ : ∃ l, k' = l + 1 := ⟨k' - 1, by omega⟩
    intro id args w v w' ⟨p, t, f, u, hp, hnative, hlen, ht, hstep, hv, hw'⟩
    exact ⟨p, t, f, u, hp, hnative, hlen, ht, Code.step_mono (ih (by omega)) _ hstep, hv, hw'⟩

/-- What a call returns can be read off its outcome. -/
lemma returns_int {outcome : Except Fault (Option Value) × Machine} {n : Int64}
    (h : (outcome.1.toOption.join.bind fun v => (v.toInt "").toOption) = some n) :
    ∃ m, outcome = (.ok (some (.int n)), m) := by
  obtain ⟨v, hv, hn⟩ := bind_eq_some_iff.mp h
  rw [Option.join_eq_some_iff, State.toOption_eq_some] at hv
  rw [State.toOption_eq_some, Value.toInt_ok] at hn
  refine ⟨outcome.2, Prod.ext ?_ rfl⟩
  rw [hv, hn]

/-! ## Refinement -/

/-- Whatever one procedure does when it is entered, the other can do as well. -/
def Refines (p p' : Procedure) : Prop :=
  p'.native = false ∧ p'.params = p.params ∧ ∀ t : Tree, t.Spans p →
    ∃ t' : Tree, t'.Spans p' ∧ ∀ (calls : CallStep) (w : World) (id : ProcId) (args : List Value)
      (f : Flow) (u : State), (t.code p).step calls (w.enter id p args) f u →
        ∃ f' u', (t'.code p').step calls (w.enter id p args) f' u' ∧ f'.result = f.result ∧ u'.toWorld = u.toWorld

lemma calls_mono (h : ∀ id p, a.proc? id = some p → p.native = false → ∃ p', a'.proc? id = some p' ∧
    Refines p p') : ∀ id args w v w', a.calls k id args w v w' → a'.calls k id args w v w' := by
  induction k with
  | zero => exact fun _ _ _ _ _ hcall => hcall
  | succ k ih =>
    intro id args w v w' ⟨p, t, f, u, hp, hnative, hlen, ht, hstep, hv, hw'⟩
    obtain ⟨p', hp', hnative', hparams, hrefines⟩ := h id p hp hnative
    obtain ⟨t', ht', hsim⟩ := hrefines t ht
    obtain ⟨f', u', hstep', hf', hu'⟩ := hsim _ w id args f u hstep
    refine ⟨p', t', f', u', hp', hnative', ?_, ht', ?_, ?_, ?_⟩
    · rw [hparams]
      exact hlen
    · have henter : w.enter id p' args = w.enter id p args := by rw [World.enter, World.enter, hparams]
      rw [henter]
      exact Code.step_mono ih _ hstep'
    · rw [hf']
      exact hv
    · rw [hu']
      exact hw'

lemma calls_of_extends (h : ∀ id p, a.proc? id = some p → a'.proc? id = some p)
    (hcall : a.calls k id args w v w') : a'.calls k id args w v w' := by
  refine calls_mono (fun id p hp hnative => ⟨p, h id p hp, hnative, rfl, fun t ht => ?_⟩) _ _ _ _ _ hcall
  exact ⟨t, ht, fun _ _ _ _ f u hstep => ⟨f, u, hstep, rfl, rfl⟩⟩

/-- If a transformation leaves each procedure one that does what it did, then every call that
succeeds succeeds after it with the same outcome, if the limits are not reached. -/
lemma call_of_transformProcs {act : Transform Nat} {n : Nat} (ha : a.HasTrees)
    (hact : a.transformProcs act = (.ok n, a'))
    (h : ∀ id p, a.proc? id = some p → p.native = false → ∀ k p', Yields act p k p' → Refines p p')
    (hcall : (Machine.call a limits id args).on m = (.ok v, m')) :
    ∃ bound, ∀ limits' : Limits, limits.maxDepth ≤ limits'.maxDepth → bound ≤ limits'.maxSteps →
      ∃ m'', (Machine.call a' limits' id args).on m = (.ok v, m'') ∧ m''.globals = m'.globals ∧
        m''.trace = m'.trace := by
  have hrefines : ∀ id p, a.proc? id = some p → p.native = false → ∃ p', a'.proc? id = some p' ∧ Refines p p' := by
    intro id p hp hnative
    obtain ⟨p', hp', _, hyield⟩ := proc?_of_transformProcs hact hp
    obtain ⟨k, hk⟩ := hyield hnative
    exact ⟨p', hp', h id p hp hnative k p' hk⟩
  have hdepth : m.depth < limits.maxDepth := depth_lt_of_call hcall
  obtain ⟨bound, hbound⟩ := call_of_calls (calls_mono hrefines _ _ _ _ _ (calls_of_call ha hcall))
  refine ⟨bound, fun limits' hd hs => ?_⟩
  obtain ⟨m'', hcall', hworld⟩ := hbound limits' (by omega) hs
  exact ⟨m'', hcall', congrArg World.globals hworld, congrArg World.trace hworld⟩

end Actor

end ActorNet
