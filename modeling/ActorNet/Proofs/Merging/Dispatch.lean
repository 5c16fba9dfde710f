import ActorNet.Proofs.Merging.Steps
import ActorNet.Proofs.Semantics.Trace
import ActorNet.Proofs.Structure.Sites

/-!
# The body of a merged action

The dispatch procedure of a group of actions is a chain of conditionals: each calls the scheduler of
an action into a local of its own and, if the answer is `true`, the body of the action; otherwise
the next link of the chain decides. `Dispatch.chain` is the containment tree of the conditionals and
`Dispatch.code` what they mean. A call of the procedure does what the schedulers and the bodies do
that are called one after the other until one answers `true` (`Actor.calls_dispatch`).
-/

namespace ActorNet

open Context List Procedure State Tree

variable {b known : Actor} {limits : Limits} {group : List Action} {merges : List Merge} {m m' : Machine}
  {i j k left : Nat} {id : ProcId} {name : String} {α β : Type} {w' : World}

/-! ## Tables of equal rows -/

lemma getElem?_flatMap_rows {f : α → List β} (hf : ∀ x, (f x).length = k) (l : List α) (i : Nat)
    (hj : j < k) : (l.flatMap f)[k * i + j]? = l[i]?.bind fun x => (f x)[j]? := by
  induction l generalizing i with
  | nil => simp
  | cons x rest ih =>
    rw [flatMap_cons]
    cases i with
    | zero =>
      rw [getElem?_append_left (by rw [hf]; omega)]
      simp
    | succ i =>
      rw [getElem?_append_right (by rw [hf, Nat.mul_succ]; omega), hf, getElem?_cons_succ, ← ih i]
      congr 1
      rw [Nat.mul_succ]
      omega

lemma length_flatMap_rows {f : α → List β} (hf : ∀ x, (f x).length = k) (l : List α) :
    (l.flatMap f).length = k * l.length := by
  induction l with
  | nil => simp
  | cons x rest ih =>
    rw [flatMap_cons, length_append, hf, ih, length_cons, Nat.mul_succ]
    omega

/-! ## The tables of the dispatch procedure -/

namespace Dispatch

variable (known : Actor) (name : String) {actions : List Action} {x : Action}

lemma length_nodes (count i : Nat) : (nodes count i).length = 4 := rfl

lemma length_calls (y : Action × Nat) : (calls y.2 y.1).length = 2 := rfl

lemma length_rows_nodes (count : Nat) : ((List.range count).flatMap (nodes count)).length = 4 * count := by
  rw [length_flatMap_rows (length_nodes count), length_range]

lemma length_rows_calls (actions : List Action) :
    (actions.zipIdx.flatMap fun y => calls y.2 y.1).length = 2 * actions.length := by
  rw [length_flatMap_rows length_calls, length_zipIdx]

lemma node?_row (hi : i < actions.length) (hj : j < 4) :
    (dispatch known name actions).node? ⟨4 * i + j⟩ = (nodes actions.length i)[j]? := by
  have hlength := length_rows_nodes actions.length
  simp only [node?, dispatch, Arena.get?_full]
  rw [getElem?_append_left (by omega), getElem?_flatMap_rows (length_nodes _) _ i hj, getElem?_range hi]
  rfl

lemma node?_last : (dispatch known name actions).node? ⟨4 * actions.length⟩ = some (.block [⟨2 * actions.length⟩]) := by
  have hlength := length_rows_nodes actions.length
  simp only [node?, dispatch, Arena.get?_full]
  rw [getElem?_append_right (by omega), hlength]
  simp

lemma inst?_row (hx : actions[i]? = some x) (hj : j < 2) :
    (dispatch known name actions).inst? ⟨2 * i + j⟩ = (calls i x)[j]? := by
  have hi := (List.getElem?_eq_some_iff.mp hx).1
  have hlength := length_rows_calls actions
  simp only [inst?, dispatch, Arena.get?_full]
  rw [getElem?_append_left (by omega), getElem?_flatMap_rows length_calls _ i hj, getElem?_zipIdx, hx]
  simp

lemma inst?_last : (dispatch known name actions).inst? ⟨2 * actions.length⟩ =
    some { inst := .ret none, block := ⟨4 * actions.length⟩ } := by
  have hlength := length_rows_calls actions
  simp only [inst?, dispatch, Arena.get?_full]
  rw [getElem?_append_right (by omega), hlength]
  simp

/-! ## The tree -/

def chain : Nat → Nat → Tree
  | 0, _ => .nil
  | left + 1, i => .block ⟨4 * i⟩ [⟨2 * i⟩]
      (.branch ⟨4 * i + 2⟩ (.block ⟨4 * i + 3⟩ [⟨2 * i + 1⟩] .nil) (chain left (i + 1)) ⟨4 * i + 1⟩ [] .nil)

def tree (count : Nat) : Tree :=
  (chain count 0).append (.block ⟨4 * count⟩ [⟨2 * count⟩] .nil)

lemma roots_tree : (tree actions.length).roots = (dispatch known name actions).body := by
  cases actions with
  | nil => rfl
  | cons x rest => simp [tree, chain, append, roots, dispatch]

lemma mem_chain_nodes {n : NodeId} (h : n ∈ (chain left i).nodes) : 4 * i ≤ n.index ∧ n.index < 4 * (i + left) := by
  induction left generalizing i with
  | zero => cases h
  | succ left ih =>
    simp only [chain, Tree.nodes, mem_cons, mem_append, not_mem_nil, or_false] at h
    rcases h with rfl | rfl | (rfl | h) | rfl
    · simp only
      omega
    · simp only
      omega
    · simp only
      omega
    · have := ih h
      omega
    · simp only
      omega

lemma mem_chain_insts {j : InstId} (h : j ∈ (chain left i).insts) : 2 * i ≤ j.index ∧ j.index < 2 * (i + left) := by
  induction left generalizing i with
  | zero => cases h
  | succ left ih =>
    simp only [chain, Tree.insts, mem_append, mem_singleton, not_mem_nil, or_false] at h
    rcases h with rfl | rfl | h
    · simp only
      omega
    · simp only
      omega
    · have := ih h
      omega

/-- The links of the chain are held by the tables. The induction is on the number of links that are
left. -/
lemma sound_chain (h : i + left = actions.length) : (chain left i).Sound (dispatch known name actions) := by
  induction left generalizing i with
  | zero => exact sound_nil
  | succ left ih =>
    have hi : i < actions.length := by omega
    have hx : actions[i]? = some actions[i] := getElem?_eq_getElem hi
    have hrest : (chain left (i + 1)).Sound (dispatch known name actions) := ih (by omega)
    -- the row of this position
    have hcheck := node?_row known name hi (show 0 < 4 by omega)
    have hjoin := node?_row known name hi (show 1 < 4 by omega)
    have hbranch := node?_row known name hi (show 2 < 4 by omega)
    have hfire := node?_row known name hi (show 3 < 4 by omega)
    have hscheduler := inst?_row known name hx (show 0 < 2 by omega)
    have hbody := inst?_row known name hx (show 1 < 2 by omega)
    have hnext : (if i + 1 < actions.length then [⟨4 * i + 4⟩, ⟨4 * i + 6⟩] else []) = (chain left (i + 1)).roots := by
      cases left with
      | zero => rw [if_neg (by omega), chain, roots]
      | succ left =>
        rw [if_pos (by omega), chain, roots, roots, roots]
        rfl
    simp only [nodes, hnext] at hbranch
    have hchecks : (block ⟨4 * i⟩ [⟨2 * i⟩] .nil).Sound (dispatch known name actions) :=
      sound_block.mpr ⟨hcheck, nodup_singleton _, fun j hj => ⟨_, mem_singleton.mp hj ▸ hscheduler, rfl⟩⟩
    have hfires : (block ⟨4 * i + 3⟩ [⟨2 * i + 1⟩] .nil).Sound (dispatch known name actions) :=
      sound_block.mpr ⟨hfire, nodup_singleton _, fun j hj => ⟨_, mem_singleton.mp hj ▸ hbody, rfl⟩⟩
    have hjoinAt : Tree.JoinAt (dispatch known name actions) ⟨4 * i + 1⟩ [] := by
      refine ⟨?_, ⟨_, hjoin⟩, by simp, by simp⟩
      rw [blockInsts, hjoin]
      rfl
    -- the later links take later rows
    have hnodes : ∀ n < 4 * i + 4, NodeId.mk n ∉ (chain left (i + 1)).nodes := by
      intro n hn hmem
      have : 4 * (i + 1) ≤ n := (mem_chain_nodes hmem).1
      omega
    have hinsts : ∀ j < 2 * i + 2, InstId.mk j ∉ (chain left (i + 1)).insts := by
      intro j hj hmem
      have : 2 * (i + 1) ≤ j := (mem_chain_insts hmem).1
      omega
    have hif : (branch ⟨4 * i + 2⟩ (.block ⟨4 * i + 3⟩ [⟨2 * i + 1⟩] .nil) (chain left (i + 1)) ⟨4 * i + 1⟩ []
        .nil).Sound (dispatch known name actions) := by
      refine sound_branch.mpr ⟨⟨_, hbranch⟩, hfires, hrest, hjoinAt, ?_, ?_⟩
      · simp only [Tree.nodes, cons_append, nil_append, nodup_cons, mem_cons, not_or,
          hrest.nodes_nodup, and_true, NodeId.mk.injEq]
        exact ⟨⟨by omega, by omega, hnodes _ (by omega)⟩, ⟨by omega, hnodes _ (by omega)⟩, hnodes _ (by omega)⟩
      · simp only [Tree.insts, cons_append, nil_append, nodup_cons, hrest.insts_nodup, and_true]
        exact hinsts _ (by omega)
    refine sound_append.mpr ⟨hchecks, hif, fun n hn => ?_, fun j hj => ?_⟩
    · rw [Tree.nodes, Tree.nodes, mem_singleton] at hn
      subst hn
      simp only [Tree.nodes, mem_cons, mem_append, not_mem_nil, or_false, NodeId.mk.injEq, not_or]
      exact ⟨by omega, ⟨by omega, hnodes _ (by omega)⟩, by omega⟩
    · rw [Tree.insts, Tree.insts, List.append_nil, mem_singleton] at hj
      subst hj
      simp only [Tree.insts, List.append_nil, mem_append, mem_singleton, InstId.mk.injEq, not_or]
      exact ⟨by omega, hinsts _ (by omega)⟩

lemma spans_tree : (tree actions.length).Spans (dispatch known name actions) := by
  refine ⟨roots_tree known name, sound_append.mpr ⟨sound_chain known name (by omega), ?_,
    fun n hn hn' => ?_, fun j hj hj' => ?_⟩⟩
  · refine sound_block.mpr ⟨node?_last known name, nodup_singleton _, fun j hj => ?_⟩
    exact ⟨_, mem_singleton.mp hj ▸ inst?_last known name, rfl⟩
  · have := mem_chain_nodes hn
    rw [Tree.nodes, Tree.nodes, mem_singleton] at hn'
    subst hn'
    simp only at this
    omega
  · have := mem_chain_insts hj
    rw [Tree.insts, Tree.insts, List.append_nil, mem_singleton] at hj'
    subst hj'
    simp only at this
    omega

/-! ## The code -/

/-- What the links of the chain do, from a position on. -/
def code : Nat → List Action → Code
  | _, [] => .done
  | i, x :: rest => .inst (.call (some ⟨i⟩) x.scheduler []) none
      (.branch (.var (.loc ⟨i⟩)) (.inst (.call none x.body []) none .done) (code (i + 1) rest) [] .done)

lemma code_chain {rest : List Action} (h : actions.drop i = rest) :
    (chain rest.length i).code (dispatch known name actions) = code i rest := by
  induction rest generalizing i with
  | nil => rfl
  | cons x rest ih =>
    have hx : actions[i]? = some x := by
      rw [← head?_drop, h]
      rfl
    have hi := (List.getElem?_eq_some_iff.mp hx).1
    have hrest : actions.drop (i + 1) = rest := by
      rw [← tail_drop, h]
      rfl
    have hscheduler := inst?_row known name hx (show 0 < 2 by omega)
    have hbody := inst?_row known name hx (show 1 < 2 by omega)
    have hbranch := node?_row known name hi (show 2 < 4 by omega)
    simp only [Nat.add_zero] at hscheduler
    simp only [length_cons, chain, Tree.code, filterMap_cons, filterMap_nil, line?, hscheduler,
      hbody, condition, hbranch, ih hrest]
    rfl

lemma code_tree : (tree actions.length).code (dispatch known name actions) =
    (code 0 actions).append (.inst (.ret none) none .done) := by
  rw [tree, code_append, code_chain known name (drop_zero)]
  congr 1
  simp only [Tree.code, filterMap_cons, filterMap_nil, line?, inst?_last known name]
  rfl

end Dispatch

/-! ## The first action that may fire -/

/-- Fire the first action whose scheduler answers `true`: the schedulers are called in order until
one does, and then the body of its action, and nothing after it. An answer that is no truth value is
a failure. -/
def Machine.fireFirst (actor : Actor) (limits : Limits) : List Action → Run Unit
  | [] => return ()
  | x :: rest => do
    match ← call actor limits x.scheduler [] with
    | some (.bool true) => fire actor limits x
    | some (.bool false) => fireFirst actor limits rest
    | _ => throw (.mismatch x.name "bool" "no truth value")

def CallStep.FiresFirst (calls : CallStep) : List Action → World → World → Prop
  | [], w, w' => w' = w
  | x :: rest, w, w' => ∃ w₁,
    (calls x.scheduler [] w (some (.bool true)) w₁ ∧ ∃ v, calls x.body [] w₁ v w') ∨
      (calls x.scheduler [] w (some (.bool false)) w₁ ∧ calls.FiresFirst rest w₁ w')

namespace CallStep.FiresFirst

variable {calls : CallStep}

/-- What is entered on the way does not depend on what the trace was before. -/
lemma shift {t t' entered : List ProcId} (hcalls : calls.Shifts t t') {globals : List (Option Value)}
    (h : calls.FiresFirst group ⟨globals, entered ++ t⟩ w') : ∃ entered', w'.trace = entered' ++ t ∧
      calls.FiresFirst group ⟨globals, entered ++ t'⟩ ⟨w'.globals, entered' ++ t'⟩ := by
  induction group generalizing entered globals with
  | nil =>
    cases h
    exact ⟨entered, rfl, rfl⟩
  | cons x rest ih =>
    obtain ⟨⟨globals1, trace1⟩, ⟨hanswer, v, hbody⟩ | ⟨hanswer, hrest⟩⟩ := h
    · obtain ⟨entered1, rfl, hanswer'⟩ := hcalls _ _ _ _ _ _ hanswer
      obtain ⟨entered', htrace, hbody'⟩ := hcalls _ _ _ _ _ _ hbody
      exact ⟨entered', htrace, _, .inl ⟨hanswer', v, hbody'⟩⟩
    · obtain ⟨entered1, rfl, hanswer'⟩ := hcalls _ _ _ _ _ _ hanswer
      obtain ⟨entered', htrace, hrest'⟩ := ih hrest
      exact ⟨entered', htrace, _, .inr ⟨hanswer', hrest'⟩⟩

/-- The links of the chain do it. The induction is on the actions that are left. -/
lemma code_step {s : State} (h : calls.FiresFirst group s.toWorld w') :
    ∃ u, (Dispatch.code i group).step calls s .next u ∧ u.toWorld = w' := by
  induction group generalizing i s with
  | nil => exact ⟨s, ⟨rfl, rfl⟩, h.symm⟩
  | cons x rest ih =>
    -- the answer of the scheduler is in the local of this position when the conditional reads it
    have hcall : ∀ b w₁, calls x.scheduler [] s.toWorld (some (.bool b)) w₁ →
        (Inst.call (some ⟨i⟩) x.scheduler []).step calls s .next (set ⟨w₁, s.locals⟩ ⟨i⟩ (.bool b)) :=
      fun b w₁ h => ⟨[], some (.bool b), w₁, rfl, h, rfl, rfl⟩
    have htest : ∀ b w₁, (set ⟨w₁, s.locals⟩ ⟨i⟩ (.bool b)).test (.var (.loc ⟨i⟩)) = some b := by
      intro b w₁
      rw [test_eq_some, eval_var, read_loc, set_locals_self]
    obtain ⟨w₁, ⟨hanswer, v, hbody⟩ | ⟨hanswer, hrest⟩⟩ := h
    · have hfire : (Inst.call none x.body []).step calls (set ⟨w₁, s.locals⟩ ⟨i⟩ (.bool true)) .next
          ⟨w', (set ⟨w₁, s.locals⟩ ⟨i⟩ (.bool true)).locals⟩ := ⟨[], v, w', rfl, hbody, rfl, rfl⟩
      refine ⟨⟨w', (set ⟨w₁, s.locals⟩ ⟨i⟩ (.bool true)).locals⟩, .inl ⟨_, hcall true w₁ hanswer, ?_⟩, rfl⟩
      simp only [Code.step, Step.join_nil, Step.seq_skip, Step.guarded]
      exact .inl ⟨htest true w₁, hfire⟩
    · obtain ⟨u, hu, hw'⟩ := ih (i := i + 1) (s := set ⟨w₁, s.locals⟩ ⟨i⟩ (.bool false)) hrest
      refine ⟨u, .inl ⟨_, hcall false w₁ hanswer, ?_⟩, hw'⟩
      simp only [Code.step, Step.join_nil, Step.seq_skip, Step.guarded]
      exact .inr ⟨htest false w₁, hu⟩

end CallStep.FiresFirst

namespace Actor

variable {a : Actor}

/-- A call of the dispatch procedure does what firing the first action that may fire does, after its
own entry. -/
theorem calls_dispatch (hp : a.proc? id = some (.dispatch known name group)) {w : World}
    (h : (a.calls k).FiresFirst group ⟨w.globals, id :: w.trace⟩ w') : a.calls (k + 1) id [] w none w' := by
  obtain ⟨u, hu, hw'⟩ := h.code_step (i := 0) (s := w.enter id (.dispatch known name group) [])
  refine ⟨_, Dispatch.tree group.length, .ret none, u, hp, rfl, rfl, Dispatch.spans_tree known name,
    ?_, rfl, hw'.symm⟩
  rw [Dispatch.code_tree, Code.step_append]
  exact .inl ⟨u, hu, .inr ⟨none, rfl, rfl, rfl⟩⟩

lemma firesFirst_of_fireFirst (ha : a.HasTrees) (h : Yields (Machine.fireFirst a limits group) m () m') :
    (a.calls (limits.maxDepth - m.depth)).FiresFirst group m.world m'.world := by
  induction group generalizing m with
  | nil =>
    rw [(yields_pure.mp h).2]
    rfl
  | cons x rest ih =>
    simp only [Machine.fireFirst, yields_bind] at h
    obtain ⟨answer, m₁, hanswer, h⟩ := h
    have hdepth := depth_of_call ha hanswer
    refine ⟨m₁.world, ?_⟩
    split at h
    · simp only [Machine.fire, yields_bind, yields_pure] at h
      obtain ⟨v, m2, hbody, _, rfl⟩ := h
      have hcall := calls_of_call ha hbody
      rw [hdepth] at hcall
      exact .inl ⟨calls_of_call ha hanswer, v, hcall⟩
    · have hrest := ih h
      rw [hdepth] at hrest
      exact .inr ⟨calls_of_call ha hanswer, hrest⟩
    · exact (yields_throw.mp h).elim

/-! ## Merged actions -/

/-- The body of the procedure that returns `true` takes two steps. -/
lemma execBody_alwaysTrue (name : String) (call : ProcId → List Value → Run (Option Value)) (m : Machine)
    (hsteps : m.steps + 2 ≤ limits.maxSteps) : Yields (execBody ⟨a, limits, .alwaysTrue name, call⟩ []) m
      (.ret (some (.bool true)), [(⟨0⟩, .bool true)]) { m with steps := m.steps + 2 } := by
  have hassign : (alwaysTrue name).inst? ⟨0⟩ = some { inst := .assign ⟨0⟩ (.bool true), block := ⟨0⟩ } := rfl
  have hret : (alwaysTrue name).inst? ⟨1⟩ =
      some { inst := .ret (some (.var (.loc ⟨0⟩))), block := ⟨0⟩ } := rfl
  have hinsts : Yields (execInsts ⟨a, limits, .alwaysTrue name, call⟩ false [] [⟨0⟩, ⟨1⟩]) m
      (.ret (some (.bool true)), [(⟨0⟩, .bool true)]) { m with steps := m.steps + 2 } := by
    simp only [execInsts, hassign, hret, Bool.false_and, Bool.false_eq_true, if_false, holds,
      execInst, yields_bind, yields_step, yields_pure]
    -- the local is bound in the first step and read in the second one
    refine ⟨(), _, ⟨by omega, rfl⟩, true, _, ⟨rfl, rfl⟩, ?_⟩
    simp only [if_true, yields_bind, yields_pure, yields_eval]
    refine ⟨(.next, [(⟨0⟩, .bool true)]), _, ⟨.bool true, _, ⟨rfl, rfl⟩, rfl, rfl⟩, ?_⟩
    simp only [yields_bind, yields_step, yields_pure]
    refine ⟨(), _, ⟨by omega, rfl⟩, true, _, ⟨rfl, rfl⟩, ?_⟩
    simp only [if_true, yields_bind, yields_pure, yields_eval]
    exact ⟨_, _, ⟨.bool true, _, ⟨rfl, rfl⟩, rfl, rfl⟩, rfl⟩
  exact yields_andThen.mpr (.inr ⟨_, rfl, hinsts⟩)

/-- The scheduler of a merged action answers `true` in every state and changes none. -/
lemma call_alwaysTrue (hp : a.proc? id = some (.alwaysTrue name)) (hdepth : m.depth < limits.maxDepth)
    (hsteps : m.steps + 2 ≤ limits.maxSteps) : (Machine.call a limits id []).on m =
      (.ok (some (.bool true)), { m with trace := id :: m.trace, steps := m.steps + 2 }) := by
  have henter : ∀ call, Yields (Machine.enter a limits call id []) m (some (.bool true))
      { m with trace := id :: m.trace, steps := m.steps + 2 } := by
    intro call
    exact yields_enter.mpr ⟨_, _, _, _, hp, rfl, rfl, hdepth, execBody_alwaysTrue name call _ hsteps, rfl, rfl⟩
  refine yields_call.mpr ?_
  cases limits.maxDepth - m.depth with
  | zero | succ => exact henter _

lemma MergesTo.hasTrees {merged : Action} (h : a.MergesTo group merged b) (ha : a.HasTrees) : b.HasTrees := by
  obtain ⟨name, name', known, hprocs⟩ := h.procs
  intro id p hp
  rw [proc?, hprocs, getElem?_append] at hp
  split at hp
  · exact ha id p hp
  · -- one of the two new procedures
    rcases mem_of_getElem? hp with _ | ⟨_, hmem⟩
    · refine ⟨.block ⟨0⟩ [⟨0⟩, ⟨1⟩] .nil, rfl, sound_block.mpr ⟨rfl, by decide, fun i hi => ?_⟩⟩
      rcases mem_cons.mp hi with rfl | hi
      · exact ⟨_, rfl, rfl⟩
      · rw [mem_singleton.mp hi]
        exact ⟨_, rfl, rfl⟩
    · rw [mem_singleton.mp hmem]
      exact ⟨_, Dispatch.spans_tree known name'⟩

lemma Merged.hasTrees (h : Merged a merges b) (ha : a.HasTrees) : b.HasTrees := by
  induction h with
  | refl => exact ha
  | step hmerge _ _ _ ih => exact ih (hmerge.hasTrees ha)

lemma Merged.proc?_eq_some (h : Merged a merges b) {p : Procedure} (hp : a.proc? id = some p) :
    b.proc? id = some p := by
  induction h with
  | refl => exact hp
  | step hmerge _ _ _ ih =>
    refine ih ?_
    rw [hmerge.proc?_of_lt (List.getElem?_eq_some_iff.mp hp).1]
    exact hp

/-- A call of the body of a merged action does what firing the first of the merged actions that may
fire does. -/
lemma call_of_fireFirst (ha : a.HasTrees) (hp : a.proc? id = some (.dispatch known name group))
    (hdepth : m.depth < limits.maxDepth) (h : (Machine.fireFirst a limits group).on m = (.ok (), m')) :
    ∃ entered bound, m'.trace = entered ++ m.trace ∧ ∀ limits' : Limits, limits.maxDepth < limits'.maxDepth →
      bound ≤ limits'.maxSteps → ∃ m'', (Machine.call a limits' id []).on m = (.ok none, m'') ∧
        m''.globals = m'.globals ∧ m''.trace = entered ++ id :: m.trace := by
  have hfires : (a.calls (limits.maxDepth - m.depth)).FiresFirst group ⟨m.globals, [] ++ m.trace⟩ m'.world :=
    firesFirst_of_fireFirst ha h
  -- the same over the trace with the entry of the dispatch procedure in it
  obtain ⟨entered, htrace, hfires'⟩ := hfires.shift (a.calls_shift _ m.trace (id :: m.trace))
  obtain ⟨bound, hbound⟩ := call_of_calls (m := m) (calls_dispatch hp hfires')
  refine ⟨entered, bound, htrace, fun limits' hlimit hsteps => ?_⟩
  obtain ⟨m'', hcall, hworld⟩ := hbound limits' (by omega) hsteps
  exact ⟨m'', hcall, congrArg World.globals hworld, congrArg World.trace hworld⟩

/-- Every merge that classification performs replaces a group of actions, in the order of urgency,
by an action whose scheduler answers `true` in every state, and whose body does what firing the
first of the group that may fire does: it leaves the same state variables and enters the same
procedures after its own entry, with one more level of calls. -/
theorem call_classify (hcheck : a.check = .ok ()) (hids : a.Supplied) {before after : List Merge} {merge : Merge}
    (hmerge : a.classify.1 = before ++ merge :: after) :
    ∃ stage group merged next, Merged a before stage ∧ stage.MergesTo group merged next ∧
      Merged next after a.classify.2 ∧ merge.merged = merged.id ∧ merge.sources = group.map (·.name) ∧
      (∀ (limits : Limits) (m : Machine), m.depth < limits.maxDepth → m.steps + 2 ≤ limits.maxSteps →
        (Machine.call a.classify.2 limits merged.scheduler []).on m =
          (.ok (some (.bool true)), { m with trace := merged.scheduler :: m.trace, steps := m.steps + 2 })) ∧
      ∀ (limits : Limits) (m m' : Machine), (Machine.fireFirst a.classify.2 limits group).on m = (.ok (), m') →
        ∃ entered bound, m'.trace = entered ++ m.trace ∧ ∀ limits' : Limits, limits.maxDepth < limits'.maxDepth →
          bound ≤ limits'.maxSteps → ∃ m'', (Machine.call a.classify.2 limits' merged.body []).on m = (.ok none, m'') ∧
            m''.globals = m'.globals ∧ m''.trace = entered ++ merged.body :: m.trace := by
  have hmerged := merged_classify (check_eq_ok.mp hcheck).1 hids
  have htrees := hmerged.hasTrees (hasTrees_of_check hcheck)
  rw [hmerge] at hmerged
  obtain ⟨stage, group, merged, next, hbefore, hstep, hid, hsources, hafter⟩ := hmerged.split
  obtain ⟨name, hscheduler⟩ := hstep.proc?_scheduler
  obtain ⟨known, name', hbody⟩ := hstep.proc?_body
  refine ⟨stage, group, merged, next, hbefore, hstep, hafter, hid, hsources,
    fun limits m hdepth hsteps => ?_, fun limits m m' hfire => ?_⟩
  · exact call_alwaysTrue (hafter.proc?_eq_some hscheduler) hdepth hsteps
  · -- there is an action in the group, so at least one call succeeds within the limits
    have hdepth : m.depth < limits.maxDepth := by
      obtain ⟨x, rest, hgroup⟩ := List.exists_cons_of_ne_nil (List.ne_nil_of_mem hstep.exists_mem.choose_spec)
      rw [hgroup, Machine.fireFirst] at hfire
      obtain ⟨answer, m₁, hanswer, _⟩ := yields_bind.mp hfire
      exact depth_lt_of_call hanswer
    exact call_of_fireFirst htrees (hafter.proc?_eq_some hbody) hdepth hfire

/-- A procedure that returns whether a state variable is true. -/
def answerOf (g : GlobalId) : Procedure :=
  { name := "answer", returnTy := .bool
    locals := .full [{ name := "v", ty := .bool }]
    nodes := .full [.block [⟨0⟩, ⟨1⟩]]
    insts := .full [{ inst := .load ⟨0⟩ (.glob g) [], block := ⟨0⟩ },
      { inst := .ret (some (.var (.loc ⟨0⟩))), block := ⟨0⟩ }]
    body := [⟨0⟩] }

/-- A procedure that sets the third state variable. -/
def report (n : Int64) : Procedure :=
  { name := "report", returnTy := .void
    nodes := .full [.block [⟨0⟩]]
    insts := .full [{ inst := .store (.glob ⟨2⟩) [] (.int n (.int 8)), block := ⟨0⟩ }]
    body := [⟨0⟩] }

/-- An actor with three actions of the same patterns: two that are guarded by a state variable each,
and one that may always fire. -/
def triple : Actor :=
  { name := "triple"
    globals := [{ name := "p", ty := .bool }, { name := "q", ty := .bool }, { name := "out", ty := .int 8 }]
    procs := [answerOf ⟨0⟩, report 1, answerOf ⟨1⟩, report 2, .alwaysTrue "always", report 3]
    actions := [{ id := ⟨0⟩, name := "first", scheduler := ⟨0⟩, body := ⟨1⟩ },
      { id := ⟨1⟩, name := "second", scheduler := ⟨2⟩, body := ⟨3⟩ },
      { id := ⟨2⟩, name := "third", scheduler := ⟨4⟩, body := ⟨5⟩ }]
    ids := ⟨3⟩ }

/-- With the first guard false and the second one true, the merged body fires the second action and
asks no further. -/
theorem call_classify_triple : ∃ merged : Action, merged.id = ⟨3⟩ ∧ ∃ bound, ∀ limits' : Limits,
    64 < limits'.maxDepth → bound ≤ limits'.maxSteps → ∃ m'', (Machine.call triple.classify.2 limits' merged.body []).on
          { globals := [some (.bool false), some (.bool true), some (.int 0)] } = (.ok none, m'') ∧
        m''.globals = [some (.bool false), some (.bool true), some (.int 2)] ∧
        m''.trace = [⟨3⟩, ⟨2⟩, ⟨0⟩, merged.body] := by
  have hcheck : triple.check = .ok () := by decide +kernel
  have hids : triple.Supplied := by decide +kernel
  have hmerge : triple.classify.1 = [] ++ ⟨none, ["first", "second", "third"], ⟨3⟩⟩ :: [] := by decide +kernel
  obtain ⟨stage, group, merged, next, hbefore, hstep, _, hid, hsources, _, hfires⟩ := call_classify hcheck hids hmerge
  cases hbefore
  -- the group is the list of all actions, for they are told apart by their names
  have hgroup : group = triple.actions := by
    have hname : ∀ x ∈ triple.actions, triple.actionByName? x.name = some x := by decide +kernel
    have hmap : group.map some = (group.map (·.name)).map triple.actionByName? := by
      rw [List.map_map]
      exact List.map_congr_left fun x hx => (hname x (hstep.members x hx)).symm
    rw [← hsources] at hmap
    exact List.map_injective_iff.mpr (Option.some_injective Action) (hmap.trans rfl)
  have hfire : (Machine.fireFirst triple.classify.2 {} triple.actions).on
      { globals := [some (.bool false), some (.bool true), some (.int 0)] } =
      (.ok (), { globals := [some (.bool false), some (.bool true), some (.int 2)], trace :=
                 [⟨3⟩, ⟨2⟩, ⟨0⟩], steps := 5 }) := by rfl
  subst hgroup
  obtain ⟨entered, bound, htrace, hcalls⟩ := hfires _ _ _ hfire
  rw [List.append_nil] at htrace
  refine ⟨merged, hid.symm, bound, fun limits' hdepth hsteps => ?_⟩
  obtain ⟨m'', hcall, hglobals, htrace''⟩ := hcalls limits' hdepth hsteps
  refine ⟨m'', hcall, hglobals, ?_⟩
  rw [htrace'', ← htrace]
  rfl

end Actor

end ActorNet
