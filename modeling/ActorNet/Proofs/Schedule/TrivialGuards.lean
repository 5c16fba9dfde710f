import ActorNet.Proofs.Semantics.Locals
import ActorNet.Proofs.Structure.Parts
import ActorNet.Schedule

/-!
# Guards that are true whatever the state

`Actor.guardIsTrivial` looks at the instructions of a guard and runs it once, in the initial state.
Code is blind if it neither looks at the state variables nor changes them, and takes as many steps
whatever they are (`Costed.Blind`); so is code whose instructions, predicates and conditions read
locals only (`Code.blind_cost`). So a guard that is found trivial is true in every state, if its
conditions and predicates do not read the state either (`Actor.grants_of_guardIsTrivial`). The scan
leaves them out, and a guard that branches on a state variable may pass for trivial (`Actor.gate`).
-/

namespace ActorNet

open List State

variable {action : Action} {condition : Expr} {vars : List VarRef} {m : Machine} {id : ProcId}
  {p : Procedure} {s : State} {t : Tree} {α β : Type}

def AreLocal (vars : List VarRef) : Prop :=
  ∀ v ∈ vars, v.global? = none

def Expr.readsState (e : Expr) : Bool :=
  e.uses.any fun v => v.global?.isSome

/-- Whether some condition or some predicate of a procedure reads a state variable. -/
def Procedure.testsState (p : Procedure) : Bool :=
  (p.nodesIn p.body).any (fun id => (p.condition id).readsState)
    || (p.forward.filterMap p.inst?).any fun d => d.predicate.any Expr.readsState

lemma areLocal_of_any (h : (vars.any fun v => v.global?.isSome) = false) : AreLocal vars := by
  intro v hv
  have hv' := any_eq_false.mp h v hv
  simpa using hv'

/-! ## Code that does not look at the state -/

/-- The state with another world in place of its own. -/
def State.put (s : State) (w : World) : State :=
  { s with toWorld := w }

lemma State.put_read {w : World} (h : AreLocal vars) :
    ∀ v ∈ vars, ∀ x, s.read v = some x → (s.put w).read v = some x := by
  intro v hv x hx
  cases v with
  | loc id => exact hx
  | glob id => cases h _ hv

/-- What neither looks at the world nor changes it: in another world it does the same, in as many
steps. -/
def Costed.Blind (a : Costed) : Prop :=
  ∀ ⦃n s f u⦄, a n s f u → ∀ w : World, a n (s.put w) f (u.put w)

namespace Costed

variable {a b : Costed}

lemma Blind.tick (ha : Blind a) : Blind a.tick := by
  rintro _ s f u ⟨k, rfl, h⟩ w
  exact ⟨k, rfl, ha h w⟩

lemma Blind.seq (ha : Blind a) (hb : Blind b) : Blind (a.seq b) := by
  rintro n s f u (⟨k, l, t, hn, h1, h2⟩ | ⟨v, hf, h⟩) w
  · exact .inl ⟨k, l, t.put w, hn, ha h1 w, hb h2 w⟩
  · exact .inr ⟨v, hf, ha h w⟩

lemma Blind.choose (hc : AreLocal condition.uses) (ha : Blind a) (hb : Blind b) : Blind (choose condition a b) := by
  rintro n s f u (⟨htest, h⟩ | ⟨htest, h⟩) w
  · exact .inl ⟨test_mono (put_read hc) htest, ha h w⟩
  · exact .inr ⟨test_mono (put_read hc) htest, hb h w⟩

lemma blind_skip : Blind (free Step.skip) := by
  rintro _ s _ _ ⟨rfl, rfl, rfl⟩ w
  exact ⟨rfl, rfl, rfl⟩

lemma Blind.guarded {predicate : Option Expr} (hp : ∀ e ∈ predicate, AreLocal e.uses)
    (ha : Blind a) : Blind (guarded predicate a) := by
  cases predicate with
  | none => exact ha
  | some e => exact .choose (hp e rfl) ha blind_skip

lemma Blind.loops (hc : AreLocal condition.uses) (ha : Blind a) : Blind (Loops condition a) := by
  intro n s f u h w
  have htest : ∀ {s : State} {b : Bool}, s.test condition = some b → (s.put w).test condition = some b :=
    test_mono (put_read hc)
  induction h with
  | stop hx => exact .stop (htest hx)
  | again hx hbody _ ih => exact .again (htest hx) (ha hbody w) ih
  | ret hx hbody => exact .ret (htest hx) (ha hbody w)

lemma blind_join {edge : Edge} {phis : List Phi} (h : ∀ φ ∈ phis, φ.inst.touchesState = false) :
    Blind (free (Step.join edge phis)) := by
  rintro _ s f u ⟨rfl, hf, hu⟩ w
  obtain ⟨values, hvalues, rfl⟩ := map_eq_some_iff.mp hu
  refine ⟨rfl, hf, map_eq_some_iff.mpr ⟨values, phiValues_mono ?_ hvalues, ?_⟩⟩
  · intro φ hφ arm harm
    have harms : AreLocal (φ.arms.flatMap PhiArm.uses) := areLocal_of_any (h φ hφ)
    exact put_read harms arm.var (mem_flatMap.mpr ⟨arm, harm, mem_cons_self⟩)
  · clear hvalues hu
    induction values generalizing s with
    | nil => rfl
    | cons b rest ih => exact @ih (s.set b.1 b.2)

end Costed

lemma Inst.blind_cost {i : Inst} (h : i.touchesState = false) (costs : Nat → CallStep) : (i.cost costs).Blind := by
  have hcall : i.isCall = false := by
    cases i with
    | call => cases h
    | _ => rfl
  have hreads : AreLocal i.reads := by
    cases i with
    | call => cases h
    | store target indexes value =>
      cases target with
      | glob id => cases h
      | loc id =>
        cases indexes with
        | nil => exact areLocal_of_any h
        | cons index rest => exact forall_mem_cons.mpr ⟨rfl, areLocal_of_any h⟩
    | _ => exact areLocal_of_any h
  rintro n s f u ⟨hi, hn⟩ w
  rcases step_transfer (costs n) hcall (put_read hreads (w := w)) hi with ⟨v, x, hv, rfl, rfl, hi'⟩ | ⟨r, rfl, rfl, hi'⟩
  · cases v with
    | loc id => exact ⟨hi', hn⟩
    | glob g =>
      cases i with
      | store target indexes value =>
        cases hv
        cases h
      | call => cases h
      | _ => cases hv
  · exact ⟨hi', hn⟩

/-- No instruction, predicate or condition of the code reads the state. -/
def Code.IsLocal (c : Code) : Prop :=
  c.Forall (fun i predicate => i.touchesState = false ∧ ∀ e ∈ predicate, AreLocal e.uses)
    (fun condition phis => AreLocal condition.uses ∧ ∀ φ ∈ phis, φ.inst.touchesState = false)
    (fun condition phis => AreLocal condition.uses ∧ ∀ φ ∈ phis, φ.inst.touchesState = false)

lemma Code.blind_cost {c : Code} (h : c.IsLocal) (costs : Nat → CallStep) : (c.cost costs).Blind := by
  induction c with
  | done => exact Costed.blind_skip
  | inst i predicate rest ih =>
    obtain ⟨⟨hi, hpredicate⟩, hrest⟩ := h
    exact ((Inst.blind_cost hi costs).guarded hpredicate).tick.seq (ih hrest)
  | branch condition t e phis rest iht ihe ih =>
    obtain ⟨⟨hcondition, hphis⟩, ht, he, hrest⟩ := h
    refine (Costed.Blind.choose hcondition ?_ ?_).seq (ih hrest)
    · exact (iht ht).seq (Costed.blind_join hphis)
    · exact (ihe he).seq (Costed.blind_join hphis)
  | loop condition body phis rest ihb ih =>
    obtain ⟨⟨hcondition, hphis⟩, hb, hrest⟩ := h
    refine ((Costed.blind_join hphis).seq (Costed.Blind.loops hcondition ?_)).seq (ih hrest)
    exact ((ihb hb).seq (Costed.blind_join hphis)).tick

/-- The two scans together leave no instruction, predicate or condition that reads the state. -/
lemma Procedure.isLocal_code (ht : t.Spans p) (htouches : p.touchesState = false)
    (htests : p.testsState = false) : (t.code p).IsLocal := by
  obtain ⟨hconditions, hpredicates⟩ := Bool.or_eq_false_iff.mp htests
  have hinst : ∀ d ∈ p.allInsts, d.inst.touchesState = false := fun d hd => by simpa using any_eq_false.mp htouches d hd
  have hcondition : ∀ node ∈ p.parts, ∀ c, node.condition? = some c → AreLocal c.uses := by
    intro node hnode c hc
    obtain ⟨id, hid, hnode⟩ := mem_filterMap.mp hnode
    have := any_eq_false.mp hconditions id hid
    rw [condition, hnode, bind_some, hc, Option.getD_some] at this
    exact areLocal_of_any (by simpa [Expr.readsState] using this)
  have hphis : ∀ {node : Node} {join : NodeId}, node.join? = some join → join ∈ p.nodesIn p.body →
      ∀ φ ∈ p.joinPhis node, φ.inst.touchesState = false := by
    intro node join hjoin hmem φ hφ
    obtain ⟨d, hd, hφ⟩ := exists_inst_of_mem_phis (mem_phis_of_joinPhis hjoin hmem hφ)
    exact hφ ▸ hinst d hd
  refine forall_code (fun d _ hd => ⟨hinst d hd, fun e he => ?_⟩) ?_ ?_ ht
  · have hd := any_eq_false.mp hpredicates d hd
    rw [Option.mem_def.mp he] at hd
    exact areLocal_of_any (by simpa [Expr.readsState] using hd)
  · exact fun c ts es j hnode hj => ⟨hcondition _ hnode c rfl, hphis rfl hj⟩
  · exact fun c bs j hnode hj => ⟨hcondition _ hnode c rfl, hphis rfl hj⟩

/-! ## Guards -/

namespace Actor

variable {a : Actor}

/-- A call of a procedure that does not depend on the state: in another world it returns the same in
as many steps, and leaves that world as it is, up to the trace. -/
lemma call_put (ha : a.HasTrees) (hp : a.proc? id = some p) (htouches : p.touchesState = false)
    (htests : p.testsState = false) {limits : Limits} {args : List Value} {m m1 m' : Machine} {v : Option Value}
    (h : (Machine.call a limits id args).on m = (.ok v, m')) (hdepth : m1.depth = m.depth) (hsteps : m1.steps = m.steps) :
    ∃ n, (Machine.call a limits id args).on m1 = (.ok v, { m1 with trace := id :: m1.trace, steps := n }) := by
  obtain ⟨n, hcosts, hspent⟩ := costs_of_call ha h
  have hcosts' : a.costs (limits.maxDepth - m.depth) n id args m1.world v ⟨m1.globals, id :: m1.trace⟩ := by
    cases hk : limits.maxDepth - m.depth with
    | zero =>
      rw [hk] at hcosts
      exact hcosts.elim
    | succ k =>
      rw [hk] at hcosts
      obtain ⟨q, t, f, u, hq, hnative, hlen, ht, hcost, hv, _⟩ := hcosts
      cases hp.symm.trans hq
      have hblind := Code.blind_cost (Procedure.isLocal_code ht htouches htests) (a.costs k)
      exact ⟨p, t, f, _, hp, hnative, hlen, ht, hblind hcost ⟨m1.globals, id :: m1.trace⟩, hv, rfl⟩
  have hlimit := depth_lt_of_call h
  have hroom : n = 0 ∨ m1.steps + n ≤ limits.maxSteps := hsteps ▸ hspent.room
  obtain ⟨m2, hcall, hworld, hspent2⟩ := call_of_costs hcosts' (by omega) hroom
  refine ⟨m2.steps, hcall.trans (congrArg _ ?_)⟩
  obtain ⟨globals, trace, depth, steps⟩ := m2
  cases hworld
  rw [← hspent2.depth]

/-- A procedure returns `true` on every machine before its first step, whatever the state variables
are, and changes none of them. -/
def Grants (a : Actor) (id : ProcId) : Prop :=
  ∀ m : Machine, m.depth = 0 → m.steps = 0 → ∃ n,
    (Machine.call a {} id []).on m = (.ok (some (.bool true)), { m with trace := id :: m.trace, steps := n })

/-- What `guardIsTrivial` has seen when it says yes. -/
lemma guardIsTrivial_eq_true (h : a.guardIsTrivial id = .ok true) :
    ∃ p m m', a.proc? id = some p ∧ p.touchesState = false ∧ Machine.start a = .ok m ∧
      Yields (Machine.call a {} id []) m (some (.bool true)) m' := by
  unfold guardIsTrivial at h
  split at h
  · cases h
  · rename_i p hp
    split at h
    · cases h
    · rename_i hscan
      simp only [Bool.or_eq_true, not_or, Bool.not_eq_true] at hscan
      obtain ⟨m, hm, h⟩ := bind_eq_ok.mp h
      obtain ⟨v, hv, h⟩ := bind_eq_ok.mp h
      split at h
      · exact ⟨p, m, ((Machine.call a {} id []).on m).2, hp, hscan.2, hm, Prod.ext hv rfl⟩
      · cases h

lemma counters_of_start (h : Machine.start a = .ok m) : m.depth = 0 ∧ m.steps = 0 := by
  obtain ⟨globals, _, rfl⟩ := map_eq_ok.mp h
  exact ⟨rfl, rfl⟩

lemma grants_of_guardIsTrivial (ha : a.HasTrees) (h : a.guardIsTrivial id = .ok true)
    (htests : ∀ p, a.proc? id = some p → p.testsState = false) : a.Grants id := by
  obtain ⟨p, m0, m', hp, htouches, hstart, hcall⟩ := guardIsTrivial_eq_true h
  obtain ⟨hdepth0, hsteps0⟩ := counters_of_start hstart
  intro m hdepth hsteps
  exact call_put ha hp htouches (htests p hp) hcall (hdepth.trans hdepth0.symm) (hsteps.trans hsteps0.symm)

/-! ## Schedules -/

/-- An action that a schedule offers: one outside the state machine, or one on a transition out of a
state. -/
def Offers (a : Actor) (action : Action) : Prop :=
  action ∈ a.actionsOutsideFsm ∨ ∃ fsm, a.fsm = some fsm ∧ ∃ s ∈ fsm.stateIds, ∃ t ∈ fsm.outgoing s,
    a.action? t.action = some action

lemma mem_of_mapM {f : α → Except Fault β} {xs : List α} {ys : List β} (h : xs.mapM f = .ok ys) :
    ∀ x ∈ xs, ∃ y ∈ ys, f x = .ok y := by
  induction xs generalizing ys with
  | nil => exact forall_mem_nil _
  | cons x rest ih =>
    rw [mapM_cons] at h
    obtain ⟨y, hy, h⟩ := bind_eq_ok.mp h
    obtain ⟨ys', hys', h⟩ := bind_eq_ok.mp h
    cases h
    intro z hz
    rcases mem_cons.mp hz with rfl | hz
    · exact ⟨y, mem_cons_self, hy⟩
    · obtain ⟨u, hu, hfu⟩ := ih hys' z hz
      exact ⟨u, mem_cons_of_mem y hu, hfu⟩

lemma guardIsTrivial_of_scheduled {target : Option String} {s : ScheduledAction}
    (h : a.scheduled action target = .ok s) (hs : s.guarded = false) :
    a.guardIsTrivial action.scheduler = .ok true := by
  obtain ⟨b, hb, h⟩ := bind_eq_ok.mp h
  cases h
  have hb' : b = true := by simpa using hs
  rw [hb, hb']

lemma guardIsTrivial_of_static {s : Schedule} (h : a.schedule = .ok s) (hstatic : s.isStatic = true)
    (hoffer : a.Offers action) : a.guardIsTrivial action.scheduler = .ok true := by
  unfold schedule at h
  obtain ⟨actions, hactions, h⟩ := bind_eq_ok.mp h
  cases hfsm : a.fsm with
  | none =>
    simp only [hfsm] at h
    cases h
    simp only [ScheduledAction.leavesNoChoice, Bool.and_eq_true, all_eq_true] at hstatic
    rcases hoffer with hmem | ⟨fsm, hf, _⟩
    · obtain ⟨y, hy, hscheduled⟩ := mem_of_mapM hactions action hmem
      exact guardIsTrivial_of_scheduled hscheduled (by simpa using hstatic.2 y hy)
    · rw [hfsm] at hf
      cases hf
  | some fsm =>
    simp only [hfsm] at h
    obtain ⟨states, hstates, h⟩ := bind_eq_ok.mp h
    cases h
    simp only [ScheduledAction.leavesNoChoice, Bool.and_eq_true, all_eq_true] at hstatic
    rcases hoffer with hmem | ⟨fsm', hf, st, hst, t, ht, haction⟩
    · -- there is no action outside of the state machine
      obtain ⟨y, hy, _⟩ := mem_of_mapM hactions action hmem
      rw [isEmpty_iff.mp hstatic.1] at hy
      cases hy
    · rw [hfsm] at hf
      cases hf
      obtain ⟨y, hy, hstate⟩ := mem_of_mapM hstates st hst
      obtain ⟨offers, hoffers, hstate⟩ := bind_eq_ok.mp hstate
      cases hstate
      have hlisted : (action, fsm.stateName t.target) ∈ (fsm.outgoing st).filterMap fun t =>
          (a.action? t.action).map (·, fsm.stateName t.target) :=
        mem_filterMap.mpr ⟨t, ht, by rw [haction]; rfl⟩
      obtain ⟨z, hz, hscheduled⟩ := mem_of_mapM hoffers _ hlisted
      exact guardIsTrivial_of_scheduled hscheduled (by simpa using (hstatic.2 _ hy).2 z hz)

/-- A guard that is found trivial returns `true` whatever the state variables are, if its conditions
and predicates do not read them; and so does the guard of every action that a static schedule
offers. -/
theorem guardIsTrivial_sound (hcheck : a.check = .ok ()) : (∀ id p, a.proc? id = some p →
    p.testsState = false → a.guardIsTrivial id = .ok true → a.Grants id) ∧ ∀ s, a.schedule = .ok s →
      s.isStatic = true → ∀ action, a.Offers action → (∀ p, a.proc? action.scheduler = some p →
        p.testsState = false) → a.Grants action.scheduler := by
  have ha := hasTrees_of_check hcheck
  constructor
  · intro id p hp htests htrivial
    refine grants_of_guardIsTrivial ha htrivial fun q hq => ?_
    cases hp.symm.trans hq
    exact htests
  · intro s hs hstatic action hoffer htests
    exact grants_of_guardIsTrivial ha (guardIsTrivial_of_static hs hstatic hoffer) htests

/-- An actor with one action, which has the given guard and does nothing, and one state variable,
which is true at first. -/
def guarded (guard : Procedure) : Actor :=
  { name := "guarded"
    globals := [{ name := "open", ty := .bool, init := some (.bool true) }]
    procs := [guard, { name := "act", returnTy := .void }]
    actions := [{ id := ⟨0⟩, name := "act", scheduler := ⟨0⟩, body := ⟨1⟩ }]
    ids := ⟨1⟩ }

/-- A guard that counts to three in a loop and returns `true` then. -/
def patience : Procedure :=
  { name := "patience", returnTy := .bool
    locals := .full [{ name := "zero", ty := .int 32 }, { name := "i", ty := .int 32 }, { name := "k", ty := .int 32 }]
    nodes := .full [.block [⟨0⟩], .block [⟨1⟩],
      .loop (.binary .lt (.var (.loc ⟨1⟩)) (.int 3 (.int 32)) .bool) [⟨3⟩] ⟨1⟩, .block [⟨2⟩], .block [⟨3⟩]]
    insts := .full [{ inst := .assign ⟨0⟩ (.int 0 (.int 32)), block := ⟨0⟩ },
      { inst := .phi ⟨1⟩ [⟨.entry, .loc ⟨0⟩, none⟩, ⟨.back, .loc ⟨2⟩, none⟩], block := ⟨1⟩ },
      { inst := .assign ⟨2⟩ (.binary .add (.var (.loc ⟨1⟩)) (.int 1 (.int 32)) (.int 32)), block := ⟨3⟩ },
      { inst := .ret (some (.binary .eq (.var (.loc ⟨1⟩)) (.int 3 (.int 32)) .bool)), block := ⟨4⟩ }]
    body := [⟨0⟩, ⟨2⟩, ⟨4⟩] }

/-- A guard that returns what the state variable holds, by way of a conditional. -/
def gate : Procedure :=
  { name := "gate", returnTy := .bool
    nodes := .full [.block [], .branch (.var (.glob ⟨0⟩)) [⟨2⟩] [⟨3⟩] ⟨0⟩, .block [⟨0⟩], .block [⟨1⟩]]
    insts := .full [{ inst := .ret (some (.bool true)), block := ⟨2⟩ },
      { inst := .ret (some (.bool false)), block := ⟨3⟩ }]
    body := [⟨1⟩] }

/-- The guard that counts is trivial, and so it is true in every state; the schedule that offers its
action is static. -/
theorem guardIsTrivial_sound_patience : (guarded patience).Grants ⟨0⟩ ∧
    ∃ s, (guarded patience).schedule = .ok s ∧ s.isStatic = true ∧
      ∀ action ∈ (guarded patience).actions, (guarded patience).Grants action.scheduler := by
  have hcheck : (guarded patience).check = .ok () := by decide +kernel
  have htrivial : (guarded patience).guardIsTrivial ⟨0⟩ = .ok true := by decide +kernel
  have hproc : (guarded patience).proc? ⟨0⟩ = some patience := rfl
  have htests : patience.testsState = false := by decide +kernel
  obtain ⟨hguards, hschedules⟩ := guardIsTrivial_sound hcheck
  refine ⟨hguards ⟨0⟩ patience hproc htests htrivial, _, rfl, by decide +kernel, fun action haction => ?_⟩
  cases List.mem_singleton.mp haction
  refine hschedules _ rfl (by decide +kernel) _ (.inl List.mem_cons_self) fun p hp => ?_
  cases hp
  exact htests

/-- The scan does not look at conditions: the gate counts as trivial and the schedule as static, but
once the state variable is false the gate returns `false`. -/
theorem guardIsTrivial_gate : (guarded gate).check = .ok () ∧ (guarded gate).guardIsTrivial ⟨0⟩ = .ok true ∧
    ((guarded gate).schedule.map fun s => s.isStatic) = .ok true ∧
    (Machine.call (guarded gate) {} ⟨0⟩ []).on { globals := [some (.bool false)] } =
      (.ok (some (.bool false)), { globals := [some (.bool false)], trace := [⟨0⟩], steps := 1 }) :=
  ⟨by decide +kernel, by decide +kernel, by decide +kernel, rfl⟩

end Actor

end ActorNet
