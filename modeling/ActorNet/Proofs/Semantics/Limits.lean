import ActorNet.Proofs.Effects

/-!
# The limits of a run

A run under limits does what it does under wider ones, unless it is cut off. `Run.CutOf R act act'`
says so of two computations, and also that the first one changes the machine as `R` allows, whatever
its outcome. There is one rule for each way to build a computation and one lemma for each part of a
procedure. `R` has to allow the stores of the instructions that are run, and what they call; the
lemma about calls (`Machine.cutOf_callTo`) is by induction on the levels that are left, along a
property that calls hand on to the procedures they call.
-/

namespace ActorNet

variable {limits limits' : Limits} {f : Machine → Machine} {call' : ProcId → List Value → Run (Option Value)}
  {α β : Type} {c : Context} {actor : Actor} {R : Machine → Machine → Prop}

/-- A limit was hit. -/
def Fault.isLimit : Fault → Bool
  | .callDepth _ | .stepLimit _ => true
  | _ => false

namespace Run

/-- A run ended at a limit. -/
def isCutOff : Except Fault α → Bool
  | .ok _ => false
  | .error e => e.isLimit

/-- How a machine may change in a run, stores apart: any number of steps is allowed, and so is a
call in which nothing happens but what is allowed. -/
class Frame (R : Machine → Machine → Prop) : Prop where
  refl : ∀ m, R m m
  trans : ∀ {m₁ m₂ m₃}, R m₁ m₂ → R m₂ m₃ → R m₁ m₃
  step : ∀ m, R m { m with steps := m.steps + 1 }
  call : ∀ {m m'} id, R { m with trace := id :: m.trace, depth := m.depth + 1 } m' → R m { m' with depth := m'.depth - 1 }

/-- A computation that changes the machine as `R` allows, and that the other one repeats unless it
is cut off. -/
structure CutOf (R : Machine → Machine → Prop) (act act' : Run α) : Prop where
  allowed : ∀ m, R m (act.on m).2
  repeats : ∀ m, isCutOff (act.on m).1 = false → act'.on m = act.on m

/-! ## Rules -/

variable [Frame R]

lemma cutOf_pure (x : α) : CutOf R (pure x) (pure x) :=
  ⟨Frame.refl, fun _ _ => rfl⟩

/-- A run that is not cut off goes on from the same state. -/
lemma CutOf.bind {act act' : Run α} {f f' : α → Run β} (h : CutOf R act act')
    (hf : ∀ x, CutOf R (f x) (f' x)) : CutOf R (act >>= f) (act' >>= f') where
  allowed m := by
    have hallowed : R m (act.run m).2 := h.allowed m
    rw [on, run_bind]
    rcases hact : act.run m with ⟨e | x, m'⟩ <;> rw [hact] at hallowed
    · exact hallowed
    · exact Frame.trans hallowed ((hf x).allowed m')
  repeats m hcut := by
    have hrepeats : isCutOff (act.run m).1 = false → act'.run m = act.run m := h.repeats m
    rw [on, run_bind] at hcut ⊢
    rw [on, run_bind]
    rcases hact : act.run m with ⟨e | x, m'⟩ <;> rw [hact] at hcut hrepeats
    · rw [hrepeats hcut]
    · rw [hrepeats rfl]
      exact (hf x).repeats m' hcut

variable {e : Fault}

lemma cutOf_throw : CutOf R (throw e : Run α) (throw e) :=
  ⟨Frame.refl, fun _ _ => rfl⟩

lemma cutOf_limit (he : e.isLimit = true) {act' : Run α} : CutOf R (throw e) act' where
  allowed := Frame.refl
  repeats m hcut := by
    have hcut : e.isLimit = false := hcut
    rw [he] at hcut
    cases hcut

lemma cutOf_lift {r : Except Fault α} : CutOf R (lift r) (lift r) := by
  cases r with
  | ok x => exact cutOf_pure x
  | error e => exact cutOf_throw

omit [Frame R] in
lemma cutOf_get_bind {f f' : Machine → Run α} (h : ∀ m, CutOf R (f m) (f' m)) : CutOf R (get >>= f) (get >>= f') where
  allowed m := (h m).allowed m
  repeats m hcut := (h m).repeats m hcut

omit [Frame R] in
lemma cutOf_modify (h : ∀ m, R m (f m)) : CutOf R (modify f : Run PUnit) (modify f) :=
  ⟨h, fun _ _ => rfl⟩

lemma cutOf_step (h : limits.maxSteps ≤ limits'.maxSteps) : CutOf R (step limits) (step limits') := by
  unfold step
  refine CutOf.bind (cutOf_modify Frame.step) fun _ => cutOf_get_bind fun m => ?_
  by_cases hlimit : limits.maxSteps < m.steps
  · rw [if_pos hlimit]
    exact cutOf_limit rfl
  · rw [if_neg hlimit, if_neg (by omega)]
    exact cutOf_pure ()

omit [Frame R] in
lemma CutOf.leaving {act act' : Run α} (h : CutOf R act act')
    (hf : ∀ m m', R (f m) m' → R m { m' with depth := m'.depth - 1 }) :
    CutOf R (do modify f; leaving act) (do modify f; leaving act') where
  allowed m := hf m _ (h.allowed (f m))
  repeats m hcut := by
    have hrepeats := h.repeats (f m) hcut
    show ((act'.on (f m)).1, { (act'.on (f m)).2 with depth := (act'.on (f m)).2.depth - 1 }) = _
    rw [hrepeats]
    rfl

end Run

open Run (CutOf Frame cutOf_get_bind cutOf_pure)

/-! ## Parts of a procedure -/

/-- The procedure that an instruction calls. -/
def Inst.callee? : Inst → Option ProcId
  | .call _ callee _ => some callee
  | _ => none

/-- An instruction stores as `R` allows, and calls only procedures with a property. -/
structure Inst.Allowed (R : Machine → Machine → Prop) (P : ProcId → Prop) (i : Inst) : Prop where
  stores : ∀ g, i.writes? = some (.glob g) → ∀ m x, R m (m.setGlobal g x)
  calls : ∀ id ∈ i.callee?, P id

/-- All of the instructions are allowed. -/
def Procedure.Allows (p : Procedure) (R : Machine → Machine → Prop) (P : ProcId → Prop) (ids : List InstId) : Prop :=
  ∀ i ∈ ids, ∀ d, p.inst? i = some d → d.inst.Allowed R P

/-- The instructions that a run of the body may come to. -/
def Procedure.reached (p : Procedure) : List InstId :=
  (p.body.flatMap (p.nodesUnder (p.nodes.size + 1))).flatMap p.blockInsts

namespace Context

variable [Frame R] {P : ProcId → Prop} {env : Env} {arms : List PhiArm} {insts : List InstId}

/-- The same procedure under other limits. -/
def under (c : Context) (limits' : Limits) (call' : ProcId → List Value → Run (Option Value)) : Context :=
  { c with limits := limits', call := call' }

lemma cutOf_eval {f : Reader → Except Fault α} :
    CutOf R (c.eval env f) ((c.under limits' call').eval env f) :=
  cutOf_get_bind fun _ => Run.cutOf_lift

lemma cutOf_write (env : Env) {v : VarRef} (hv : ∀ g, v = .glob g → ∀ m x, R m (m.setGlobal g x))
    (x : Value) : CutOf R (write env v x) (write env v x) := by
  cases v with
  | loc id => exact cutOf_pure _
  | glob g => exact CutOf.bind (Run.cutOf_modify fun m => hv g rfl m x) fun _ => cutOf_pure _

lemma cutOf_firstHolding : CutOf R (selectArm.firstHolding c env arms)
    (selectArm.firstHolding (c.under limits' call') env arms) := by
  induction arms with
  | nil => exact cutOf_pure _
  | cons arm rest ih =>
    unfold selectArm.firstHolding
    cases arm.guard with
    | none => exact ih
    | some guard =>
      refine cutOf_eval.bind fun holds => ?_
      split
      · exact cutOf_pure _
      · exact ih

variable {edge : Option Edge}

lemma cutOf_phiValue {target : LocalId} : CutOf R
    (c.phiValue env edge target arms) ((c.under limits' call').phiValue env edge target arms) := by
  have hselect : CutOf R (c.selectArm env edge arms) ((c.under limits' call').selectArm env edge arms) := by
    cases edge with
    | some edge => exact cutOf_pure _
    | none => exact cutOf_firstHolding
  refine hselect.bind fun arm => ?_
  split
  · exact cutOf_eval
  · exact Run.cutOf_throw

/-- One step: an instruction that is allowed. -/
lemma cutOf_execInst (hcall : ∀ id, P id → ∀ args, CutOf R (c.call id args) (call' id args)) {i : Inst}
    (hi : i.Allowed R P) : CutOf R (c.execInst env i) ((c.under limits' call').execInst env i) := by
  cases i with
  | assign | load => exact cutOf_eval.bind fun _ => cutOf_pure _
  | store target indexes value =>
    have hwrite : ∀ x, CutOf R (write env target x) (write env target x) :=
      cutOf_write env fun g hg => hi.stores g (congrArg some hg)
    refine cutOf_eval.bind fun x => cutOf_eval.bind fun path => ?_
    split
    · exact (hwrite x).bind fun _ => cutOf_pure _
    · exact cutOf_eval.bind fun whole => (hwrite whole).bind fun _ => cutOf_pure _
  | call target callee args =>
    refine cutOf_eval.bind fun values => (hcall callee (hi.calls callee rfl) values).bind fun answer => ?_
    split <;> exact cutOf_pure _
  | phi target arms => exact cutOf_phiValue.bind fun _ => cutOf_pure _
  | ret value =>
    cases value with
    | none => exact cutOf_pure _
    | some value => exact cutOf_eval.bind fun _ => cutOf_pure _
  | cast source target ty => exact cutOf_eval.bind fun _ => cutOf_pure _

lemma cutOf_joinValues {edge : Edge} :
    CutOf R (c.joinValues env edge insts) ((c.under limits' call').joinValues env edge insts) := by
  induction insts with
  | nil => exact cutOf_pure _
  | cons id rest ih =>
    have hinst : (c.under limits' call').proc.inst? id = c.proc.inst? id := rfl
    unfold joinValues
    rw [hinst]
    split
    · exact cutOf_phiValue.bind fun _ => ih.bind fun _ => cutOf_pure _
    · exact ih

section

variable (hsteps : c.limits.maxSteps ≤ limits'.maxSteps)
  (hcall : ∀ id, P id → ∀ args, CutOf R (c.call id args) (call' id args))

include hsteps hcall

lemma cutOf_execInsts (inJoin : Bool) (env : Env) (hinsts : c.proc.Allows R P insts) : CutOf R
    (c.execInsts inJoin env insts) ((c.under limits' call').execInsts inJoin env insts) := by
  induction insts generalizing env with
  | nil => exact cutOf_pure _
  | cons id rest ih =>
    have hinst : (c.under limits' call').proc.inst? id = c.proc.inst? id := rfl
    have ih := fun env => ih env fun i hi => hinsts i (List.mem_cons_of_mem id hi)
    unfold execInsts
    rw [hinst]
    split
    · exact ih env
    · rename_i data hdata
      split
      · exact ih env
      · have hholds : CutOf R (c.holds env data.predicate) ((c.under limits' call').holds env data.predicate) := by
          cases data.predicate with
          | none => exact cutOf_pure _
          | some predicate => exact cutOf_eval (f := predicate.evalBool)
        refine (Run.cutOf_step hsteps).bind fun _ => hholds.bind fun holds => ?_
        split
        · refine (cutOf_execInst hcall (hinsts id List.mem_cons_self data hdata)).bind fun _ => ?_
          split
          · exact ih _
          · exact cutOf_pure _
        · exact ih env

lemma cutOf_execBlock {id : NodeId} (h : c.proc.Allows R P (c.proc.blockInsts id)) :
    CutOf R (c.execBlock edge env id) ((c.under limits' call').execBlock edge env id) := by
  cases edge with
  | none => exact cutOf_execInsts hsteps hcall false env h
  | some edge => exact cutOf_joinValues.bind fun _ => cutOf_execInsts hsteps hcall true _ h

omit hsteps hcall in
lemma cutOf_andThen {first first' : Run (Flow × Env)} {after after' : Env → Run (Flow × Env)}
    (h : CutOf R first first') (hafter : ∀ env, CutOf R (after env) (after' env)) :
    CutOf R (andThen first after) (andThen first' after') := by
  refine h.bind fun _ => ?_
  split
  · exact hafter _
  · exact cutOf_pure _

omit hsteps hcall in
lemma cutOf_execEach {exec exec' : Env → NodeId → Run (Flow × Env)} {nodes : List NodeId}
    (h : ∀ id ∈ nodes, ∀ env, CutOf R (exec env id) (exec' env id)) (env : Env) :
    CutOf R (execEach exec env nodes) (execEach exec' env nodes) := by
  induction nodes generalizing env with
  | nil => exact cutOf_pure _
  | cons id rest ih =>
    exact cutOf_andThen (h id List.mem_cons_self env) (ih fun i hi => h i (List.mem_cons_of_mem id hi))

omit hcall in
/-- A loop that may evaluate its condition more often. It is cut off when it may not do so again. -/
lemma cutOf_execLoop (condition : Expr) {body body' : Env → Run (Flow × Env)} (h : ∀ env, CutOf R (body env) (body' env))
    {n n' : Nat} (hn : n ≤ n') (env : Env) :
    CutOf R (c.execLoop condition body n env) ((c.under limits' call').execLoop condition body' n' env) := by
  induction n generalizing n' env with
  | zero => exact Run.cutOf_limit rfl
  | succ n ih =>
    obtain ⟨n', rfl⟩ : ∃ l, n' = l + 1 := ⟨n' - 1, by omega⟩
    refine cutOf_eval.bind fun holds => ?_
    split
    · exact (Run.cutOf_step hsteps).bind fun _ => cutOf_andThen (h env) (ih (by omega))
    · exact cutOf_pure _

/-- By induction on the depth of nodes. -/
lemma cutOf_execNode (depth : Nat) (env : Env) {id : NodeId}
    (h : ∀ n ∈ c.proc.nodesUnder depth id, c.proc.Allows R P (c.proc.blockInsts n)) :
    CutOf R (c.execNode depth env id) ((c.under limits' call').execNode depth env id) := by
  induction depth generalizing env id with
  | zero => exact cutOf_pure _
  | succ depth ih =>
    have hblock : ∀ edge env n, n ∈ c.proc.nodesUnder (depth + 1) id →
        CutOf R (c.execBlock edge env n) ((c.under limits' call').execBlock edge env n) :=
      fun edge env n hn => cutOf_execBlock hsteps hcall (h n hn)
    have heach : ∀ nodes : List NodeId, nodes.flatMap (c.proc.nodesUnder depth) ⊆ c.proc.nodesUnder (depth + 1) id →
        ∀ env, CutOf R (execEach (c.execNode depth) env nodes)
          (execEach ((c.under limits' call').execNode depth) env nodes) :=
      fun nodes hsub => cutOf_execEach fun k hk env => ih env fun n hn => h n (hsub (List.mem_flatMap.mpr ⟨k, hk, hn⟩))
    have hnode : (c.under limits' call').proc.node? id = c.proc.node? id := rfl
    unfold execNode
    rw [hnode]
    cases hid : c.proc.node? id with
    | none => exact cutOf_pure _
    | some node =>
      simp only [Procedure.nodesUnder, hid] at hblock heach
      cases node with
      | block insts => exact hblock none env id List.mem_cons_self
      | branch condition thenNodes elseNodes join =>
        refine cutOf_eval.bind fun holds => ?_
        have hjoin := fun edge env => hblock edge env join (by simp)
        split
        · exact cutOf_andThen (heach thenNodes (by grind) env) (hjoin _)
        · exact cutOf_andThen (heach elseNodes (by grind) env) (hjoin _)
      | loop condition body join =>
        have hjoin := fun edge env => hblock edge env join (by simp)
        refine cutOf_andThen (hjoin _ env) fun env => cutOf_get_bind fun m => ?_
        -- as many evaluations of the condition as there are steps left, and one more
        refine cutOf_execLoop hsteps condition (fun env => ?_) ?_ env
        · exact cutOf_andThen (heach body (by grind) env) (hjoin _)
        · show c.limits.maxSteps - m.steps + 1 ≤ limits'.maxSteps - m.steps + 1
          omega

lemma cutOf_execBody (h : c.proc.Allows R P c.proc.reached) (env : Env) :
    CutOf R (c.execBody env) ((c.under limits' call').execBody env) :=
  cutOf_execEach (fun id hid env => cutOf_execNode hsteps hcall _ env fun n hn i hi =>
    h i (List.mem_flatMap.mpr ⟨n, List.mem_flatMap.mpr ⟨id, hid, hn⟩, hi⟩)) env

end

end Context

/-! ## Calls -/

namespace Machine

section

variable [Frame R] {P : ProcId → Prop}

section

variable (hdepth : limits.maxDepth ≤ limits'.maxDepth) (hsteps : limits.maxSteps ≤ limits'.maxSteps)
include hdepth hsteps

variable {id : ProcId}

lemma cutOf_enter {call : ProcId → List Value → Run (Option Value)}
    (hcall : ∀ id, P id → ∀ args, CutOf R (call id args) (call' id args))
    (hid : ∀ p, actor.proc? id = some p → p.Allows R P p.reached) (args : List Value) :
    CutOf R (enter actor limits call id args) (enter actor limits' call' id args) := by
  unfold enter
  split
  · exact Run.cutOf_throw
  · rename_i p hp
    split
    · exact Run.cutOf_throw
    · split
      · exact Run.cutOf_throw
      · refine cutOf_get_bind fun m => ?_
        by_cases hroom : limits.maxDepth ≤ m.depth
        · rw [if_pos hroom]
          exact Run.cutOf_limit rfl
        · rw [if_neg hroom, if_neg (by omega), ← bind_assoc, ← bind_assoc]
          have hbody := Context.cutOf_execBody (c := ⟨actor, limits, p, call⟩) hsteps hcall (hid p hp)
            (Env.ofArgs p.params args)
          refine (hbody.leaving fun _ _ => Frame.call id).bind fun _ => ?_
          split <;> exact cutOf_pure _

/-- Calls that may nest deeper. The induction is on the levels that are left; without any, a nested
call is cut off. -/
theorem cutOf_callTo (hP : ∀ id, P id → ∀ p, actor.proc? id = some p → p.Allows R P p.reached)
    {levels levels' : Nat} (hlevels : levels ≤ levels') (hid : P id) (args : List Value) :
    CutOf R (callTo actor limits levels id args) (callTo actor limits' levels' id args) := by
  induction levels generalizing levels' id args with
  | zero =>
    cases levels' with
    | zero | succ => exact cutOf_enter hdepth hsteps (fun _ _ _ => Run.cutOf_limit rfl) (hP id hid) args
  | succ levels ih =>
    obtain ⟨levels', rfl⟩ : ∃ l, levels' = l + 1 := ⟨levels' - 1, by omega⟩
    exact cutOf_enter hdepth hsteps (fun _ hid => ih (by omega) hid) (hP id hid) args

/-- From calls at a level to calls from outside. -/
lemma cutOf_call (hP : ∀ id, P id → ∀ p, actor.proc? id = some p → p.Allows R P p.reached) (hid : P id)
    (args : List Value) : CutOf R (call actor limits id args) (call actor limits' id args) :=
  cutOf_get_bind fun m => cutOf_callTo hdepth hsteps hP (by omega) hid args

end

end

/-- Calls end on the level on which they begin. -/
instance : Frame fun m m' => m'.depth = m.depth where
  refl _ := rfl
  trans h h' := h'.trans h
  step _ := rfl
  call _ h := by
    show _ - 1 = _
    rw [h, Nat.add_sub_cancel]

/-- Limits are a mere cut-off. Whatever its outcome, a call leaves the depth of calls as it was. If
it is not cut off, then under wider limits it has the same outcome, a value or a fault, and leaves
the same machine: state variables, trace and number of steps. -/
theorem call_under_wider_limits (actor : Actor) (limits : Limits) (id : ProcId) (args : List Value)
    (m : Machine) : ((call actor limits id args).on m).2.depth = m.depth ∧
      (Run.isCutOff ((call actor limits id args).on m).1 = false → ∀ limits' : Limits,
        limits.maxDepth ≤ limits'.maxDepth → limits.maxSteps ≤ limits'.maxSteps →
          (call actor limits' id args).on m = (call actor limits id args).on m) := by
  have hcut : ∀ limits' : Limits, limits.maxDepth ≤ limits'.maxDepth → limits.maxSteps ≤ limits'.maxSteps →
      CutOf (fun m m' => m'.depth = m.depth) (call actor limits id args) (call actor limits' id args) := by
    refine fun limits' hdepth hsteps => cutOf_call (P := fun _ => True) hdepth hsteps ?_ trivial args
    exact fun _ _ _ _ _ _ _ _ => ⟨fun _ _ _ _ => rfl, fun _ _ => trivial⟩
  refine ⟨(hcut limits (Nat.le_refl _) (Nat.le_refl _)).allowed m, fun hcutOff limits' hdepth hsteps => ?_⟩
  exact (hcut limits' hdepth hsteps).repeats m hcutOff

/-- An actor whose procedure divides by its argument, and calls itself with the next smaller one. -/
def plunge : Actor :=
  { name := "plunge"
    globals := [{ name := "quotient", ty := .int 8 }]
    procs := [{ name := "divide", returnTy := .void
                params := [⟨0⟩]
                locals := .full [{ name := "n", ty := .int 8 }]
                nodes := .full [.block [⟨0⟩, ⟨1⟩]]
                insts := .full [
                  { inst := .store (.glob ⟨0⟩) []
                      (.binary .div (.int 10 (.int 8)) (.var (.loc ⟨0⟩)) (.int 8)), block := ⟨0⟩ },
                  { inst := .call none ⟨0⟩ [.binary .sub (.var (.loc ⟨0⟩)) (.int 1 (.int 8)) (.int 8)], block := ⟨0⟩ }]
                body := [⟨0⟩] }] }

/-- Three levels and five steps are enough for the division by zero to be reached, and no wider
limits change it. -/
theorem call_under_wider_limits_plunge : plunge.check = .ok () ∧ ∀ limits' : Limits, 3 ≤ limits'.maxDepth →
    5 ≤ limits'.maxSteps → (call plunge limits' ⟨0⟩ [.int 2]).on { globals := [none] } =
      (.error (.mismatch "divide" "non-zero divisor" "zero"),
        { globals := [some (.int 10)], trace := [⟨0⟩, ⟨0⟩, ⟨0⟩], steps := 5 }) := by
  have hrun : (call plunge ⟨3, 5⟩ ⟨0⟩ [.int 2]).on { globals := [none] } =
      (.error (.mismatch "divide" "non-zero divisor" "zero"),
        { globals := [some (.int 10)], trace := [⟨0⟩, ⟨0⟩, ⟨0⟩], steps := 5 }) := by rfl
  have hwider := (call_under_wider_limits plunge ⟨3, 5⟩ ⟨0⟩ [.int 2] { globals := [none] }).2
  rw [hrun] at hwider
  exact ⟨by rfl, fun limits' hdepth hsteps => hwider rfl limits' hdepth hsteps⟩

end Machine

end ActorNet
