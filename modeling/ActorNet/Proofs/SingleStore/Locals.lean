import ActorNet.Proofs.SingleStore.Preservation

/-!
# Locals after a run with a single store

Elements of a state variable may be loaded and stored as well, if the variable is never accessed as
a whole: then it stays where it is, and only the variables that are accessed as a whole are kept in
locals. Whatever the way in which a run ends, the new procedure returns the same value and leaves
the same value in every local that the procedure had before.
-/

namespace ActorNet

open List

namespace Inst

/-- The variables in the operands of an instruction: all that it reads but the source of a load. -/
def operands : Inst → List VarRef
  | .load _ _ indexes => Expr.usesOf indexes
  | i => i.uses

/-- The state variable that an instruction loads or stores, with whether it does so as a whole. -/
def access? : Inst → Option (GlobalId × Bool)
  | .load _ (.glob g) indexes => some (g, indexes.isEmpty)
  | .store (.glob g) indexes _ => some (g, indexes.isEmpty)
  | _ => none

variable {g : GlobalId} {i : Inst}

lemma access?_of_storesWhole? (h : i.storesWhole? = some g) : i.access? = some (g, true) := by
  unfold storesWhole? at h
  split at h
  · cases h
    rfl
  · cases h

/-- An instruction whose operands are locals reads no state variable but the one that it
accesses. -/
lemma access?_of_mem_uses (h : ∀ v ∈ i.operands, v.local?.isSome) (hg : .glob g ∈ i.uses) :
    ∃ flag, i.access? = some (g, flag) ∧ (flag = true → i.loadsWhole = true) := by
  have hnot : VarRef.glob g ∉ i.operands := fun hmem => by cases h _ hmem
  cases i with
  | load target source indexes =>
    rcases mem_cons.mp hg with rfl | hg
    · refine ⟨indexes.isEmpty, rfl, fun hempty => ?_⟩
      rw [isEmpty_iff.mp hempty]
      rfl
    · exact absurd hg hnot
  | assign | store | call | phi | ret | cast => exact absurd hg hnot

lemma access?_of_writes? (h : i.writes? = some (.glob g)) (hs : i.storesWhole? = none) :
    i.access? = some (g, false) := by
  cases i with
  | store target indexes value =>
    cases h
    cases indexes with
    | nil => cases hs
    | cons => rfl
  | call target => cases target <;> cases h
  | assign | load | phi | ret | cast => cases h

end Inst

namespace Procedure

variable {p : Procedure}

/-- A procedure in single-assignment form without calls and predicates, in which state variables are
only loaded and stored, each of them either always as a whole or always by elements. -/
@[mk_iff]
structure Separable (p : Procedure) : Prop where
  callFree : ∀ d ∈ p.allInsts, d.inst.isCall = false
  unpredicated : p.Unpredicated
  once : p.written.Nodup
  operands : ∀ d ∈ p.allInsts, ∀ v ∈ d.inst.operands, v.local?.isSome
  conditions : ∀ node ∈ p.parts, ∀ condition ∈ node.condition?, ∀ v ∈ condition.uses, v.local?.isSome
  uniform : ∀ d ∈ p.allInsts, ∀ d' ∈ p.allInsts, ∀ x ∈ d.inst.access?, ∀ y ∈ d'.inst.access?, x.1 = y.1 → x.2 = y.2

instance (p : Procedure) : Decidable p.Separable :=
  decidable_of_iff' _ (separable_iff _)

/-- No instruction loads or stores an element of the state variable. -/
def Unindexed (p : Procedure) (g : GlobalId) : Prop :=
  ∀ d ∈ p.allInsts, d.inst.access? ≠ some (g, false)

lemma Separable.keepable (h : p.Separable) (hstores : p.StoresLive) (n : Nat) : p.Keepable p.Unindexed n where
  callFree := h.callFree
  unpredicated := h.unpredicated
  once := h.once
  whole := by
    have hunindexed : ∀ d ∈ p.allInsts, ∀ g, d.inst.access? = some (g, true) → p.Unindexed g :=
      fun d hd g hg d' hd' hg' => nomatch h.uniform d hd d' hd' _ hg _ hg' rfl
    intro d hd
    refine ⟨fun t g hload _ => ?_, fun g hg _ => hunindexed d hd g (Inst.access?_of_storesWhole? hg), ?_⟩
    · refine hunindexed d hd g ?_
      rw [hload]
      rfl
    · by_cases hload : d.inst.loadsWhole = true
      · exact .inl hload
      · refine .inr ⟨fun v hv hP => ?_, fun hs v hv hP => ?_⟩
        · cases v with
          | loc id => exact hP
          | glob g =>
            obtain ⟨flag, haccess, hwhole⟩ := Inst.access?_of_mem_uses (h.operands d hd) hv
            cases flag with
            | true => exact hload (hwhole rfl)
            | false => exact hP d hd haccess
        · cases v with
          | loc id => exact hP
          | glob g => exact hP d hd (Inst.access?_of_writes? hv hs)
  conditions := by
    intro node hnode condition hcondition v hv hP
    have hlocal := h.conditions node hnode condition hcondition v hv
    cases v with
    | loc id => exact hP
    | glob g => cases hlocal
  stores := hstores

end Procedure

namespace Actor

/-- The pass succeeds on a procedure in which each state variable is accessed as a whole or by
elements. Where a call of the procedure succeeds and those state variables are bound at entry that
are stored as a whole, the call of the new procedure succeeds with the same result, and all locals
of the procedure end with the same values. -/
theorem finalLocals_storeOnce {a : Actor} {id : ProcId} {p : Procedure} (hp : a.proc? id = some p)
    (hverify : p.verify = .ok ()) (h : p.Separable) (hstores : p.StoresLive) :
    ∃ n p', (Procedure.storeOnce a.globals).run p = (.ok n, p') ∧ p.BoundsTemps p' ∧ ∀ a' : Actor, a'.proc? id = some p' →
      ∀ (limits : Limits) (args : List Value) (m m' : Machine) (v : Option Value), m.globals.length = a.globals.length →
        (∀ d ∈ p.allInsts, ∀ g ∈ d.inst.storesWhole?, (m.global? g).isSome) →
        (Machine.call a limits id args).on m = (.ok v, m') → ∃ env, a.finalLocals? limits id args m = some env ∧
          ∃ bound, ∀ limits' : Limits, m.depth < limits'.maxDepth → bound ≤ limits'.maxSteps →
            ∃ m'' env', (Machine.call a' limits' id args).on m = (.ok v, m'') ∧
              a'.finalLocals? limits' id args m = some env' ∧ ∀ l, (p.local? l).isSome → env'.get? l = env.get? l := by
  obtain ⟨n, p', hyield, hnative, hparams, htemps, t', ht', t, ht, hrun⟩ :=
    (h.keepable hstores a.globals.length).storeOnce_yields hverify
  refine ⟨n, p', hyield, htemps, fun a' hp' limits args m m' v hlength hdefined hcall => ?_⟩
  have hfree := Procedure.not_hasCall ht h.callFree
  obtain ⟨hnative₀, hlen, f, u, env, hstep, rfl, _, hlocals, henv⟩ :=
    locals_of_call hcall hp ht hfree fun _ _ _ _ _ => False
  refine ⟨env, hlocals, ?_⟩
  obtain ⟨u', hstep', _, hsame, _⟩ := hrun (fun _ _ _ _ _ => False) m.world id args f u hlength
    (fun d hd g hg _ => hdefined d hd g hg)
    fun calls => Code.step_mono (fun _ _ _ _ _ hfalse => hfalse.elim) _ hstep
  obtain ⟨bound, hbound⟩ := call_locals_of_step hp' (hnative.trans hnative₀) hparams hlen ht' hstep'
  refine ⟨bound, fun limits' hdepth hsteps => ?_⟩
  obtain ⟨m'', env', hcall', _, hlocals', henv'⟩ := hbound limits' hdepth hsteps
  refine ⟨m'', env', hcall', hlocals', fun l hl => ?_⟩
  rw [← henv', ← henv]
  exact hsame l hl

/-- A procedure that stores its argument as a whole and the first element of a list, and returns
early if the argument is below the element that was there. -/
def mixed : Procedure :=
  { name := "mixed", params := [⟨0⟩], returnTy := .int 32
    locals := .full [{ name := "n", ty := .int 32 }, { name := "e", ty := .int 32 }, { name := "r", ty := .int 32 }]
    nodes := .full [.block [⟨0⟩, ⟨1⟩, ⟨2⟩], .block [], .block [⟨3⟩],
      .branch (.binary .lt (.var (.loc ⟨0⟩)) (.var (.loc ⟨1⟩)) .bool) [⟨2⟩] [] ⟨1⟩, .block [⟨4⟩, ⟨5⟩]]
    insts := .full [{ inst := .load ⟨1⟩ (.glob ⟨1⟩) [.int 0 (.int 32)], block := ⟨0⟩ },
      { inst := .store (.glob ⟨1⟩) [.int 0 (.int 32)] (.var (.loc ⟨0⟩)), block := ⟨0⟩ },
      { inst := .store (.glob ⟨0⟩) [] (.var (.loc ⟨0⟩)), block := ⟨0⟩ },
      { inst := .ret (some (.var (.loc ⟨1⟩))), block := ⟨2⟩ },
      { inst := .load ⟨2⟩ (.glob ⟨0⟩) [], block := ⟨4⟩ },
      { inst := .ret (some (.var (.loc ⟨2⟩))), block := ⟨4⟩ }]
    body := [⟨0⟩, ⟨3⟩, ⟨4⟩] }

/-- An actor with a number and a list as state variables and one procedure. -/
def paired (p : Procedure) : Actor :=
  { name := "paired", procs := [p]
    globals := [{ name := "number", ty := .int 32 }, { name := "list", ty := .list 2 (.int 32) }] }

/-- A state of the two variables. -/
def tenAnd (first : Int64) : Machine :=
  { globals := [some (.int 10), some (.list [.int first, .int 6])] }

/-- The run that returns early ends with the element that was there in the local that has loaded
it. -/
theorem finalLocals_storeOnce_mixed : ∃ n p', (Procedure.storeOnce (paired mixed).globals).run mixed = (.ok n, p') ∧
    ∃ bound, ∀ limits' : Limits, 0 < limits'.maxDepth → bound ≤ limits'.maxSteps →
      ∃ m'' env', (Machine.call (paired p') limits' ⟨0⟩ [.int 3]).on (tenAnd 5) = (.ok (some (.int 5)), m'') ∧
        (paired p').finalLocals? limits' ⟨0⟩ [.int 3] (tenAnd 5) = some env' ∧ env'.get? ⟨1⟩ = some (.int 5) := by
  obtain ⟨n, p', hrun, _, hcalls⟩ := @finalLocals_storeOnce (paired mixed) ⟨0⟩ mixed rfl
    (by decide +kernel) (by decide +kernel) (by decide +kernel)
  obtain ⟨env, henv, bound, hbound⟩ := hcalls (paired p') rfl {} [.int 3] (tenAnd 5) _ _ rfl (by decide +kernel) rfl
  refine ⟨n, p', hrun, bound, fun limits' hdepth hsteps => ?_⟩
  obtain ⟨m'', env', hcall', henv', hsame⟩ := hbound limits' hdepth hsteps
  cases henv
  exact ⟨m'', env', hcall', henv', hsame ⟨1⟩ rfl⟩

/-- A procedure that stores to a local that it does not have. -/
def stray : Procedure :=
  { name := "stray", returnTy := .int 32
    locals := .full [{ name := "x", ty := .int 32 }]
    nodes := .full [.block [⟨0⟩, ⟨1⟩, ⟨2⟩, ⟨3⟩]]
    insts := .full [{ inst := .store (.glob ⟨0⟩) [] (.int 5 (.int 32)), block := ⟨0⟩ },
      { inst := .store (.loc ⟨1⟩) [] (.int 7 (.int 32)), block := ⟨0⟩ },
      { inst := .load ⟨0⟩ (.glob ⟨0⟩) [], block := ⟨0⟩ },
      { inst := .ret (some (.var (.loc ⟨0⟩))), block := ⟨0⟩ }]
    body := [⟨0⟩] }

/-- The local that is made for a state variable may be one to which the procedure stores: then the
call returns the wrong value, and the local that loads the state variable has it. -/
theorem finalLocals_storeOnce_stray : stray.verify = .ok () ∧ stray.Separable ∧
    ((Machine.call (total stray) {} ⟨0⟩ []).on { globals := [some (.int 0)] }).1 = .ok (some (.int 5)) ∧
    ((Machine.call (total ((Procedure.storeOnce (total stray).globals).run stray).2) {} ⟨0⟩ []).on
      { globals := [some (.int 0)] }).1 = .ok (some (.int 7)) :=
  ⟨by decide +kernel, by decide +kernel, rfl, rfl⟩

end Actor

end ActorNet
