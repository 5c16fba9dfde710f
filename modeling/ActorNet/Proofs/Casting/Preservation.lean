import ActorNet.Proofs.Casting.Walk
import ActorNet.Proofs.PhiLowering.Preservation

/-!
# Casts that widen preserve what calls do

If every cast that is inserted into a procedure widens, a call of the new procedure does what the
call of the procedure did. This holds of procedures over truth values and integers in single
assignment form (`Procedure.Plain`), where casts can stand at the places that they are put to
(`Procedure.Castable`):

* an operand of a logical operator may not be evaluated, but its casts stand before the whole
  expression;
* a phi may pick an operand of another edge, but casts stand at the ends of the edges that the
  operands name;
* the condition of a loop is tested after all phis are bound at once, but its casts read one operand
  after the other;
* a cast of the procedure itself may give a value that has not the type of its target.
-/

namespace ActorNet

open List

lemma Inst.writes?_of_def? {x : LocalId} (i : Inst) (h : i.def? = some x) : i.writes? = some (.loc x) := by
  cases i with
  | store => cases h
  | assign | load | call | phi | ret | cast => exact congrArg (Option.map VarRef.loc) h

variable {n : Nat} {id : ProcId} {args : List Value}

namespace Procedure

variable {p p' : Procedure} {globals : List Variable}

/-- A procedure over truth values and integers in single assignment form, without calls and
predicates. Its literals lie in the ranges of their types, and its operators have the types of what
they compute. -/
@[mk_iff]
structure Plain (globals : List Variable) (p : Procedure) : Prop where
  callFree : ∀ d ∈ p.allInsts, d.inst.isCall = false
  unpredicated : p.Unpredicated
  unguarded : ∀ φ ∈ p.listedPhis, ∀ arm ∈ φ.arms, arm.guard = none
  single : p.SingleAssignment
  insts : ∀ d ∈ p.allInsts, d.inst.Plain (p.scope globals)
  conditions : ∀ node ∈ p.parts, ∀ condition ∈ node.condition?, condition.Plain (p.scope globals)

/-- Casts can stand at the places of a procedure that they are put to. -/
@[mk_iff]
structure Castable (globals : List Variable) (p : Procedure) : Prop where
  /-- No cast is needed inside of a right operand of a logical operator. -/
  insts : ∀ d ∈ p.allInsts, d.inst.Orderly (p.scope globals)
  conditions : ∀ node ∈ p.parts, ∀ condition ∈ node.condition?, condition.Orderly (p.scope globals)
  operands : p.OperandPerEdge
  /-- If the condition of a loop needs a cast, no phi reads the target of a later one. -/
  loops : ∀ node ∈ p.parts, node.edges = [.entry, .back] → ∀ condition ∈ node.condition?,
    condition.Exact (p.scope globals) .bool ∨ ∀ edge ∈ node.edges, Phi.Resolved edge (p.joinPhis node)
  /-- Casts go to the types of their targets. -/
  converts : ∀ d ∈ p.allInsts, d.inst.Converts (p.scope globals)

instance (globals : List Variable) (p : Procedure) : Decidable (p.Plain globals) :=
  decidable_of_iff' _ (plain_iff _ _)

instance (globals : List Variable) (p : Procedure) : Decidable (p.Castable globals) :=
  decidable_of_iff' _ (castable_iff _ _)

/-! ## The code of a procedure -/

variable {t : Tree}

lemma castable_code (hplain : p.Plain globals) (hcast : p.Castable globals) (ht : t.Spans p) :
    (t.code p).Castable (p.scope globals) := by
  have hphi : ∀ node ∈ p.parts, ∀ join, node.join? = some join → join ∈ p.nodesIn p.body →
      ∀ φ ∈ p.joinPhis node, φ.Castable (p.scope globals) node.edges := by
    intro node hnode join hjoin hmem φ hφ
    obtain ⟨d, hd, hinst⟩ := exists_inst_of_mem_phis (mem_phis_of_joinPhis hjoin hmem hφ)
    have hparts := hplain.insts d hd
    rw [hinst] at hparts
    exact ⟨hparts.1, hparts.2, hcast.operands node hnode φ hφ⟩
  refine forall_code ?_ ?_ ?_ ht
  · intro d hlisted hd
    refine ⟨⟨hplain.callFree d hd, hplain.insts d hd, hcast.insts d hd, hcast.converts d hd, ?_⟩,
      hplain.unpredicated d hd⟩
    cases hinst : d.inst with
    | phi target arms => exact hplain.unguarded ⟨target, arms⟩ (mem_phis_of_inst hlisted hinst)
    | assign | load | store | call | ret | cast => trivial
  · intro c ts es j hnode hj
    exact ⟨⟨hplain.conditions _ hnode c rfl, hcast.conditions _ hnode c rfl⟩, hphi _ hnode j rfl hj⟩
  · intro c bs j hnode hj
    exact ⟨⟨hplain.conditions _ hnode c rfl, hcast.conditions _ hnode c rfl⟩, hphi _ hnode j rfl hj,
      hcast.loops _ hnode rfl c rfl⟩

variable {o : Outside}

lemma ready_of_castable {c : Code} (h : c.Castable (p.scope o.globals)) : c.Ready o p False := by
  refine Code.Forall.and_imp h (Code.forall_insts.mpr h.insts) (fun i _ hi hwrites => ⟨False.elim, fun x hx => ?_⟩)
    (fun _ _ _ hphis => ⟨False.elim, fun φ hφ => ?_⟩) fun _ _ _ hphis => ⟨False.elim, fun φ hφ => ?_⟩
  · exact hwrites.2 (.loc x) (i.writes?_of_def? hx)
  · exact (hphis φ hφ).2 (.loc φ.target) rfl
  · exact (hphis φ hφ).2 (.loc φ.target) rfl

/-- Casting a procedure casts its code. Locals that it writes may be read as temporaries then. -/
lemma insertCasts_casted {S : Prop} (h : Yields (insertCasts o) p n p')
    (ht : t.Spans p) (hready : (t.code p).Ready o p S) (hnodup : (t.code p).writes.Nodup) :
    p'.native = p.native ∧ p'.params = p.params ∧ ∃ (τ : Subst) (t' : Tree), t'.Spans p' ∧ τ.Moves
      (fun x => x ∈ (t.code p).writes ∧ x.index < p.locals.size) p.locals.size p'.locals.size ∧
      Casted o p S p' τ n (t.code p) (t'.code p') := by
  rw [insertCasts, yields_read, ← ht.roots] at h
  have hlist : ListAt .body (Tree.nil.append t) p := ht.listAt
  have hstays : t.Stays (p.subst .id) p := by
    rw [subst_id]
    exact Tree.Stays.refl t p
  obtain ⟨k, rfl, τ, t', c', hrw, hadvance, hcode, hcasted⟩ :=
    castsLists o p True S (p.depth + 1) .body .nil t .id p p' 0 n
    hlist ⟨⟨Advances.refl p, hstays.insts, fun _ => hnodup, fun _ _ _ => rfl⟩,
      hstays.code, fun _ => hready, fun _ => trivial⟩
    (Nat.le_succ_of_le ht.sound.height_le) h
  refine ⟨hrw.edits.native, hrw.edits.params, τ, t', hrw.list.spans,
    hadvance.moves.mono (fun _ hx => ⟨hx.1, hx.2 trivial⟩) le_rfl le_rfl, ?_⟩
  rw [hcode, Nat.zero_add]
  exact hcasted.2 trivial

/-- If all casts widen, casting a procedure gives it code that mimics its code. -/
lemma insertCasts_code (h : Yields (insertCasts o) p n p') (calls : CallStep) (ht : t.Spans p)
    (hcast : (t.code p).Castable (p.scope o.globals)) (hnodup : (t.code p).writes.Nodup) :
    p'.native = p.native ∧ p'.params = p.params ∧ ∃ (τ : Subst) (t' : Tree), t'.Spans p' ∧ τ.Moves
    (fun x => x ∈ (t.code p).writes ∧ x.index < p.locals.size) p.locals.size p'.locals.size ∧
      (p'.WidensFrom o.globals p.insts.size →
      Mimics (p.scope o.globals) calls τ (t.code p) (t'.code p')) := by
  obtain ⟨hnative, hparams, τ, t', ht', hmoves, hcasted⟩ :=
    insertCasts_casted h ht (ready_of_castable hcast) hnodup
  exact ⟨hnative, hparams, τ, t', ht', hmoves, hcasted.mimics calls hcast⟩

/-! ## Entering a procedure -/

/-- Nothing that is read differently has a value when a procedure is entered: it is written by the
procedure, so it is no parameter. -/
lemma mirrors_enter {τ : Subst} {M : Nat} (hverify : p.verify = .ok ()) (hsingle : p.SingleAssignment)
    (hτ : τ.Moves (fun x => x ∈ p.written ∧ x.index < p.locals.size) p.locals.size M) {w : World}
    (hargs : ∀ b ∈ p.params.zip args, ∀ v ∈ p.local? b.1, b.2.HasTy v.ty)
    (hglobals : ∀ b ∈ globals.zip w.globals, ∀ y ∈ b.2, y.HasTy b.1.ty) :
    Mirrors (p.scope globals) τ (w.enter id p args) (w.enter id p args) where
  world := rfl
  reads := by
    intro x _ _
    rcases hτ x with hx | ⟨⟨hwritten, _⟩, k, hk, hlow, _⟩
    · rw [hx]
      rfl
    · have hfresh : (Env.ofArgs p.params args).get? x = none :=
        Env.ofArgs_get?_of_not_mem fun hparam => hsingle.params x hparam hwritten
      have htemp : (Env.ofArgs p.params args).get? k = none := by
        refine Env.ofArgs_get?_of_not_mem fun hparam => ?_
        exact Nat.not_lt.mpr hlow (index_lt_of_local? (params_live_of_verify hverify k hparam))
      rw [hk]
      exact htemp.trans hfresh.symm
  typed := by
    intro v ty hty y hy
    obtain ⟨known, hknown, rfl⟩ := map_eq_some_iff.mp hty
    cases v with
    | loc x => exact hargs (x, y) (Env.mem_zip_of_ofArgs_get? hy) known hknown
    | glob g =>
      obtain ⟨hlt, hget⟩ := List.getElem?_eq_some_iff.mp hknown
      have hy' : w.globals[g.index]? = some (some y) := Option.join_eq_some_iff.mp hy
      obtain ⟨hlt', hget'⟩ := List.getElem?_eq_some_iff.mp hy'
      refine hglobals (known, some y) (mem_iff_getElem.mpr ⟨g.index, ?_, ?_⟩) y rfl
      · rw [length_zip]
        exact Nat.lt_min.mpr ⟨hlt, hlt'⟩
      · rw [getElem_zip, hget, hget']

end Procedure

namespace Actor

/-- If casts are inserted into a procedure and all of them widen, a call of the new procedure
succeeds whenever the call of the procedure did, with the same result, and it leaves the same state
variables and the same trace. -/
theorem call_insertCasts {a : Actor} {p p' : Procedure} (hp : a.proc? id = some p)
    (hverify : p.verify = .ok ()) (hplain : p.Plain a.globals) (hcast : p.Castable a.globals)
    (h : (Procedure.insertCasts ⟨a.globals, a.signatures⟩).run p = (.ok n, p'))
    (hwide : p'.WidensFrom a.globals p.insts.size) {a' : Actor} (hp' : a'.proc? id = some p') {limits : Limits}
    {m m' : Machine} {v : Option Value}
    (hargs : ∀ b ∈ p.params.zip args, ∀ x ∈ p.local? b.1, b.2.HasTy x.ty)
    (hglobals : ∀ b ∈ a.globals.zip m.globals, ∀ y ∈ b.2, y.HasTy b.1.ty)
    (hcall : (Machine.call a limits id args).on m = (.ok v, m')) :
    ∃ bound, ∀ limits' : Limits, m.depth < limits'.maxDepth → bound ≤ limits'.maxSteps →
      ∃ m'', (Machine.call a' limits' id args).on m = (.ok v, m'') ∧ m''.globals = m'.globals ∧ m''.trace = m'.trace := by
  obtain ⟨t, ht⟩ := Procedure.exists_tree_of_verify hverify
  have hwrites := Procedure.writes_code ht
  obtain ⟨hnative, hparams, τ, t', ht', hmoves, hmimics⟩ := Procedure.insertCasts_code h
    (a'.calls 0) ht (Procedure.castable_code hplain hcast ht) (hwrites ▸ hplain.single.once)
  rw [hwrites] at hmoves
  -- the run is the same whatever calls mean, for there are none
  obtain ⟨hnative₀, hlength, f, u, hstep, rfl, hworld⟩ := step_of_call hcall hp ht
    (Procedure.not_hasCall ht hplain.callFree) (a'.calls 0)
  obtain ⟨u', hstep', hu⟩ := (hmimics hwide).sim _ _ f u
    (Procedure.mirrors_enter hverify hplain.single hmoves hargs hglobals) hstep
  have hsame : u'.toWorld = u.toWorld := by
    cases f with
    | next => exact hu.world
    | ret => exact hu
  obtain ⟨bound, hbound⟩ := call_locals_of_step hp' (hnative.trans hnative₀) hparams hlength ht' hstep'
  refine ⟨bound, fun limits' hdepth hsteps => ?_⟩
  obtain ⟨m'', _, hcall', hworld', _⟩ := hbound limits' hdepth hsteps
  have hend : m''.world = m'.world := (hworld'.trans hsame).trans hworld.symm
  exact ⟨m'', hcall', congrArg World.globals hend, congrArg World.trace hend⟩

/-- A procedure that counts up to its argument in the state variable, with types of many widths. -/
def count : Procedure :=
  { name := "count", params := [⟨0⟩], returnTy := .int 64
    locals := .full [{ name := "n", ty := .int 16 }, { name := "i", ty := .int 8 }, { name := "k", ty := .int 8 },
      { name := "z", ty := .int 4 }, { name := "r", ty := .int 32 }]
    nodes := .full [.block [⟨0⟩], .block [⟨1⟩],
      .loop (.binary .lt (.var (.loc ⟨1⟩)) (.var (.loc ⟨0⟩)) .bool) [⟨3⟩] ⟨1⟩, .block [⟨2⟩, ⟨3⟩], .block [⟨4⟩, ⟨5⟩]]
    insts := .full [{ inst := .assign ⟨3⟩ (.int 0 (.int 4)), block := ⟨0⟩ },
      { inst := .phi ⟨1⟩ [⟨.entry, .loc ⟨3⟩, none⟩, ⟨.back, .loc ⟨2⟩, none⟩], block := ⟨1⟩ },
      { inst := .store (.glob ⟨0⟩) [] (.var (.loc ⟨1⟩)), block := ⟨3⟩ },
      { inst := .assign ⟨2⟩ (.binary .add (.var (.loc ⟨1⟩)) (.int 1 (.int 8)) (.int 8)), block := ⟨3⟩ },
      { inst := .load ⟨4⟩ (.glob ⟨0⟩) [], block := ⟨4⟩ },
      { inst := .ret (some (.binary .add (.var (.loc ⟨4⟩)) (.var (.loc ⟨0⟩)) (.int 32))), block := ⟨4⟩ }]
    body := [⟨0⟩, ⟨2⟩, ⟨4⟩] }

/-- A procedure that divides only if its first argument holds. -/
def safe : Procedure :=
  { name := "safe", params := [⟨0⟩, ⟨1⟩, ⟨2⟩], returnTy := .bool
    locals := .full [{ name := "c", ty := .bool }, { name := "d", ty := .int 8 }, { name := "w", ty := .int 16 }]
    nodes := .full [.block [⟨0⟩]]
    insts := .full [{ inst := .ret (some (.binary .and (.var (.loc ⟨0⟩)) (.binary .lt
        (.binary .div (.int 10 (.int 8)) (.var (.loc ⟨1⟩)) (.int 8)) (.var (.loc ⟨2⟩)) .bool) .bool)), block := ⟨0⟩ }]
    body := [⟨0⟩] }

/-- An actor with a state variable of 16 bits and one procedure. -/
def counting (p : Procedure) : Actor :=
  { name := "counting", globals := [{ name := "g", ty := .int 16 }], procs := [p] }

def casted (p : Procedure) : Procedure :=
  ((Procedure.insertCasts ⟨(counting p).globals, (counting p).signatures⟩).run p).2

lemma insertCasts_count : (Procedure.insertCasts ⟨(counting count).globals, (counting count).signatures⟩).run count =
    (.ok 7, casted count) :=
  eq_mk_of_fst_eq (by decide +kernel)

/-- Seven casts widen operands, a phi, the condition of the loop, what is stored and what is
loaded. -/
theorem call_insertCasts_count : ∃ bound, ∀ limits' : Limits, 0 < limits'.maxDepth → bound ≤ limits'.maxSteps →
    ∃ m'', (Machine.call (counting (casted count)) limits' ⟨0⟩ [.int 3]).on { globals := [some (.int 10)] } =
      (.ok (some (.int 5)), m'') ∧ m''.globals = [some (.int 2)] ∧ m''.trace = [⟨0⟩] := by
  have hcall : (Machine.call (counting count) {} ⟨0⟩ [.int 3]).on { globals := [some (.int 10)] } =
      (.ok (some (.int 5)), { globals := [some (.int 2)], trace := [⟨0⟩], steps := 12 }) := by rfl
  have hproc : (counting count).proc? ⟨0⟩ = some count := rfl
  have hproc' : (counting (casted count)).proc? ⟨0⟩ = some (casted count) := rfl
  exact call_insertCasts hproc (by decide +kernel) (by decide +kernel) (by decide +kernel) insertCasts_count
    (by decide +kernel) hproc' (by decide +kernel) (by decide +kernel) hcall

/-- The cast of the quotient stands before the whole expression, so the division is done although
the first operand of the conjunction decides. -/
theorem call_insertCasts_safe : safe.verify = .ok () ∧ safe.Plain (counting safe).globals ∧
    ((Procedure.insertCasts ⟨(counting safe).globals, (counting safe).signatures⟩).run safe).1 = .ok 1 ∧
    (casted safe).WidensFrom (counting safe).globals safe.insts.size ∧
    (∃ m, (Machine.call (counting safe) {} ⟨0⟩ [.bool false, .int 0, .int 3]).on { globals := [some (.int 0)] } =
      (.ok (some (.bool false)), m)) ∧
    ∃ m, (Machine.call (counting (casted safe)) {} ⟨0⟩ [.bool false, .int 0, .int 3]).on { globals := [some (.int 0)] } =
      (.error (.mismatch "safe" "non-zero divisor" "zero"), m) :=
  ⟨by decide +kernel, by decide +kernel, by decide +kernel, by decide +kernel, ⟨_, rfl⟩, ⟨_, rfl⟩⟩

end Actor

end ActorNet
