import ActorNet.Proofs.PhiLowering.Walk
import ActorNet.Proofs.Structure.Parts

/-!
# Lowering phis preserves what calls do

Where the copies of every join are in order, nothing is stored to an operand for which zero is
copied, and the guards of phis outside of joins exclude each other, a call on the lowered actor does
what the call on the actor did.
-/

namespace ActorNet

variable {n : Nat}

namespace Procedure

variable {p p' : Procedure}

/-- Every phi of a join has exactly one operand for each edge into the join. -/
def OperandPerEdge (p : Procedure) : Prop :=
  ∀ node ∈ p.parts, ∀ φ ∈ p.joinPhis node, ∀ edge ∈ node.edges, φ.Tagged edge
deriving Decidable

/-- Copies can stand for the phis of a procedure. -/
structure CopiesAgree (p : Procedure) : Prop where
  /-- On no edge a copy reads what an earlier one has overwritten. -/
  inOrder : ∀ node ∈ p.parts, ∀ edge ∈ node.edges, Phi.InOrder edge (p.joinPhis node)
  /-- Nothing is stored to an operand for which zero is copied. -/
  zeroed : ∀ φ ∈ p.phis, ∀ arm ∈ φ.arms, ∀ id ∈ arm.var.local?, p.isUnset p.definedLocals id = true →
    id ∉ p.storedLocals
  /-- The guards of a phi outside of joins exclude each other. -/
  apart : ∀ φ ∈ p.listedPhis, φ.Apart

/-- A local that nothing binds, neither a call nor an instruction. -/
def Unbound (p : Procedure) (id : LocalId) : Prop :=
  id ∉ p.params ∧ ∀ d ∈ p.allInsts, d.inst.binds? ≠ some id

variable {id : LocalId}

lemma mem_definedLocals {d : InstData} (hd : d ∈ p.allInsts) (hdef : d.inst.def? = some id) :
    id ∈ p.definedLocals := by
  obtain ⟨i, hi, hd⟩ := List.mem_filterMap.mp hd
  refine List.mem_filterMap.mpr ⟨i, hi, ?_⟩
  rw [hd]
  exact hdef

lemma unbound_of_isUnset (hunset : p.isUnset p.definedLocals id = true)
    (hstored : id ∉ p.storedLocals) : p.Unbound id := by
  refine ⟨fun hparam => ?_, fun d hd hbinds => ?_⟩
  · simp [isUnset, isParam, hparam] at hunset
  · unfold Inst.binds? at hbinds
    split at hbinds
    · rename_i i value hstore
      cases hbinds
      refine hstored (List.mem_filterMap.mpr ⟨d, hd, ?_⟩)
      rw [hstore]
    · have hdefined := mem_definedLocals hd hbinds
      simp [isUnset, hdefined] at hunset

variable {φ : Phi}

lemma copied_of_unstored (h : ∀ arm ∈ φ.arms, ∀ id ∈ arm.var.local?,
    p.isUnset p.definedLocals id = true → id ∉ p.storedLocals) : Code.Copied (p.copied p.definedLocals) p.Unbound φ := by
  intro arm harm
  unfold copied
  split
  · rename_i id v hid hv
    obtain ⟨hsource, hunset⟩ := filter_eq_some_iff.mp hid
    have hvar : arm.var = .loc id := by
      cases hav : arm.var with
      | loc i =>
        rw [hav] at hsource
        cases hsource
        rfl
      | glob i =>
        rw [hav] at hsource
        cases hsource
    exact .inr ⟨id, hvar, unbound_of_isUnset hunset (h arm harm id hsource hunset)⟩
  · exact .inl rfl

lemma copied_of_agree (hagree : p.CopiesAgree) (hφ : φ ∈ p.phis) :
    Code.Copied (p.copied p.definedLocals) p.Unbound φ :=
  copied_of_unstored (hagree.zeroed φ hφ)

lemma joinLowerable {node : Node} {join : NodeId} (htagged : p.OperandPerEdge) (hagree : p.CopiesAgree)
    (hnode : node ∈ p.parts) (hjoin : node.join? = some join) (hmem : join ∈ p.nodesIn p.body) :
    Code.JoinLowerable (p.copied p.definedLocals) p.Unbound node.edges (p.joinPhis node) where
  tagged := htagged node hnode
  inOrder := hagree.inOrder node hnode
  copied := fun φ hφ => copied_of_agree hagree (mem_phis_of_joinPhis hjoin hmem hφ)
  targets := by
    intro φ hφ hunbound
    obtain ⟨d, hd, hinst⟩ := exists_inst_of_mem_phis (mem_phis_of_joinPhis hjoin hmem hφ)
    refine hunbound.2 d hd ?_
    rw [hinst]
    rfl

variable {t : Tree}

lemma lowerable_code (ht : t.Spans p) (hpred : p.Unpredicated)
    (htagged : p.OperandPerEdge) (hagree : p.CopiesAgree) :
    (t.code p).Lowerable (p.copied p.definedLocals) p.Unbound := by
  refine forall_code ?_ ?_ ?_ ht
  · intro d hlisted hd
    refine ⟨fun id hbinds hunbound => hunbound.2 d hd hbinds, fun target arms hphi => ⟨hpred d hd, ?_, ?_⟩⟩
    · exact hagree.apart _ (mem_phis_of_inst hlisted hphi)
    · exact copied_of_agree hagree (mem_phis_of_inst hd hphi)
  · exact fun c ts es j hnode hj => joinLowerable htagged hagree hnode rfl hj
  · exact fun c bs j hnode hj => joinLowerable htagged hagree hnode rfl hj

/-- A procedure has been lowered, and of some locals that are no parameters those are dropped that
nothing mentions. -/
structure LoweredTo (t t' : Tree) (zeroed : List LocalId) (p q p' : Procedure) : Prop where
  rewrites : Rewrites .body t t' p q
  code : t'.code q = (t.code p).lower (p.copied p.definedLocals)
  keeps : Keeps p q
  noParam : ∀ id ∈ zeroed, id ∉ p.params
  dropped : p' = q.dropUnused zeroed

lemma LoweredTo.spans {t' : Tree} {zeroed : List LocalId} {q : Procedure}
    (h : LoweredTo t t' zeroed p q p') : t'.Spans p' := by
  -- dropping unused locals leaves nodes and instructions alone
  rw [h.dropped]
  exact ⟨h.rewrites.list.nodes.symm, h.rewrites.list.sound.congr (fun n _ => rfl) fun i _ => rfl⟩

lemma loweredTo_of_removePhis (h : Yields removePhis p n p') (ht : t.Spans p) :
    n = (t.code p).phiCount ∧ ∃ t' zeroed q, LoweredTo t t' zeroed p q p' := by
  rw [removePhis, yields_read] at h
  simp only [yields_bind, yields_transform_modify, yields_pure] at h
  obtain ⟨done, q, hvisit, _, _, rfl, rfl, rfl⟩ := h
  rw [← ht.roots] at hvisit
  have hlist : ListAt .body (Tree.nil.append t) p := ht.listAt
  obtain ⟨t', hrw, hcode, hkeeps, htally⟩ := lowersLists p.definedLocals (p.depth + 1) .body .nil t p q {} done hlist
    (Nat.le_succ_of_le ht.sound.height_le) hvisit
  refine ⟨htally.phis.trans (Nat.zero_add _), t', done.zeroed, q, hrw, hcode, hkeeps, fun id hid => ?_, rfl⟩
  exact (htally.zeroed id hid).resolve_left fun hnil => by cases hnil

/-- Lowering a procedure lowers its code. -/
lemma removePhis_code (h : Yields removePhis p n p') (ht : t.Spans p) :
    p'.native = p.native ∧ p'.params = p.params ∧ ∃ t' : Tree, t'.Spans p' ∧
      t'.code p' = (t.code p).lower (p.copied p.definedLocals) := by
  obtain ⟨_, t', zeroed, q, hlow⟩ := loweredTo_of_removePhis h ht
  have hspans := hlow.spans
  rw [hlow.dropped] at hspans ⊢
  refine ⟨hlow.rewrites.edits.native, hlow.rewrites.edits.params, t', hspans, ?_⟩
  rw [← hlow.code]
  exact Tree.code_congr (fun n _ => rfl) fun i _ => rfl

lemma clear_enter (w : World) (id : ProcId) (args : List Value) : (w.enter id p args).Clear p.Unbound :=
  fun _ hi => Env.ofArgs_get?_of_not_mem hi.1

/-- A lowered procedure does what the procedure did. -/
lemma refines_removePhis (htree : ∃ t : Tree, t.Spans p) (hnative : p.native = false)
    (hpred : p.Unpredicated) (htagged : p.OperandPerEdge) (hagree : p.CopiesAgree)
    (h : Yields removePhis p n p') : Actor.Refines p p' := by
  obtain ⟨t0, ht0⟩ := htree
  obtain ⟨hnative', hparams, _⟩ := removePhis_code h ht0
  refine ⟨hnative'.trans hnative, hparams, ?_⟩
  intro t ht
  obtain ⟨_, _, t', ht', hcode⟩ := removePhis_code h ht
  refine ⟨t', ht', ?_⟩
  intro calls w id args f u hstep
  obtain ⟨u', hstep', hu⟩ := lower_sim (lowerable_code ht hpred htagged hagree) _ _ f u
    ⟨rfl, clear_enter w id args⟩ hstep
  have hsame : u' = u := by
    cases f with
    | next | ret => exact hu.1
  rw [hcode]
  exact ⟨f, u', hstep', rfl, by rw [hsame]⟩

end Procedure

namespace Actor

/-- A call on the lowered actor does what the call on the actor did: it succeeds with the same
result and leaves the same state variables and the same trace, if the limits leave enough room. -/
theorem call_removePhis {a a' : Actor} (hcheck : a.check = .ok ())
    (hpred : ∀ p ∈ a.procs, p.native = false → p.Unpredicated)
    (htagged : ∀ p ∈ a.procs, p.native = false → p.OperandPerEdge)
    (hagree : ∀ p ∈ a.procs, p.native = false → p.CopiesAgree) (h : a.removePhis = (.ok n, a'))
    {limits : Limits} {id : ProcId} {args : List Value} {m m' : Machine} {v : Option Value}
    (hcall : (Machine.call a limits id args).on m = (.ok v, m')) :
    ∃ bound, ∀ limits' : Limits, limits.maxDepth ≤ limits'.maxDepth → bound ≤ limits'.maxSteps →
      ∃ m'', (Machine.call a' limits' id args).on m = (.ok v, m'') ∧ m''.globals = m'.globals ∧
        m''.trace = m'.trace := by
  have htrees := hasTrees_of_check hcheck
  refine call_of_transformProcs htrees h (fun id p hp hnative k p' hk => ?_) hcall
  have hmem := List.mem_of_getElem? hp
  exact Procedure.refines_removePhis (htrees id p hp) hnative (hpred p hmem hnative) (htagged p hmem hnative)
    (hagree p hmem hnative) hk

/-- A loop that runs as often as its argument says; each time around `x` and `y`, which start as 1
and 2, take the values of the given locals. The procedure returns `y`. -/
def taking (x y : LocalId) : Actor :=
  { name := "taking"
    procs := [{
      name := "take", params := [⟨0⟩], returnTy := .int 32
      locals := .full [{ name := "n", ty := .int 32 }, { name := "x", ty := .int 32, index := 1 },
        { name := "y", ty := .int 32, index := 1 }, { name := "i", ty := .int 32, index := 1 },
        { name := "i", ty := .int 32, index := 2 }, { name := "k", ty := .int 32 }, { name := "l", ty := .int 32 },
        { name := "z", ty := .int 32 }]
      nodes := .full [.block [⟨0⟩, ⟨1⟩, ⟨2⟩], .block [⟨3⟩, ⟨4⟩, ⟨5⟩],
        .loop (.binary .lt (.var (.loc ⟨3⟩)) (.var (.loc ⟨0⟩)) .bool) [⟨3⟩] ⟨1⟩, .block [⟨6⟩], .block [⟨7⟩]]
      insts := .full [{ inst := .assign ⟨5⟩ (.int 1 (.int 32)), block := ⟨0⟩ },
        { inst := .assign ⟨6⟩ (.int 2 (.int 32)), block := ⟨0⟩ },
        { inst := .assign ⟨7⟩ (.int 0 (.int 32)), block := ⟨0⟩ },
        { inst := .phi ⟨1⟩ [⟨.entry, .loc ⟨5⟩, none⟩, ⟨.back, .loc x, none⟩], block := ⟨1⟩ },
        { inst := .phi ⟨2⟩ [⟨.entry, .loc ⟨6⟩, none⟩, ⟨.back, .loc y, none⟩], block := ⟨1⟩ },
        { inst := .phi ⟨3⟩ [⟨.entry, .loc ⟨7⟩, none⟩, ⟨.back, .loc ⟨4⟩, none⟩], block := ⟨1⟩ },
        { inst := .assign ⟨4⟩ (.binary .add (.var (.loc ⟨3⟩)) (.int 1 (.int 32)) (.int 32)), block := ⟨3⟩ },
        { inst := .ret (some (.var (.loc ⟨2⟩))), block := ⟨4⟩ }]
      body := [⟨0⟩, ⟨2⟩, ⟨4⟩] }] }

/-- Where `x` keeps its value and `y` takes it, the copies are in order. -/
theorem call_removePhis_shift : ∃ bound, ∀ limits' : Limits, 64 ≤ limits'.maxDepth → bound ≤ limits'.maxSteps →
    ∃ m'', (Machine.call (taking ⟨1⟩ ⟨1⟩).removePhis.2 limits' ⟨0⟩ [.int 2]).on { globals := [] } =
      (.ok (some (.int 1)), m'') ∧ m''.globals = [] ∧ m''.trace = [⟨0⟩] := by
  have hok : (taking ⟨1⟩ ⟨1⟩).removePhis.1 = .ok 3 := by decide +kernel
  have hcall : (Machine.call (taking ⟨1⟩ ⟨1⟩) {} ⟨0⟩ [.int 2]).on { globals := [] } =
      (.ok (some (.int 1)), { globals := [], trace := [⟨0⟩], steps := 8 }) := by rfl
  have hlisted : ∀ p ∈ (taking ⟨1⟩ ⟨1⟩).procs, p.listedPhis.length = 0 := by decide +kernel
  refine call_removePhis (by decide +kernel) ?_ ?_ (fun p hp _ => ⟨?_, ?_, ?_⟩) (eq_mk_of_fst_eq hok) hcall
  · exact fun p hp _ => (by decide +kernel : ∀ p ∈ (taking ⟨1⟩ ⟨1⟩).procs, p.Unpredicated) p hp
  · exact fun p hp _ => (by decide +kernel : ∀ p ∈ (taking ⟨1⟩ ⟨1⟩).procs, p.OperandPerEdge) p hp
  · revert p
    decide +kernel
  · revert p
    decide +kernel
  · intro φ hφ
    rw [List.length_eq_zero_iff.mp (hlisted p hp)] at hφ
    cases hφ

/-- Where `x` and `y` are swapped, the copy to `x` overwrites what the copy to `y` reads: the
lowered procedure returns another value. -/
theorem call_removePhis_swap : (taking ⟨2⟩ ⟨1⟩).check = .ok () ∧
    (∀ p ∈ (taking ⟨2⟩ ⟨1⟩).procs, p.SingleAssignment ∧ p.Unpredicated ∧ p.OperandPerEdge) ∧
    (taking ⟨2⟩ ⟨1⟩).removePhis.1 = .ok 3 ∧
    (∃ m, (Machine.call (taking ⟨2⟩ ⟨1⟩) {} ⟨0⟩ [.int 1]).on { globals := [] } = (.ok (some (.int 1)), m)) ∧
    ∃ m, (Machine.call (taking ⟨2⟩ ⟨1⟩).removePhis.2 {} ⟨0⟩ [.int 1]).on { globals := [] } = (.ok (some (.int 2)), m) :=
  ⟨by decide +kernel, by decide +kernel, by decide +kernel, returns_int (by decide +kernel),
    returns_int (by decide +kernel)⟩

end Actor

end ActorNet
