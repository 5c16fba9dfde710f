import ActorNet.Proofs.Predication.Hoist

/-!
# Predication preserves what calls do

On an actor whose procedures have no loops and write every local at most once, predication succeeds,
and a call on the predicated actor does what the call on the actor did.
-/

namespace ActorNet

open List

namespace Procedure

variable {p p' : Procedure}

/-- What predication asks of a procedure. -/
@[mk_iff]
structure Predicable (p : Procedure) : Prop where
  loopFree : p.hasLoop = false
  unpredicated : p.Unpredicated
  single : p.SingleAssignment
  /-- Joins are blocks. -/
  joins : ∀ node ∈ p.parts, ∀ join ∈ node.join?, p.isBlock join = true
  /-- The phis of joins have one operand for each branch. -/
  phis : ∀ node ∈ p.parts, ∀ φ ∈ p.joinPhis node, φ.TwoWay
  /-- Conditions read no state variable. -/
  conditions : ∀ node ∈ p.parts, ∀ condition ∈ node.condition?, condition.ReadsLocals

instance (p : Procedure) : Decidable p.Predicable :=
  decidable_of_iff' _ (predicable_iff _)

lemma loop_not_mem_parts {c : Expr} {body : List NodeId} {j : NodeId} (h : p.hasLoop = false) :
    .loop c body j ∉ p.parts := by
  intro hnode
  obtain ⟨n, hn, hnode⟩ := mem_filterMap.mp hnode
  rw [hasLoop_iff.mpr ⟨n, hn, c, body, j, hnode⟩] at h
  cases h

lemma Predicable.code (h : p.Predicable) {t : Tree} (ht : t.Spans p) :
    (t.code p).Predicable := by
  refine forall_code ?_ ?_ ?_ ht
  · exact fun d _ hd => h.unpredicated d hd
  · exact fun c ts es j hnode _ => ⟨h.conditions _ hnode c rfl, h.phis _ hnode⟩
  · exact fun c bs j hnode _ => loop_not_mem_parts h.loopFree hnode

lemma Predicable.ifConvert_yields (h : p.Predicable) (hverify : p.verify = .ok ()) : ∃ n p', Yields ifConvert p n p' := by
  obtain ⟨t, ht⟩ := exists_tree_of_verify hverify
  obtain ⟨π, hfits⟩ : ∃ π : Layout, π.Fits (fun _ => False) p := exists_layout hverify
  obtain ⟨p', hyield, _⟩ := ActorNet.ifConvert_yields hfits ht h.loopFree
  exact ⟨_, p', hyield⟩

lemma Predicable.refines (h : p.Predicable) (hverify : p.verify = .ok ())
    (hnative : p.native = false) {n : Nat} (hyield : Yields ifConvert p n p') : Actor.Refines p p' := by
  obtain ⟨π, hfits⟩ : ∃ π : Layout, π.Fits (fun _ => False) p := exists_layout hverify
  have hresult : ∀ t : Tree, t.Spans p → Predicated t p p' := by
    intro t ht
    obtain ⟨q, hq, hpred⟩ := ActorNet.ifConvert_yields hfits ht h.loopFree
    obtain ⟨_, rfl⟩ := hyield.unique hq
    exact hpred
  obtain ⟨t0, ht0⟩ := exists_tree_of_verify hverify
  have hrest := (hresult t0 ht0).rest
  refine ⟨by rw [hrest]; exact hnative, by rw [hrest], ?_⟩
  intro t ht
  have hpred := hresult t ht
  refine ⟨_, hpred.spans, ?_⟩
  intro calls w id args f u hstep
  have hwrites := writes_code ht
  refine ⟨f, u, ?_, rfl, rfl⟩
  rw [hpred.code_eq]
  refine flatten_step (h.code ht) ?_ ?_ nofun trivial hstep
  · rw [hwrites]
    exact h.single.once
  · rw [hwrites]
    exact h.single.fresh_enter w id args

end Procedure

namespace Actor

/-- Predication succeeds, and a call on the predicated actor does what the call on the actor did: it
succeeds with the same result and leaves the same state variables and the same trace, if the limits
leave enough room. -/
theorem call_ifConvert {a : Actor} (hcheck : a.check = .ok ()) (h : ∀ p ∈ a.procs, p.native = false → p.Predicable) :
    ∃ n a', a.ifConvert = (.ok n, a') ∧ ∀ (limits : Limits) (id : ProcId) (args : List Value) (m m' : Machine)
      (v : Option Value), (Machine.call a limits id args).on m = (.ok v, m') →
        ∃ bound, ∀ limits' : Limits, limits.maxDepth ≤ limits'.maxDepth → bound ≤ limits'.maxSteps →
          ∃ m'', (Machine.call a' limits' id args).on m = (.ok v, m'') ∧ m''.globals = m'.globals ∧
            m''.trace = m'.trace := by
  have htrees := hasTrees_of_check hcheck
  have hverify : ∀ p ∈ a.procs, p.verify = .ok () := verify_of_check hcheck
  obtain ⟨n, a', ha'⟩ := transformProcs_ok fun p hp hnative => (h p hp hnative).ifConvert_yields (hverify p hp)
  refine ⟨n, a', ha', fun limits id args m m' v hcall => ?_⟩
  refine call_of_transformProcs htrees ha' (fun id p hp hnative k p' hk => ?_) hcall
  have hmem := List.mem_of_getElem? hp
  exact (h p hmem hnative).refines (hverify p hmem) hnative hk

/-- A procedure that stores nine and returns early where its argument is zero; otherwise the
argument divides ten, and the quotient decides what is stored and returned. One branch is empty, and
one phi has an operand that nothing writes. -/
def settle : Procedure :=
  { name := "settle", params := [⟨0⟩], returnTy := .int 32
    locals := .full [{ name := "x", ty := .int 32 }, { name := "a", ty := .int 32 }, { name := "y", ty := .int 32 },
      { name := "z", ty := .int 32 }, { name := "u", ty := .int 32 }]
    nodes := .full [.branch (.binary .eq (.var (.loc ⟨0⟩)) (.int 0 (.int 32)) .bool) [⟨1⟩]
      [⟨2⟩] ⟨3⟩, .block [⟨0⟩, ⟨1⟩], .branch (.binary .gt
        (.binary .div (.int 10 (.int 32)) (.var (.loc ⟨0⟩)) (.int 32)) (.int 3 (.int 32)) .bool)
      [⟨4⟩] [] ⟨5⟩, .block [⟨4⟩], .block [⟨2⟩], .block [⟨3⟩], .block [⟨5⟩, ⟨6⟩]]
    insts := .full [{ inst := .store (.glob ⟨0⟩) [] (.int 9 (.int 32)), block := ⟨1⟩ },
      { inst := .ret (some (.int 7 (.int 32))), block := ⟨1⟩ },
      { inst := .assign ⟨1⟩ (.int 1 (.int 32)), block := ⟨4⟩ },
      { inst := .phi ⟨2⟩ [⟨.elseEnd, .loc ⟨0⟩, none⟩, ⟨.thenEnd, .loc ⟨1⟩, none⟩], block := ⟨5⟩ },
      { inst := .phi ⟨3⟩ [⟨.thenEnd, .loc ⟨4⟩, none⟩, ⟨.elseEnd, .loc ⟨2⟩, none⟩], block := ⟨3⟩ },
      { inst := .store (.glob ⟨0⟩) [] (.var (.loc ⟨3⟩)), block := ⟨6⟩ },
      { inst := .ret (some (.var (.loc ⟨3⟩))), block := ⟨6⟩ }]
    body := [⟨0⟩, ⟨6⟩] }

/-- An actor with one state variable and one procedure. -/
def settling (p : Procedure) : Actor :=
  { name := "settling", globals := [{ name := "total", ty := .int 32 }], procs := [p] }

lemma call_settle : ∀ x ∈ [(0, 7, 9), (5, 5, 5)],
    (Machine.call (settling settle) {} ⟨0⟩ [.int x.1]).on { globals := [some (.int 0)] } =
      (.ok (some (.int x.2.1)), { globals := [some (.int x.2.2)], trace := [⟨0⟩], steps := 2 }) := by
  simp only [List.forall_mem_cons, List.not_mem_nil, false_implies, implies_true, and_true]
  exact ⟨by rfl, by rfl⟩

/-- Neither the division by zero nor what follows the early return runs after predication. -/
theorem call_ifConvert_settle : ∃ n a', (settling settle).ifConvert = (.ok n, a') ∧
    ∀ x ∈ [(0, 7, 9), (5, 5, 5)], ∃ bound, ∀ limits' : Limits, 64 ≤ limits'.maxDepth → bound ≤ limits'.maxSteps →
      ∃ m'', (Machine.call a' limits' ⟨0⟩ [.int x.1]).on { globals := [some (.int 0)] } =
        (.ok (some (.int x.2.1)), m'') ∧ m''.globals = [some (.int x.2.2)] ∧ m''.trace = [⟨0⟩] := by
  have hprocs : ∀ p ∈ (settling settle).procs, p.Predicable := by decide +kernel
  obtain ⟨n, a', ha', hcalls⟩ := call_ifConvert (a := settling settle) (by decide +kernel) fun p hp _ => hprocs p hp
  exact ⟨n, a', ha', fun x hx => hcalls _ _ _ _ _ _ (call_settle x hx)⟩

end Actor

end ActorNet
