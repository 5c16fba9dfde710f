import ActorNet.Proofs.WellFormed.Pipeline

/-!
# What the selected passes establish

Lowering leaves no phi in a procedure (`Procedure.phiFree_removePhis`), and predication leaves a
single block. The passes that run later keep both: lowering does not break up a single block, and
merging only adds procedures (`Actor.classify_adds`). The procedures that it adds have no phis
either. But the body of a merged action is a chain of conditionals, so it is not flat, and it is the
only one that is not.

Joins list nothing but phis, so the joins of a well-formed procedure without phis are empty.
Lowering takes the phis away, and with them only locals that nothing mentions
(`removePhis_removes_only_phis`).
-/

namespace ActorNet

open List Procedure

variable {selected : Bool} {p p' : Procedure} {report start : Report}
  {value : LocalId → VarRef → Expr} {n m : Nat} {a b c : Actor} {procs procs' : List Procedure}

namespace Code

lemma isPhi_lowerLine {i : Inst} {predicate : Option Expr} :
    ∀ line ∈ lowerLine value i predicate, line.1.isPhi = false := by
  intro line hline
  cases i with
  | phi target arms =>
    obtain ⟨arm, _, hguard⟩ := mem_filterMap.mp hline
    obtain ⟨guard, _, rfl⟩ := map_eq_some_iff.mp hguard
    rfl
  | _ =>
    rw [mem_singleton.mp hline]
    rfl

lemma isPhi_copies {edge : Edge} {phis : List Phi} : ∀ i ∈ (copies value edge phis).insts, i.isPhi = false := by
  intro i hi
  rw [copies, insts_ofLines] at hi
  obtain ⟨line, hline, rfl⟩ := mem_map.mp hi
  obtain ⟨φ, _, hcopy⟩ := mem_filterMap.mp hline
  obtain ⟨arm, _, rfl⟩ := map_eq_some_iff.mp hcopy
  rfl

lemma isPhi_lower (c : Code) : ∀ i ∈ (c.lower value).insts, i.isPhi = false := by
  induction c with
  | done => exact forall_mem_nil _
  | inst i predicate rest ih =>
    simp only [lower, insts_append, insts_ofLines, forall_mem_append, forall_mem_map]
    exact ⟨isPhi_lowerLine, ih⟩
  | branch c t e phis rest iht ihe ih =>
    simp only [lower, insts, insts_append, map_nil, List.append_nil, forall_mem_append]
    exact ⟨⟨⟨iht, isPhi_copies⟩, ihe, isPhi_copies⟩, ih⟩
  | loop c body phis rest ihb ih =>
    simp only [lower, insts, insts_append, map_nil, nil_append, forall_mem_append]
    exact ⟨isPhi_copies, ⟨ihb, isPhi_copies⟩, ih⟩

end Code

namespace Procedure

/-! ## Procedures without phis -/

/-- No instruction of the procedure is a phi. -/
def PhiFree (p : Procedure) : Prop :=
  ∀ d ∈ p.allInsts, d.inst.isPhi = false
deriving Decidable

lemma phiFree_removePhis (htree : ∃ t : Tree, t.Spans p) (hy : Yields removePhis p n p') :
    p'.PhiFree := by
  obtain ⟨t, ht⟩ := htree
  obtain ⟨_, _, t', ht', hcode⟩ := removePhis_code hy ht
  intro d hd
  have hinst : d.inst ∈ (t'.code p').insts := by
    rw [insts_code ht'.sound.phis, ← forward_eq ht']
    exact mem_map_of_mem hd
  rw [hcode] at hinst
  exact Code.isPhi_lower _ _ hinst

lemma phiFree_dispatch (known : Actor) (name : String) (actions : List Action) :
    (dispatch known name actions).PhiFree := by
  intro d hd
  obtain ⟨i, _, hinst⟩ := mem_filterMap.mp hd
  simp only [inst?, dispatch, Arena.get?_full] at hinst
  rcases mem_append.mp (mem_of_getElem? hinst) with hcall | hret
  · obtain ⟨y, _, hy⟩ := mem_flatMap.mp hcall
    simp only [Dispatch.calls, mem_cons, not_mem_nil, or_false] at hy
    rcases hy with rfl | rfl <;> rfl
  · rw [mem_singleton.mp hret]
    rfl

lemma phiFree_alwaysTrue (name : String) : (alwaysTrue name).PhiFree :=
  of_decide_eq_true rfl

/-! ## Single blocks -/

lemma isFlat_eq_true : p.isFlat = true ↔ p.body = [] ∨ ∃ id is, p.body = [id] ∧ p.node? id = some (.block is) := by
  unfold isFlat
  split
  · rename_i hbody
    simp [hbody]
  · rename_i id hbody
    simp [hbody, isBlock_iff]
  · rename_i hnil hone
    refine iff_of_false nofun ?_
    rintro (hbody | ⟨id, _, hbody, _⟩)
    · exact hnil hbody
    · exact hone id hbody

lemma eq_block_of_isBlock {t : Tree} {id : NodeId} {is : List InstId} (hroots : t.roots = [id])
    (hfits : t.Fits p) (hnode : p.node? id = some (.block is)) : t = .block id is .nil := by
  cases t with
  | nil => cases hroots
  | block id' insts rest =>
    obtain ⟨rfl, hrest⟩ := List.cons.inj hroots
    cases hnode.symm.trans hfits.1
    cases rest with
    | nil => rfl
    | block | branch | loop => cases hrest
  | branch | loop =>
    obtain ⟨rfl, _⟩ := List.cons.inj hroots
    obtain ⟨⟨c, hid⟩, _⟩ := hfits
    cases hnode.symm.trans hid

lemma isFlat_removePhis (hflat : p.isFlat = true) (htree : ∃ t : Tree, t.Spans p)
    (hy : Yields removePhis p n p') : p'.isFlat = true := by
  rw [removePhis, yields_read] at hy
  simp only [yields_bind, yields_transform_modify, yields_pure] at hy
  obtain ⟨done, p1, hvisit, _, p2, hp2, _, rfl⟩ := hy
  -- dropping unused locals leaves nodes and the body alone
  suffices h : p1.isFlat = true by
    rw [hp2]
    exact h
  rcases isFlat_eq_true.mp hflat with hbody | ⟨id, is, hbody, hnode⟩
  · rw [hbody, Transform.visitEach, yields_pure] at hvisit
    rw [hvisit.2]
    exact hflat
  · obtain ⟨t, ht⟩ := htree
    cases eq_block_of_isBlock (ht.roots.trans hbody) ht.sound.fits hnode
    have hlist : ListAt .body (Tree.nil.append ((Tree.block id ([] ++ is) .nil).append .nil)) p :=
      ht.listAt
    simp only [hbody, Transform.visitEach, yields_bind, yields_pure] at hvisit
    obtain ⟨⟨shift, done1⟩, p3, hlower, _, rfl⟩ := hvisit
    rw [lowerNode, yields_read, hnode] at hlower
    simp only [yields_bind, yields_pure] at hlower
    obtain ⟨done2, p4, hlower, _, rfl⟩ := hlower
    obtain ⟨is', hrw, _⟩ := lowerHoisted_rewrites hlist hlower
    exact isFlat_eq_true.mpr (.inr ⟨id, is', hrw.list.nodes, hrw.list.sound.fits.1⟩)

lemma not_isFlat_dispatch (known : Actor) (name : String) (first : Action) (rest : List Action) :
    (dispatch known name (first :: rest)).isFlat = false := by
  simp [isFlat, dispatch]

end Procedure

namespace Actor

/-! ## What merging adds -/

/-- The procedures that a number of merges add: for each of them a scheduler that may always fire,
and a body that dispatches to the merged actions. -/
inductive Adds : Nat → List Procedure → Prop where
  | nil : Adds 0 []
  | merge (name : String) (known : Actor) (name' : String) (first : Action) (rest : List Action) {count : Nat}
      {procs : List Procedure} (h : Adds count procs) :
      Adds (count + 1) (.alwaysTrue name :: .dispatch known name' (first :: rest) :: procs)

namespace Adds

lemma append (h : Adds m procs) (h' : Adds n procs') : Adds (m + n) (procs ++ procs') := by
  induction h with
  | nil =>
    rw [Nat.zero_add]
    exact h'
  | merge name known name' first rest _ ih =>
    rw [Nat.add_right_comm]
    exact .merge name known name' first rest ih

lemma phiFree (h : Adds n procs) : ∀ p ∈ procs, p.PhiFree := by
  induction h with
  | nil => exact nofun
  | merge name known name' first rest _ ih =>
    simp only [forall_mem_cons]
    exact ⟨phiFree_alwaysTrue name, phiFree_dispatch known name' _, ih⟩

lemma isFlat_iff (h : Adds n procs) (hp : p ∈ procs) :
    p.isFlat = true ↔ ∀ known name first rest, p ≠ .dispatch known name (first :: rest) := by
  refine ⟨?_, fun hne => ?_⟩
  · rintro hflat known name first rest rfl
    rw [not_isFlat_dispatch] at hflat
    cases hflat
  · induction h with
    | nil => cases hp
    | merge name known name' first rest _ ih =>
      simp only [mem_cons] at hp
      rcases hp with rfl | rfl | hp
      · rfl
      · exact absurd rfl (hne known name' first rest)
      · exact ih hp

end Adds

lemma classify_adds (a : Actor) : ∃ added, a.classify.2.procs = a.procs ++ added ∧ Adds a.classify.1.length added := by
  refine classify_induction (P := fun n b => ∃ added, b.procs = a.procs ++ added ∧ Adds n added) ?_
    ⟨[], (List.append_nil _).symm, .nil⟩
  rintro n b first rest fsm ⟨added, hadded, hcount⟩
  obtain ⟨name, name', known, merged, _, hreplace⟩ := b.replaceActions_eq first rest
  refine ⟨added ++ _, ?_, hcount.append (.merge name known name' first rest .nil)⟩
  rw [hreplace, ← List.append_assoc, ← hadded]

/-! ## Stage after stage -/

/-- What holds of every procedure that passes transform. -/
def Each (a : Actor) (holds : Procedure → Prop) : Prop :=
  ∀ p ∈ a.procs, p.native = false → holds p

lemma runPasses_append {passes passes' : List Pass} (h : a.runPasses start (passes ++ passes') = .ok (report, c)) :
    ∃ middle b, a.runPasses start passes = .ok (middle, b) ∧ b.runPasses middle passes' = .ok (report, c) := by
  induction passes generalizing a start with
  | nil => exact ⟨start, a, rfl, h⟩
  | cons pass rest ih =>
    rw [cons_append, runPasses] at h
    rw [runPasses]
    split at h
    · cases h
    · exact ih h

/-- A pass that is run only if it is selected. -/
def optional (selected : Bool) (pass : Pass) : List Pass :=
  if selected then [pass] else []

/-- The selected passes that transform procedures. Both predication and lowering require casts. -/
def transforms (o : PipelineOptions) : List Pass :=
  optional (o.insertCasts || o.ifConvert || o.removePhis) .insertCasts ++ (optional o.storeOnce .storeOnce ++
    (optional o.ifConvert .ifConvert ++ optional o.removePhis .removePhis))

lemma passes_eq (o : PipelineOptions) : o.passes = transforms o ++ optional o.classify .classify := by
  obtain ⟨casts, convert, phis, store, classify⟩ := o
  revert casts convert phis store classify
  decide

/-- An optional pass that transforms procedures one by one: `holds` before it, `holds'` after it. -/
lemma Each.stage {pass : Pass} {act : Transform Nat} {holds holds' : Procedure → Prop}
    (h : a.Each holds) (hrun : pass.run a = Pass.run.counted (a.transformProcs act))
    (hact : selected = true → ∀ p p' k, holds p → Yields act p k p' → holds' p')
    (hskip : selected = false → ∀ p, holds p → holds' p)
    (hy : a.runPasses start (optional selected pass) = .ok (report, b)) :
    b.Each holds' ∧ b.procs.length = a.procs.length ∧ report.merges = start.merges := by
  cases selected with
  | false =>
    cases hy
    exact ⟨fun p hp hnative => hskip rfl p (h p hp hnative), rfl, rfl⟩
  | true =>
    rw [optional, if_pos rfl, runPasses, hrun] at hy
    rcases hdone : a.transformProcs act with ⟨_ | n, a'⟩
    · rw [hdone] at hy
      cases hy
    · rw [hdone] at hy
      cases hy
      obtain ⟨hprocs, _⟩ := forall₂_transformProcs hdone
      refine ⟨fun p' hp' hnative => ?_, hprocs.length_eq.symm, List.append_nil _⟩
      obtain ⟨p, hp, hsame, hyields⟩ := exists_of_mem_transformed hprocs hp'
      cases hnative' : p.native with
      | true =>
        rw [hsame hnative', hnative'] at hnative
        cases hnative
      | false =>
        obtain ⟨k, hk⟩ := hyields hnative'
        exact hact rfl p p' k (h p hp hnative') hk

/-- What the selected passes establish on each procedure. Predication needs the layout that casts
and single stores keep; lowering needs the containment tree, and does not break up a single
block. -/
lemma Each.transforms {options : PipelineOptions} (h : a.Each (Procedure.Laid fun _ => True))
    (hy : a.runPasses start (transforms options) = .ok (report, b)) :
    b.Each (fun p => (options.removePhis = true → p.PhiFree) ∧ (options.ifConvert = true → p.isFlat = true)) ∧
      b.procs.length = a.procs.length ∧ report.merges = start.merges := by
  obtain ⟨r1, a1, hcasts, hy⟩ := runPasses_append hy
  obtain ⟨r2, a2, hstore, hy⟩ := runPasses_append hy
  obtain ⟨r3, a3, hconvert, hphis⟩ := runPasses_append hy
  obtain ⟨h1, hlength1, hmerges1⟩ := h.stage rfl (fun _ p p' k hp hy => hp.insertCasts hy) (fun _ _ hp => hp) hcasts
  obtain ⟨h2, hlength2, hmerges2⟩ :=
    h1.stage rfl (fun _ p p' k hp hy => hp.storeOnce (yields_liftM.mp hy)) (fun _ _ hp => hp) hstore
  have hconverted : options.ifConvert = true → ∀ p p' k, p.Laid (fun _ => True) → Yields Procedure.ifConvert p k p' →
      p'.Laid (fun _ => True) ∧ (options.ifConvert = true → p'.isFlat = true) := by
    intro _ p p' k hp hy
    have hlaid := hp.ifConvert hy
    obtain ⟨t, _, hpred⟩ := hp.exists_predicated hy
    exact ⟨hlaid, fun _ => isFlat_eq_true.mpr (.inr ⟨_, _, hpred.body, hpred.sound.fits.1⟩)⟩
  obtain ⟨h3, hlength3, hmerges3⟩ := h2.stage rfl hconverted
    (fun hoff p hp => ⟨hp, fun hon => Bool.noConfusion (hoff.symm.trans hon)⟩) hconvert
  have hlowered : options.removePhis = true → ∀ p p' k,
      (p.Laid (fun _ => True) ∧ (options.ifConvert = true → p.isFlat = true)) → Yields Procedure.removePhis p k p' →
      (options.removePhis = true → p'.PhiFree) ∧ (options.ifConvert = true → p'.isFlat = true) := by
    rintro _ p p' k ⟨⟨⟨_, _, t, ht, _⟩, _⟩, hflat⟩ hy
    exact ⟨fun _ => Procedure.phiFree_removePhis ⟨t, ht⟩ hy,
      fun hon => isFlat_removePhis (hflat hon) ⟨t, ht⟩ hy⟩
  obtain ⟨h4, hlength4, hmerges4⟩ := h3.stage rfl hlowered
    (fun hoff p hp => ⟨fun hon => Bool.noConfusion (hoff.symm.trans hon), hp.2⟩) hphis
  refine ⟨h4, ?_, ?_⟩
  · rw [hlength4, hlength3, hlength2, hlength1]
  · rw [hmerges4, hmerges3, hmerges2, hmerges1]

lemma classify_stage (hstart : start.merges = [])
    (hy : a.runPasses start (optional selected .classify) = .ok (report, b)) :
    ∃ added, b.procs = a.procs ++ added ∧ Adds report.merges.length added := by
  cases selected with
  | false =>
    cases hy
    rw [hstart]
    exact ⟨[], (List.append_nil _).symm, .nil⟩
  | true =>
    cases hy
    rw [Report.add, hstart]
    exact a.classify_adds

/-- The invariants of the selected passes hold together at the end of the pipeline. No procedure has
a phi if phis are lowered. If procedures are predicated, those of the actor are flat, and so are
those that merging adds but for the bodies that dispatch. -/
theorem invariants_transform {options : PipelineOptions} {report : Report} (h : a.transform options = .ok (report, b)) :
    Adds report.merges.length (b.procs.drop a.procs.length) ∧
    (options.removePhis = true → ∀ p ∈ b.procs, p.native = false → p.PhiFree) ∧
    (options.ifConvert = true → (∀ p ∈ b.procs.take a.procs.length, p.native = false → p.isFlat = true) ∧
      ∀ p ∈ b.procs.drop a.procs.length,
        (p.isFlat = true ↔ ∀ known name first rest, p ≠ .dispatch known name (first :: rest))) := by
  unfold transform at h
  split at h
  · cases h
  · rename_i hcheck
    have hlaid : a.Each (Procedure.Laid fun _ => True) := fun p hp _ =>
      have hverify := verify_of_check hcheck p hp
      ⟨Procedure.exists_frame hverify, Procedure.params_live_of_verify hverify⟩
    rw [passes_eq] at h
    obtain ⟨middle, a', htransforms, hmerge⟩ := runPasses_append h
    obtain ⟨heach, hlength, hmerges⟩ := hlaid.transforms htransforms
    obtain ⟨added, hprocs, hadds⟩ := classify_stage hmerges hmerge
    rw [hprocs, ← hlength, List.drop_left, List.take_left]
    refine ⟨hadds, fun hon p hp hnative => ?_, fun hon => ⟨?_, fun p hp => hadds.isFlat_iff hp⟩⟩
    · rcases List.mem_append.mp hp with hp | hp
      · exact (heach p hp hnative).1 hon
      · exact hadds.phiFree p hp
    · exact fun p hp hnative => (heach p hp hnative).2 hon

/-- All invariants hold of the procedures of an actor with a conditional and two actions that are
merged. -/
theorem invariants_transform_chooser : ∃ report b, chooser.transform ⟨true, true, true, true, true⟩ = .ok (report, b) ∧
    report.merges.length = 1 ∧ b.procs.length = 4 ∧ Adds 1 (b.procs.drop 2) ∧
    (∀ p ∈ b.procs, p.native = false → p.PhiFree) ∧ (∀ p ∈ b.procs.take 2, p.native = false → p.isFlat = true) ∧
    ∀ p ∈ b.procs.drop 2, (p.isFlat = true ↔ ∀ known name first rest, p ≠ .dispatch known name (first :: rest)) := by
  have hcounts : (chooser.transform ⟨true, true, true, true, true⟩).toOption.map
      (fun done => (done.1.merges.length, done.2.procs.length)) = some (1, 4) := by decide +kernel
  obtain ⟨⟨report, b⟩, hdone, hcount⟩ := exists_of_toOption_map hcounts
  obtain ⟨hmerges, hlength⟩ := Prod.mk.inj hcount
  obtain ⟨hadds, hphis, hflat⟩ := invariants_transform hdone
  exact ⟨report, b, hdone, hmerges, hlength, hmerges ▸ hadds, hphis rfl, hflat rfl⟩

/-- Though procedures are predicated, the body of the merged action is not flat. -/
theorem invariants_transform_dispatch : chooser.check = .ok () ∧
    ∃ report b, chooser.transform ⟨true, true, true, true, true⟩ = .ok (report, b) ∧
      ∃ p ∈ b.procs, p.native = false ∧ p.isFlat = false := by
  have hfound : (chooser.transform ⟨true, true, true, true, true⟩).toOption.map
      (fun done => done.2.procs.any fun p => !p.native && !p.isFlat) = some true := by decide +kernel
  obtain ⟨⟨report, b⟩, hdone, hany⟩ := exists_of_toOption_map hfound
  obtain ⟨p, hp, hkind⟩ := List.any_eq_true.mp hany
  simp only [Bool.and_eq_true, Bool.not_eq_true'] at hkind
  exact ⟨by decide +kernel, report, b, hdone, p, hp, hkind⟩

end Actor

/-! ## What is left of phis -/

namespace Procedure

variable {p p' : Procedure} {n : Nat}

lemma PhiFree.join_empty (hfree : p.PhiFree) (hverify : p.verify = .ok ()) {node : Node} {join : NodeId}
    (hnode : node ∈ p.parts) (hjoin : join ∈ node.join?) (hmem : join ∈ p.nodesIn p.body) : p.blockInsts join = [] := by
  obtain ⟨t, ht⟩ := exists_tree_of_verify hverify
  obtain ⟨π, hfits⟩ : ∃ π : Layout, π.Fits (fun _ => True) p := exists_layout hverify
  obtain ⟨owner, howner, hnode⟩ := mem_filterMap.mp hnode
  rw [nodesIn_body ht] at howner
  obtain ⟨x, _, hx⟩ := hfits.place_of_mem ht.roots ht.sound.fits howner
  have hinside : (join, .join owner) ∈ p.inside owner := by
    rw [inside_eq hnode]
    cases node with
    | block => cases hjoin
    | branch | loop =>
      cases hjoin
      exact mem_cons_self
  refine eq_nil_iff_forall_not_mem.mpr fun i hi => ?_
  obtain ⟨d, hd, _, hphi, _⟩ := (hfits.stands join _ ((hfits.stands owner x hx).placed _ hinside)).listed i hi
  have hplain := hfree d (mem_filterMap.mpr ⟨i, mem_flatMap.mpr ⟨join, hmem, hi⟩, hd⟩)
  rw [hphi rfl] at hplain
  cases hplain

/-- If phis are lowered in a well-formed procedure, it stays well formed. The answer is the number
of its phis; none is left, and the joins that a walk through the procedure comes to are empty. Other
instructions keep their handles and contents, and in each block their order. A local goes away only
if it is no parameter and nothing mentions it. -/
theorem removePhis_removes_only_phis (hverify : p.verify = .ok ()) (h : removePhis.run p = (.ok n, p')) :
    p'.verify = .ok () ∧ n = p.allInsts.countP (·.inst.isPhi) ∧ p'.PhiFree ∧
      (∀ node ∈ p'.parts, ∀ join ∈ node.join?, join ∈ p'.nodesIn p'.body → p'.blockInsts join = []) ∧
      (∀ i, p.isPlain i = true → p'.inst? i = p.inst? i) ∧
      (∀ b, (p'.blockInsts b).filter p.isPlain = (p.blockInsts b).filter p.isPlain) ∧
      ∀ id, (p.local? id).isSome → p'.local? id = none → id ∉ p.params ∧ p'.mentionCount (.loc id) = 0 := by
  obtain ⟨t, ht⟩ := exists_tree_of_verify hverify
  obtain ⟨π, hfits⟩ : ∃ π : Layout, π.Fits (fun _ => False) p := exists_layout hverify
  obtain ⟨hn, t', zeroed, q, hlow⟩ := loweredTo_of_removePhis h ht
  obtain ⟨⟨π', hfits'⟩, hparams⟩ := hlow.exists_fits ht hfits (params_live_of_verify hverify)
  have hverify' := hfits'.verify hparams
  have hfree := phiFree_removePhis ⟨t, ht⟩ h
  refine ⟨hverify', ?_, hfree, fun node hnode join hjoin => hfree.join_empty hverify' hnode hjoin, ?_⟩
  · rw [hn, Code.phiCount, insts_code_eq ht, countP_map]
    rfl
  · -- dropping unused locals leaves nodes and instructions alone
    rw [hlow.dropped]
    refine ⟨hlow.keeps.insts, hlow.keeps.lists, fun id hlive hgone => ?_⟩
    rw [local?_dropUnused] at hgone
    split at hgone
    · rename_i hunused
      exact ⟨hlow.noParam id hunused.1, hunused.2⟩
    · rw [local?, hlow.keeps.locals, ← local?] at hgone
      rw [hgone] at hlive
      cases hlive

/-- The three phis of a loop. -/
theorem removePhis_removes_only_phis_loop : ∃ p ∈ (Actor.taking ⟨1⟩ ⟨1⟩).procs, p.verify = .ok () ∧
    p.allInsts.countP (·.inst.isPhi) = 3 ∧ (removePhis.run p).2.verify = .ok () ∧ (removePhis.run p).2.PhiFree := by
  refine ⟨_, mem_cons_self, by decide +kernel, by decide +kernel, ?_⟩
  have hok : (removePhis.run ((Actor.taking ⟨1⟩ ⟨1⟩).procs.head (by decide))).1 = .ok 3 := by decide +kernel
  obtain ⟨hverify, _, hfree, _⟩ := removePhis_removes_only_phis (by decide +kernel) (Actor.eq_mk_of_fst_eq hok)
  exact ⟨hverify, hfree⟩

end Procedure

end ActorNet
