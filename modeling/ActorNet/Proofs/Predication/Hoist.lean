import ActorNet.Proofs.Predication.Flatten
import ActorNet.Proofs.Structure.Sites
import ActorNet.Proofs.WellFormed.Layout

/-!
# Hoisting a procedure flattens its code

Predication moves all instructions of a procedure, in the order of its text, into a new block, and
frees the nodes that held them. Each part of a list is gathered at the end of the new block after
the parts before it (`Gathered`), so hoisting a list of nodes always succeeds, and the lines of the
new block afterwards are the flattened code of the list (`hoistEach_yields`). What is freed lists
none of the instructions that were hoisted (`freed_freeEach`).
-/

namespace ActorNet

open List Procedure Tree

variable {K done ids ids' js : List InstId} {depth m : Nat} {id join n target b : NodeId}
  {ms ns ns' : List NodeId} {S : NodeId → Prop} {predicate : Option Expr}
  {lines lines' : List (Inst × Option Expr)} {p p0 p' p1 p2 q r : Procedure} {t : Tree}

/-- A block without its instructions. -/
def Node.emptied : Node → Node
  | .block _ => .block []
  | node => node

lemma Procedure.hasLoop_iff :
    p.hasLoop = true ↔ ∃ n ∈ p.nodesIn p.body, ∃ c body j, p.node? n = some (.loop c body j) := by
  rw [hasLoop, any_eq_true]
  refine exists_congr fun n => and_congr_right fun _ => ?_
  rcases p.node? n with _ | _ | _ | _ <;> simp

namespace Tree

/-- There are no loops in a tree. -/
def LoopFree : Tree → Prop
  | nil => True
  | block _ _ rest => rest.LoopFree
  | branch _ t e _ _ rest => t.LoopFree ∧ e.LoopFree ∧ rest.LoopFree
  | loop _ _ _ _ _ => False

lemma loopFree_of_nodes (hfits : t.Fits p)
    (h : ∀ n ∈ t.nodes, ∀ c body j, p.node? n ≠ some (.loop c body j)) : t.LoopFree := by
  induction t with
  | nil => trivial
  | block id is rest ih => exact ih hfits.2 fun n hn => h n (mem_cons_of_mem id hn)
  | branch id t e join phis rest iht ihe ih =>
    obtain ⟨_, ht, he, _, hrest⟩ := hfits
    exact ⟨iht ht fun n hn => h n (by simp [nodes, hn]),
      ihe he fun n hn => h n (by simp [nodes, hn]), ih hrest fun n hn => h n (by simp [nodes, hn])⟩
  | loop id body join phis rest =>
    obtain ⟨⟨c, hid⟩, _⟩ := hfits
    exact h id mem_cons_self c _ join hid

lemma LoopFree.of_hasLoop (ht : t.Spans p) (h : p.hasLoop = false) : t.LoopFree := by
  refine loopFree_of_nodes ht.sound.fits fun n hn c body j hnode => ?_
  rw [hasLoop_iff.mpr ⟨n, nodesIn_body ht ▸ hn, c, body, j, hnode⟩] at h
  cases h

end Tree

namespace Procedure

/-! ## Moving the instructions of a block -/

/-- Instructions have been gathered at the end of a block, as the given lines, and the nodes that
listed them are left empty. -/
structure Gathered (target : NodeId) (done : List InstId) (ns : List NodeId) (ids : List InstId)
    (lines : List (Inst × Option Expr)) (p p' : Procedure) : Prop where
  filled : p'.node? target = some (.block (done ++ ids))
  emptied : ∀ n ∈ ns, p'.node? n = (p.node? n).map Node.emptied
  nodes : ∀ n, n ≠ target → n ∉ ns → p'.node? n = p.node? n
  data : ids.map p'.inst? = lines.map fun line => some ⟨line.1, target, line.2⟩
  insts : ∀ i, i ∉ ids → p'.inst? i = p.inst? i
  rest : p' = { p with nodes := p'.nodes, insts := p'.insts, body := p'.body }

/-- What is still to be hoisted into a block is as it was in `p0`, and nothing in it is twice. -/
structure Ready (target : NodeId) (p0 : Procedure) (ns : List NodeId) (ids : List InstId) (p : Procedure) : Prop where
  outside : target ∉ ns
  nodes_nodup : ns.Nodup
  insts_nodup : ids.Nodup
  nodes : ∀ n ∈ ns, p.node? n = p0.node? n
  insts : ∀ i ∈ ids, p.inst? i = p0.inst? i

lemma Ready.left (h : Ready target p0 (ns ++ ns') (ids ++ ids') p) : Ready target p0 ns ids p :=
  ⟨fun hmem => h.outside (mem_append_left ns' hmem), h.nodes_nodup.of_append_left, h.insts_nodup.of_append_left,
    fun n hn => h.nodes n (mem_append_left ns' hn), fun i hi => h.insts i (mem_append_left ids' hi)⟩

lemma filterMap_line?_of_map (h : ids.map p.inst? = lines.map fun line => some ⟨line.1, target, line.2⟩) :
    ids.filterMap p.line? = lines := by
  have hmap : ids.filterMap p.line? = (ids.map p.inst?).filterMap fun d => d.map fun d => (d.inst, d.predicate) := by
    rw [filterMap_map]
    rfl
  rw [hmap, h, filterMap_map]
  exact filterMap_some

namespace Gathered

lemma recorded (h : Gathered target done ns ids lines p p') : ∀ i ∈ ids, ∃ d, p'.inst? i = some d ∧ d.block = target := by
  intro i hi
  have hmem := mem_map_of_mem (f := p'.inst?) hi
  rw [h.data] at hmem
  obtain ⟨line, _, hline⟩ := mem_map.mp hmem
  exact ⟨_, hline.symm, rfl⟩

/-- One part after another. -/
lemma append (h : Gathered target done ns ids lines p p1) (h' : Gathered target (done ++ ids) ns' ids' lines' p1 p2)
    (hready : Ready target p0 (ns ++ ns') (ids ++ ids') p) :
    Gathered target done (ns ++ ns') (ids ++ ids') (lines ++ lines') p p2 := by
  have hout := hready.outside
  have hapart := disjoint_of_nodup_append hready.nodes_nodup
  have hkept : ∀ i ∈ ids, p2.inst? i = p1.inst? i :=
    fun i hi => h'.insts i fun hi' => disjoint_of_nodup_append hready.insts_nodup hi hi'
  refine ⟨?_, forall_mem_append.mpr ⟨fun n hn => ?_, fun n hn => ?_⟩, fun n hne hn => ?_, ?_, fun i hi => ?_, ?_⟩
  · rw [h'.filled, List.append_assoc]
  · rw [h'.nodes n (fun heq => hout (heq ▸ mem_append_left _ hn)) fun hn' => hapart hn hn', h.emptied n hn]
  · rw [h'.emptied n hn, h.nodes n (fun heq => hout (heq ▸ mem_append_right _ hn)) fun hn' => hapart hn' hn]
  · rw [mem_append, not_or] at hn
    rw [h'.nodes n hne hn.2, h.nodes n hne hn.1]
  · rw [map_append, map_append, h'.data, ← h.data, map_congr_left hkept]
  · rw [mem_append, not_or] at hi
    rw [h'.insts i hi.2, h.insts i hi.1]
  · rw [h'.rest, h.rest]

lemma ready (h : Gathered target done ns ids lines p p')
    (hready : Ready target p0 (ns ++ ns') (ids ++ ids') p) : Ready target p0 ns' ids' p' where
  outside := fun hmem => hready.outside (mem_append_right ns hmem)
  nodes_nodup := hready.nodes_nodup.of_append_right
  insts_nodup := hready.insts_nodup.of_append_right
  nodes := by
    intro n hn
    have hmem := mem_append_right ns hn
    rw [h.nodes n (fun heq => hready.outside (heq ▸ hmem)) fun hn' =>
      disjoint_of_nodup_append hready.nodes_nodup hn' hn, hready.nodes n hmem]
  insts := by
    intro i hi
    rw [h.insts i fun hi' => disjoint_of_nodup_append hready.insts_nodup hi' hi, hready.insts i (mem_append_right ids hi)]

end Gathered

lemma node?_of_blockInsts_ne_nil (h : p.blockInsts n = ids) (hids : ids ≠ []) : p.node? n = some (.block ids) := by
  unfold blockInsts at h
  split at h
  · rename_i is hn
    rw [hn, h]
  · exact absurd h.symm hids

lemma map_emptied (h : p.blockInsts n = []) : (p.node? n).map Node.emptied = p.node? n := by
  unfold blockInsts at h
  cases hn : p.node? n with
  | none => rfl
  | some node =>
    cases node with
    | block is =>
      rw [hn] at h
      rw [show is = [] from h]
      rfl
    | branch | loop => rfl

lemma hoistInsts_yields (predicate : Option Expr) (hb : p.blockInsts b = ids) (hnodup : ids.Nodup)
    (hrec : ∀ i ∈ ids, ∃ d, p.inst? i = some d ∧ d.block = b) (htarget : p.node? target = some (.block done))
    (hne : b ≠ target) : ∃ p', Yields (hoistInsts target predicate ids) p () p' ∧
      Gathered target done [b] ids ((ids.filterMap p.line?).map fun line => (line.1, predicate)) p p' := by
  induction ids generalizing p done with
  | nil =>
    refine ⟨p, yields_pure.mpr ⟨rfl, rfl⟩, ?_, forall_mem_singleton.mpr (map_emptied hb).symm,
      fun _ _ _ => rfl, rfl, fun _ _ => rfl, rfl⟩
    rw [List.append_nil]
    exact htarget
  | cons id rest ih =>
    obtain ⟨hid, hnodup⟩ := nodup_cons.mp hnodup
    obtain ⟨d, hd, hblock⟩ := hrec id mem_cons_self
    have hb := node?_of_blockInsts_ne_nil hb (cons_ne_nil id rest)
    -- the predicate is set first
    let p1 : Procedure := { p with insts := p.insts.modify id.index fun d => { d with predicate := predicate } }
    have hinst1 : ∀ i, p1.inst? i =
        if i = id then (p.inst? i).map fun d => { d with predicate := predicate } else p.inst? i :=
      inst?_modify _ id
    have hd1 : p1.inst? id = some { d with predicate := predicate } := by rw [hinst1, if_pos rfl, hd, map_some]
    let p2 := ((p1.setBlock b rest).setBlock target (done ++ [id])).recordBlock target [id]
    have hb1 : p1.node? b = some (.block ([] ++ id :: rest)) := hb
    have hmove : Yields (moveInst id target) p1 () p2 :=
      (yields_moveInst hb1 not_mem_nil hd1 hblock htarget hne).mpr rfl
    have hnode2 : ∀ n, p2.node? n = if n = target then some (.block (done ++ [id])) else
        if n = b then some (.block rest) else p.node? n := by
      intro n
      show ((p1.setBlock b rest).setBlock target (done ++ [id])).node? n = _
      rw [node?_setBlock, node?_setBlock]
      show (if n = target then (if n = b then (p.node? n).map _ else p.node? n).map _ else
        if n = b then (p.node? n).map _ else p.node? n) = _
      by_cases hnt : n = target
      · rw [if_pos hnt, if_pos hnt, if_neg fun h => hne (h.symm.trans hnt), hnt, htarget, map_some]
      · rw [if_neg hnt, if_neg hnt]
        by_cases hnb : n = b
        · rw [if_pos hnb, if_pos hnb, hnb, hb, map_some]
        · rw [if_neg hnb, if_neg hnb]
    have hinst2 : ∀ i, p2.inst? i = if i = id then
        (p.inst? i).map fun d => { d with block := target, predicate := predicate } else p.inst? i := by
      intro i
      rw [inst?_recordBlock]
      simp only [mem_singleton]
      show (if i = id then (p1.inst? i).map _ else p1.inst? i) = _
      rw [hinst1]
      by_cases hi : i = id
      · rw [if_pos hi, if_pos hi, if_pos hi, Option.map_map]
        rfl
      · rw [if_neg hi, if_neg hi, if_neg hi]
    have hrec2 : ∀ i ∈ rest, ∃ d, p2.inst? i = some d ∧ d.block = b := by
      intro i hi
      rw [hinst2, if_neg (ne_of_mem_of_not_mem hi hid)]
      exact hrec i (mem_cons_of_mem id hi)
    have hb2 : p2.node? b = some (.block rest) := by rw [hnode2, if_neg hne, if_pos rfl]
    have hlisted2 := blockInsts_eq hb2
    have htarget2 : p2.node? target = some (.block (done ++ [id])) := by rw [hnode2, if_pos rfl]
    obtain ⟨p', hyield, hmoved⟩ := ih hlisted2 hnodup hrec2 htarget2
    have hlines : rest.filterMap p2.line? = rest.filterMap p.line? :=
      filterMap_congr fun i hi => line?_congr ((hinst2 i).trans (if_neg (ne_of_mem_of_not_mem hi hid)))
    refine ⟨p', ?_, ?_, ?_, ?_, ?_, ?_, ?_⟩
    · rw [hoistInsts]
      simp only [yields_bind, yields_liftM]
      exact ⟨(), p1, yields_setPredicate.mpr rfl, (), p2, hmove, hyield⟩
    · rw [hmoved.filled, List.append_assoc]
      rfl
    · rw [forall_mem_singleton, hmoved.emptied b mem_cons_self, hb2, hb]
      rfl
    · intro n hnt hnb
      rw [hmoved.nodes n hnt hnb, hnode2, if_neg hnt, if_neg (mem_singleton.not.mp hnb)]
    · rw [map_cons, hmoved.data, hlines, hmoved.insts id hid, hinst2, if_pos rfl, filterMap_cons, line?, hd]
      rfl
    · intro i hi
      rw [mem_cons, not_or] at hi
      rw [hmoved.insts i hi.2, hinst2, if_neg hi.1]
    · rw [hmoved.rest]
      rfl

lemma inst?_guardPhis (thenPredicate elsePredicate : Expr) (hnodup : ids.Nodup) (i : InstId) :
    (guardPhis thenPredicate elsePredicate ids p).inst? i =
      if i ∈ ids then (p.inst? i).map (guardPhi thenPredicate elsePredicate) else p.inst? i := by
  unfold guardPhis inst?
  show (ids.foldl (fun insts id => insts.modify id.index (guardPhi thenPredicate elsePredicate)) p.insts).get? i.index = _
  generalize p.insts = insts
  induction ids generalizing insts with
  | nil => rfl
  | cons j rest ih =>
    obtain ⟨hj, hnodup⟩ := nodup_cons.mp hnodup
    rw [foldl_cons, ih hnodup, Arena.get?_modify]
    by_cases hi : i = j
    · subst hi
      rw [if_neg hj, if_pos rfl, if_pos mem_cons_self]
    · have hindex : ¬ j.index = i.index := fun h => hi (InstId.index_inj.mp h.symm)
      simp only [mem_cons, hi, hindex, false_or, if_false]

/-- Hoisting the phis of a join, once their operands are guarded. -/
lemma Gathered.guarded {thenPredicate elsePredicate : Expr} (h : Gathered target done [join] ids
      ((ids.filterMap (guardPhis thenPredicate elsePredicate ids p).line?).map fun line => (line.1, predicate))
      (guardPhis thenPredicate elsePredicate ids p) p')
    (hphis : ∀ i ∈ ids, ∃ φ, p0.phi? i = some φ) (hready : Ready target p0 [join] ids p) :
    Gathered target done [join] ids ((ids.filterMap p0.phi?).map fun φ => ((φ.guarded thenPredicate elsePredicate).inst, predicate))
      p p' := by
  have hlines : (ids.filterMap (guardPhis thenPredicate elsePredicate ids p).line?).map
    (fun line => (line.1, predicate)) =
      (ids.filterMap p0.phi?).map fun φ => ((φ.guarded thenPredicate elsePredicate).inst, predicate) := by
    rw [map_filterMap, map_filterMap]
    refine filterMap_congr fun i hi => ?_
    obtain ⟨φ, hφ⟩ := hphis i hi
    obtain ⟨b, own, hd⟩ := phi?_eq_some.mp hφ
    rw [hφ, line?, inst?_guardPhis _ _ hready.insts_nodup, if_pos hi, hready.insts i hi, hd]
    rfl
  rw [hlines] at h
  refine ⟨h.filled, h.emptied, h.nodes, h.data, fun i hi => ?_, h.rest⟩
  rw [h.insts i hi, inst?_guardPhis _ _ hready.insts_nodup, if_neg hi]

end Procedure

lemma yields_hoistNode_block {is : List InstId} (hid : p.node? id = some (.block is))
    (h : Yields (hoistInsts target predicate is) p () p') :
    Yields (hoistNode target (depth + 1) predicate id) p 0 p' := by
  rw [hoistNode, yields_read, hid]
  simp only [yields_bind, yields_pure]
  exact ⟨(), p', h, trivial, rfl⟩

lemma yields_hoistNode_branch {c : Expr} {ts es : List NodeId} {n : Nat}
    (hid : p.node? id = some (.branch c ts es join))
    (hthen : Yields (hoistEach (hoistNode target depth (some (under predicate c))) ts) p m p1)
    (helse : Yields (hoistEach (hoistNode target depth (some (under predicate c.negate))) es) p1 n p2)
    (hphis : Yields (hoistInsts target predicate (p2.blockInsts join))
      (guardPhis (under predicate c) (under predicate c.negate) (p2.blockInsts join) p2) () p') :
    Yields (hoistNode target (depth + 1) predicate id) p (m + n + 1) p' := by
  rw [hoistNode, yields_read, hid]
  simp only [↓yields_read, yields_bind, yields_transform_modify, yields_pure]
  exact ⟨m, p1, hthen, n, p2, helse, (), _, rfl, (), p', hphis, rfl, rfl⟩

lemma yields_hoistEach_cons {hoist : NodeId → Transform Nat} {rest : List NodeId} {n : Nat}
    (hfirst : Yields (hoist id) p m p1) (hrest : Yields (hoistEach hoist rest) p1 n p') :
    Yields (hoistEach hoist (id :: rest)) p (m + n) p' := by
  rw [hoistEach]
  simp only [yields_bind, yields_pure]
  exact ⟨m, p1, hfirst, n, p', hrest, rfl, rfl⟩

/-- A list without loops can be hoisted, whatever the predicate is. The induction is on the tree;
the lists inside of a conditional are hoisted with one level less. -/
theorem hoistEach_yields (predicate : Option Expr) (hsound : t.Sound p0) (hloops : t.LoopFree)
    (hready : Ready target p0 t.nodes t.insts p)
    (htarget : p.node? target = some (.block done)) (hheight : t.height ≤ depth) : ∃ p', Yields
    (hoistEach (hoistNode target depth predicate) t.roots) p (t.code p0).conditions.length p' ∧
      Gathered target done t.nodes t.insts ((t.code p0).flatten predicate) p p' := by
  induction t generalizing p depth predicate done with
  | nil =>
    refine ⟨p, yields_pure.mpr ⟨rfl, rfl⟩, ?_, forall_mem_nil _, fun _ _ _ => rfl, rfl, fun _ _ => rfl, rfl⟩
    rw [Tree.insts, List.append_nil]
    exact htarget
  | block id is rest ih =>
    simp only [height] at hheight
    obtain _ | depth := depth
    · omega
    have hparts : (Tree.append (block id is nil) rest).Sound p0 := hsound
    obtain ⟨hblock, hrest, _⟩ := sound_append.mp hparts
    obtain ⟨hid, hnodup, hrec⟩ := sound_block.mp hblock
    have hready : Ready target p0 ([id] ++ rest.nodes) (is ++ rest.insts) p := hready
    rw [← hready.nodes id mem_cons_self] at hid
    have hinst := hready.left.insts
    obtain ⟨p1, hyield1, hfirst⟩ := hoistInsts_yields predicate (blockInsts_eq hid) hnodup
      (fun i hi => hinst i hi ▸ hrec i hi) htarget fun heq => hready.outside (heq ▸ mem_cons_self)
    obtain ⟨p2, hyield2, hothers⟩ := ih predicate hrest hloops (hfirst.ready hready)
      hfirst.filled (show rest.height ≤ depth + 1 by omega)
    refine ⟨p2, ?_, ?_⟩
    · rw [code, Code.conditions_append, Code.conditions_ofLines, nil_append, ← Nat.zero_add (length _)]
      exact yields_hoistEach_cons (yields_hoistNode_block hid hyield1) hyield2
    · rw [code, Code.flatten_append, Code.flatten_ofLines, ← filterMap_congr fun i hi => line?_congr (hinst i hi)]
      exact hfirst.append hothers hready
  | branch id t e join phis rest iht ihe ih =>
    simp only [height] at hheight
    obtain _ | depth := depth
    · omega
    have hparts : (Tree.append (branch id t e join phis nil) rest).Sound p0 := hsound
    obtain ⟨hbranch, hrest, _⟩ := sound_append.mp hparts
    obtain ⟨⟨c, hid⟩, ht, he, hj, _⟩ := sound_branch.mp hbranch
    have hcond : p0.condition id = c := by
      rw [condition, hid]
      rfl
    -- the parts in the order in which they are hoisted
    have hnodes : (branch id t e join phis rest).nodes = [id] ++ t.nodes ++ e.nodes ++ [join] ++ rest.nodes := by
      simp only [Tree.nodes, List.append_assoc, cons_append, nil_append]
    have hinsts : (branch id t e join phis rest).insts = [] ++ t.insts ++ e.insts ++ phis ++ rest.insts := rfl
    rw [hnodes] at hready ⊢
    rw [hinsts] at hready ⊢
    rw [← hready.nodes id (by simp)] at hid
    have hself : Gathered target done [id] [] [] p p := by
      refine ⟨?_, forall_mem_singleton.mpr ?_, fun _ _ _ => rfl, rfl, fun _ _ => rfl, rfl⟩
      · rw [List.append_nil]
        exact htarget
      · rw [hid]
        rfl
    obtain ⟨p1, hyield1, hthen⟩ := iht (some (under predicate c)) ht hloops.1
      (hself.ready hready.left.left.left) (List.append_nil done ▸ htarget) (show t.height ≤ depth by omega)
    have hthen := hself.append hthen hready.left.left.left
    obtain ⟨p2, hyield2, helse⟩ := ihe (some (under predicate c.negate)) he hloops.2.1
      (hthen.ready hready.left.left) hthen.filled (show e.height ≤ depth by omega)
    have helse := hthen.append helse hready.left.left
    -- the phis of the join
    have hjoin := helse.ready hready.left
    have hlisted : p2.blockInsts join = phis := (blockInsts_congr (hjoin.nodes join mem_cons_self)).trans hj.listed
    have hrec : ∀ i ∈ phis, ∃ d, (guardPhis (under predicate c) (under predicate c.negate) phis p2).inst? i = some d ∧
        d.block = join := by
      intro i hi
      obtain ⟨d, hd, hb⟩ := hj.recorded i hi
      rw [inst?_guardPhis _ _ hjoin.insts_nodup, if_pos hi, hjoin.insts i hi, hd, map_some]
      refine ⟨_, rfl, ?_⟩
      unfold guardPhi
      split <;> exact hb
    obtain ⟨p3, hyield3, hphis⟩ :=
      hoistInsts_yields (p := guardPhis (under predicate c) (under predicate c.negate) phis p2)
      predicate hlisted hjoin.insts_nodup hrec helse.filled fun heq => hjoin.outside (heq ▸ mem_cons_self)
    have hphis := helse.append (hphis.guarded hj.phis hjoin) hready.left
    obtain ⟨p4, hyield4, hothers⟩ := ih predicate hrest hloops.2.2 (hphis.ready hready)
      hphis.filled (show rest.height ≤ depth + 1 by omega)
    refine ⟨p4, ?_, ?_⟩
    · rw [code, Code.conditions, length_cons, length_append, length_append, Nat.add_right_comm]
      refine yields_hoistEach_cons (yields_hoistNode_branch hid hyield1 hyield2 ?_) hyield4
      rw [hlisted]
      exact hyield3
    · rw [code, Code.flatten, hcond]
      exact hphis.append hothers hready
  | loop => exact hloops.elim

/-! ## Freeing what was hoisted -/

/-- What freeing nodes of a set changes, where no block of the set lists an instruction that is
kept. -/
structure Freed (S : NodeId → Prop) (K : List InstId) (p q : Procedure) : Prop where
  nodes : ∀ n, ¬ S n → q.node? n = p.node? n
  either : ∀ n, q.node? n = p.node? n ∨ q.node? n = none
  insts : ∀ i ∈ K, q.inst? i = p.inst? i
  rest : q = { p with nodes := q.nodes, insts := q.insts }

/-- A set of nodes that contains what its nodes contain, and in which no block lists an instruction
that is kept. -/
structure Cleanable (S : NodeId → Prop) (K : List InstId) (p : Procedure) : Prop where
  children : ∀ n, S n → ∀ node, p.node? n = some node → ∀ c ∈ node.children, S c
  apart : ∀ n, S n → ∀ i ∈ p.blockInsts n, i ∉ K

namespace Freed

lemma refl (S : NodeId → Prop) (K : List InstId) (p : Procedure) : Freed S K p p :=
  ⟨fun _ _ => rfl, fun _ => .inl rfl, fun _ _ => rfl, rfl⟩

lemma trans (h : Freed S K p q) (h' : Freed S K q r) : Freed S K p r where
  nodes := fun n hn => (h'.nodes n hn).trans (h.nodes n hn)
  either := by
    intro n
    rcases h'.either n with h1 | h1
    · rw [h1]
      exact h.either n
    · exact .inr h1
  insts := fun i hi => (h'.insts i hi).trans (h.insts i hi)
  rest := by rw [h'.rest, h.rest]

lemma cleanable (h : Freed S K p q) (hc : Cleanable S K p) : Cleanable S K q := by
  refine ⟨fun n hn node hnode => ?_, fun n hn i hi => ?_⟩
  · rcases h.either n with h1 | h1
    · exact hc.children n hn node (h1.symm.trans hnode)
    · rw [h1] at hnode
      cases hnode
  · rcases h.either n with h1 | h1
    · refine hc.apart n hn i ?_
      rw [blockInsts, ← h1]
      exact hi
    · rw [blockInsts, h1] at hi
      cases hi

lemma erase (hid : S id) : Freed S K p { p with nodes := p.nodes.erase id.index } := by
  refine ⟨?_, ?_, fun _ _ => rfl, rfl⟩
  · intro n hn
    rw [node?_erase, if_neg]
    exact fun heq => hn (heq ▸ hid)
  · intro n
    rw [node?_erase]
    by_cases h : n = id
    · exact .inr (if_pos h)
    · exact .inl (if_neg h)

lemma eraseInsts (hids : ∀ i ∈ ids, i ∉ K) : Freed S K p (p.eraseInsts ids) :=
  ⟨fun _ _ => rfl, fun _ => .inl rfl, fun i hi => by rw [inst?_eraseInsts, if_neg fun hmem => hids i hmem hi], rfl⟩

end Freed

lemma freed_freeTo (hc : Cleanable S K p) (hid : S id) : Freed S K p (freeTo depth id p) := by
  induction depth generalizing id p with
  | zero => exact Freed.refl S K p
  | succ depth ih =>
    rw [freeTo]
    cases hnode : p.node? id with
    | none => exact Freed.refl S K p
    | some node =>
      have herase : Freed S K p { p with nodes := p.nodes.erase id.index } := Freed.erase hid
      -- the children, one after the other
      have hchildren : ∀ (cs : List NodeId) (q : Procedure), Cleanable S K q → (∀ c ∈ cs, S c) →
          Freed S K q (cs.foldl (fun q child => freeTo depth child q) q) := by
        intro cs
        induction cs with
        | nil => exact fun q _ _ => Freed.refl S K q
        | cons c cs ihcs =>
          intro q hq hcs
          have hfirst := ih hq (hcs c mem_cons_self)
          exact hfirst.trans (ihcs _ (hfirst.cleanable hq) fun c' hc' => hcs c' (mem_cons_of_mem c hc'))
      have hsub : ∀ c ∈ node.children, S c := hc.children id hid node hnode
      cases node with
      | block is =>
        refine herase.trans (Freed.eraseInsts fun i hi => hc.apart id hid i ?_)
        rw [blockInsts, hnode]
        exact hi
      | branch | loop => exact herase.trans (hchildren _ _ (herase.cleanable hc) hsub)

lemma freed_freeEach (ids : List NodeId) (hc : Cleanable S K p) (hids : ∀ n ∈ ids, S n) :
    ∃ q, Yields (freeEach ids) p () q ∧ Freed S K p q := by
  induction ids generalizing p with
  | nil => exact ⟨p, yields_pure.mpr ⟨rfl, rfl⟩, Freed.refl S K p⟩
  | cons id rest ih =>
    have hfirst : Freed S K p (freeTo (p.nodes.size + 1) id p) := freed_freeTo hc (hids id mem_cons_self)
    obtain ⟨q, hyield, hrest⟩ := ih (hfirst.cleanable hc) fun n hn => hids n (mem_cons_of_mem id hn)
    refine ⟨q, ?_, hfirst.trans hrest⟩
    rw [freeEach]
    simp only [yields_bind, freeNode, yields_modify]
    exact ⟨(), _, rfl, hyield⟩

variable {spared : LocalId → Prop} {π : Layout}

/-- A procedure whose instructions have been gathered can be freed of all nodes that have places,
the contents of joins that are no blocks included. -/
lemma Procedure.Gathered.cleanable (hfits : π.Fits spared p) (ht : t.Spans p)
    (htarget : π target = none) (h : Gathered target done t.nodes t.insts lines p p') :
    Cleanable (fun n => ∃ x, π n = some x) t.insts p' := by
  -- nodes outside of the tree are as before
  have hnode : ∀ n x, π n = some x → n ∉ t.nodes → p'.node? n = p.node? n := by
    rintro n x hx hout
    refine h.nodes n ?_ hout
    rintro rfl
    cases htarget.symm.trans hx
  have hplaced : ∀ n x, π n = some x → ∀ node, p.node? n = some node → ∀ c ∈ node.children, ∃ y, π c = some y := by
    intro n x hx node hnode c hc
    obtain ⟨y, hy⟩ := hfits.children_placed hx hnode c hc
    exact ⟨y, hy⟩
  constructor
  · rintro n ⟨x, hx⟩ node hnode' c hc
    by_cases hmem : n ∈ t.nodes
    · rw [h.emptied n hmem, map_eq_some_iff] at hnode'
      obtain ⟨old, hold, rfl⟩ := hnode'
      refine hplaced n x hx old hold c ?_
      cases old <;> exact hc
    · rw [hnode n x hx hmem] at hnode'
      exact hplaced n x hx node hnode' c hc
  · rintro n ⟨x, hx⟩ i hi
    by_cases hmem : n ∈ t.nodes
    · rw [blockInsts, h.emptied n hmem] at hi
      cases hold : p.node? n with
      | none => simp [hold] at hi
      | some old => cases old <;> simp [hold, Node.emptied] at hi
    · rw [blockInsts, hnode n x hx hmem] at hi
      exact hfits.not_mem_insts ht hx hmem hi

/-! ## A whole procedure -/

/-- The procedure has become a single block. Its lines are the flattened code of the procedure, and
its instructions those of the procedure. -/
structure Predicated (t : Tree) (p p' : Procedure) : Prop where
  body : p'.body = [⟨p.nodes.size⟩]
  sound : (block ⟨p.nodes.size⟩ t.insts nil).Sound p'
  data : t.insts.map p'.inst? = ((t.code p).flatten none).map fun line => some ⟨line.1, ⟨p.nodes.size⟩, line.2⟩
  rest : p' = { p with nodes := p'.nodes, insts := p'.insts, body := p'.body }

lemma Predicated.spans (h : Predicated t p p') : (block ⟨p.nodes.size⟩ t.insts nil).Spans p' := ⟨h.body.symm, h.sound⟩

lemma Predicated.code_eq (h : Predicated t p p') :
    (block ⟨p.nodes.size⟩ t.insts nil).code p' = Code.ofLines ((t.code p).flatten none) := by
  rw [code, code, Code.append_done, filterMap_line?_of_map h.data]

lemma hasLoop_of_ifConvert {n : Nat} (hy : Yields ifConvert p n p') : p.hasLoop = false := by
  rw [Procedure.ifConvert, yields_read] at hy
  cases hloop : p.hasLoop with
  | false => rfl
  | true =>
    rw [hloop, if_pos rfl] at hy
    exact (yields_transform_fail.mp hy).elim

/-- Predication succeeds on a procedure without loops, and counts its conditionals. -/
lemma ifConvert_yields (hfits : π.Fits spared p) (ht : t.Spans p) (hloop : p.hasLoop = false) :
    ∃ p', Yields ifConvert p (t.code p).conditions.length p' ∧ Predicated t p p' := by
  have hloops := LoopFree.of_hasLoop ht hloop
  have hout : π ⟨p.nodes.size⟩ = none := by
    refine Option.eq_none_iff_forall_ne_some.mpr fun x hx => ?_
    obtain ⟨node, hnode⟩ := (hfits.stands _ x hx).live
    exact Nat.lt_irrefl _ (index_lt_of_node? hnode)
  have houtside : ⟨p.nodes.size⟩ ∉ t.nodes := fun hn => Nat.lt_irrefl _ (ht.sound.node_lt hn)
  -- the block that was just added is empty
  let p0 : Procedure := { p with nodes := p.nodes.push (.block []), body := [] }
  have hnode : ∀ n, p0.node? n = if n = ⟨p.nodes.size⟩ then some (.block []) else p.node? n := node?_push _
  have hpush : Gathered ⟨p.nodes.size⟩ [] [] [] [] p p0 :=
    ⟨(hnode _).trans (if_pos rfl), forall_mem_nil _, fun n hn _ => (hnode n).trans (if_neg hn), rfl, fun _ _ => rfl, rfl⟩
  have hready : Ready ⟨p.nodes.size⟩ p t.nodes t.insts p :=
    ⟨houtside, ht.sound.nodes_nodup, ht.sound.insts_nodup, fun _ _ => rfl, fun _ _ => rfl⟩
  have hheight : t.height ≤ p0.depth + 1 := by
    have hle := ht.sound.height_le
    simp only [p0, depth, Arena.size_push]
    omega
  obtain ⟨p1, hhoist, hh⟩ := hoistEach_yields none ht.sound hloops (hpush.ready hready) hpush.filled hheight
  have hh : Gathered ⟨p.nodes.size⟩ [] t.nodes t.insts ((t.code p).flatten none) p p1 := hpush.append hh hready
  obtain ⟨p2, hfree, hf⟩ := freed_freeEach t.roots (hh.cleanable hfits ht hout) fun n hn => by
    obtain ⟨x, _, hx⟩ := hfits.place_of_mem ht.roots ht.sound.fits (t.roots_sublist_nodes.subset hn)
    exact ⟨x, hx⟩
  rw [ht.roots] at hhoist hfree
  have hdata := hh.data
  rw [← map_congr_left hf.insts] at hdata
  refine ⟨{ p2 with body := [⟨p.nodes.size⟩] }, ?_, rfl, sound_block.mpr ⟨?_, ht.sound.insts_nodup, ?_⟩, hdata, ?_⟩
  · rw [ifConvert, yields_read, hloop, if_neg (by decide)]
    simp only [↓yields_read, yields_bind, yields_liftM, yields_newBlock, yields_transform_modify, yields_pure]
    exact ⟨_, _, ⟨rfl, rfl⟩, (), _, rfl, _, p1, hhoist, (), p2, hfree, (), _, rfl, rfl, rfl⟩
  · exact (hf.nodes _ (by simp [hout])).trans hh.filled
  · intro i hi
    obtain ⟨d, hd, hblock⟩ := hh.recorded i hi
    exact ⟨d, (hf.insts i hi).trans hd, hblock⟩
  · rw [hf.rest, hh.rest]

end ActorNet
