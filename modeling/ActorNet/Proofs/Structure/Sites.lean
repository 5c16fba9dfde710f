import ActorNet.Proofs.Structure.Rewrites

/-!
# Constructs in a list

A transformation changes a conditional or a loop of a list in the lists inside of it, at the ends of
the edges into its join, at the phis of the join, and in front of it. `Site` is such a construct
together with what stands before it, so that both kinds and all edges are treated alike: an
instruction at the end of an edge is appended to the code of the edge (`SiteRewrites.append`).
-/

namespace ActorNet

open List Procedure Tree

variable {inserted : Bool} {edge : Edge} {c : Expr} {inst : Inst} {new new' : List (Edge × Inst)}
  {others : List Tree} {b id join : NodeId} {L : NodeList} {p p' p1 p2 : Procedure} {s s' s1 : Site}
  {r t t' u : Tree} {N : List NodeId} {I phis phis' : List InstId}

namespace Tree

/-- The join of a construct: its listed instructions are recorded phis. -/
@[mk_iff] structure JoinAt (p : Procedure) (join : NodeId) (phis : List InstId) : Prop where
  listed : p.blockInsts join = phis
  live : ∃ node, p.node? join = some node
  recorded : ∀ i ∈ phis, ∃ d, p.inst? i = some d ∧ d.block = join
  phis : ∀ i ∈ phis, ∃ phi, p.phi? i = some phi

lemma JoinAt.edits {phis : List InstId} (h : JoinAt p join phis) (he : Edits N I p p') (hN : join ∉ N)
    (hI : ∀ i ∈ phis, i ∉ I) : JoinAt p' join phis ∧ ∀ i ∈ phis, p'.inst? i = p.inst? i := by
  obtain ⟨node, hnode⟩ := h.live
  have hjoin := he.nodes join hN (index_lt_of_node? hnode)
  have hinst : ∀ i ∈ phis, p'.inst? i = p.inst? i := by
    intro i hi
    obtain ⟨d, hd, _⟩ := h.recorded i hi
    exact he.insts i (hI i hi) (index_lt_of_inst? hd)
  refine ⟨⟨?_, ⟨node, hjoin.trans hnode⟩, ?_, ?_⟩, hinst⟩
  · rw [blockInsts_congr hjoin, h.listed]
  · intro i hi
    rw [hinst i hi]
    exact h.recorded i hi
  · intro i hi
    rw [phi?_congr (hinst i hi)]
    exact h.phis i hi

end Tree

/-- The list inside of a construct at whose end an edge into the join starts. -/
def Edge.list (id : NodeId) : Edge → NodeList
  | thenEnd => .thenOf id
  | elseEnd => .elseOf id
  | entry | back => .bodyOf id

/-- A conditional or a loop, with what stands before it. -/
inductive Site where
  | branch (before thenTree elseTree : Tree)
  | loop (before body : Tree)

namespace Site

def before : Site → Tree
  | branch d _ _ => d
  | loop d _ => d

/-- The lists inside of the construct. -/
def trees : Site → List Tree
  | branch _ t e => [t, e]
  | loop _ body => [body]

/-- The construct itself. -/
def node (id join : NodeId) (phis : List InstId) : Site → Tree
  | branch _ t e => .branch id t e join phis .nil
  | loop _ body => .loop id body join phis .nil

def tree (s : Site) (id join : NodeId) (phis : List InstId) (r : Tree) : Tree :=
  s.before.append ((s.node id join phis).append r)

/-- The node of the construct, with a condition. -/
def shape (join : NodeId) (c : Expr) : Site → Node
  | branch _ t e => .branch c t.roots e.roots join
  | loop _ body => .loop c body.roots join

/-- The list inside of the construct at whose end an edge starts. -/
def inner? : Site → Edge → Option Tree
  | branch _ t _, .thenEnd => some t
  | branch _ _ e, .elseEnd => some e
  | loop _ body, .back => some body
  | _, _ => none

/-- Another list inside of the construct. -/
def withInner (edge : Edge) (t' : Tree) : Site → Site
  | branch d t e => if edge = .thenEnd then branch d t' e else branch d t t'
  | loop d _ => loop d t'

/-- Another tree before the construct. -/
def withBefore (d' : Tree) : Site → Site
  | branch _ t e => branch d' t e
  | loop _ body => loop d' body

/-- The code that an edge ends with. -/
def codeAt (s : Site) (p : Procedure) : Edge → Code
  | .entry => s.before.code p
  | edge => match s.inner? edge with
    | some t => t.code p
    | none => .done

def edges : Site → List Edge
  | branch _ _ _ => [.thenEnd, .elseEnd]
  | loop _ _ => [.entry, .back]

/-- Two sites are of the same kind. -/
def Alike : Site → Site → Prop
  | branch _ _ _, branch _ _ _ => True
  | loop _ _, loop _ _ => True
  | _, _ => False

lemma Alike.refl (s : Site) : s.Alike s := by
  cases s <;> trivial

lemma Alike.trans (h : s.Alike s1) (h' : s1.Alike s') : s.Alike s' := by
  cases s <;> cases s1 <;> cases s' <;> trivial

lemma Alike.edges (h : s.Alike s') : s'.edges = s.edges := by
  cases s <;> cases s' <;> first | rfl | exact h.elim

end Site

open Tree

/-! ## Sound constructs -/

namespace Site

lemma nodes_node : (s.node id join phis).nodes.Perm (id :: join :: s.trees.flatMap nodes) := by
  cases s with
  | branch d t e =>
    simp only [node, Tree.nodes, trees, flatMap_cons, flatMap_nil, List.append_nil]
    exact (perm_append_singleton join (t.nodes ++ e.nodes)).cons id
  | loop d body => simp [node, Tree.nodes, trees]

lemma insts_node : (s.node id join phis).insts.Perm (phis ++ s.trees.flatMap insts) := by
  cases s with
  | branch d t e =>
    simp only [node, Tree.insts, trees, flatMap_cons, flatMap_nil, List.append_nil]
    exact perm_append_comm
  | loop d body => simp [node, Tree.insts, trees]

lemma joins_node : (s.node id join phis).joins.Perm ([(join, phis)] ++ s.trees.flatMap joins) := by
  cases s with
  | branch d t e =>
    simp only [node, Tree.joins, trees, flatMap_cons, flatMap_nil, List.append_nil]
    exact perm_append_comm
  | loop d body => simp [node, Tree.joins, trees]

lemma held_node : (s.node id join phis).Held p ↔
    (∃ c, p.node? id = some (s.shape join c)) ∧ (∀ t ∈ s.trees, t.Held p) ∧ JoinAt p join phis := by
  have hlive : (∃ c, p.node? id = some (s.shape join c)) → ∃ node, p.node? id = some node := by
    rintro ⟨c, hc⟩
    exact ⟨_, hc⟩
  cases s with
  | branch | loop =>
    simp only [node, shape, trees, held_iff, joinAt_iff, Fits, Tree.nodes, blocks, joins, forall_mem_cons,
      forall_mem_append, not_mem_nil, false_implies, implies_true, and_true] at hlive ⊢
    tauto

lemma sound_node : (s.node id join phis).Sound p ↔ (∃ c, p.node? id = some (s.shape join c)) ∧
    (∀ t ∈ s.trees, t.Sound p) ∧ JoinAt p join phis ∧ (id :: join :: s.trees.flatMap nodes).Nodup ∧
    (phis ++ s.trees.flatMap insts).Nodup := by
  rw [sound_iff, held_node, nodes_node.nodup_iff, insts_node.nodup_iff]
  constructor
  · rintro ⟨⟨hid, ht, hj⟩, hn, hi⟩
    refine ⟨hid, fun t hmem => ⟨ht t hmem, ?_, ?_⟩, hj, hn, hi⟩
    · exact (nodup_flatMap.mp (nodup_cons.mp (nodup_cons.mp hn).2).2).1 t hmem
    · exact (nodup_flatMap.mp (nodup_append.mp hi).2.1).1 t hmem
  · rintro ⟨hid, ht, hj, hn, hi⟩
    exact ⟨⟨hid, fun t hmem => (ht t hmem).toHeld, hj⟩, hn, hi⟩

end Site

lemma Tree.sound_branch {e : Tree} {phis : List InstId} : (branch id t e join phis .nil).Sound p ↔
    (∃ c, p.node? id = some (.branch c t.roots e.roots join)) ∧
      t.Sound p ∧ e.Sound p ∧ JoinAt p join phis ∧ (id :: join :: (t.nodes ++ e.nodes)).Nodup ∧
      (phis ++ (t.insts ++ e.insts)).Nodup := by
  have h : (Site.node id join phis (.branch .nil t e)).Sound p ↔ _ := Site.sound_node
  simpa only [Site.node, Site.shape, Site.trees, forall_mem_cons, not_mem_nil, false_implies,
    implies_true, and_true, flatMap_cons, flatMap_nil, List.append_nil, and_assoc] using h

lemma Tree.sound_loop {body : Tree} {phis : List InstId} : (loop id body join phis .nil).Sound p ↔
    (∃ c, p.node? id = some (.loop c body.roots join)) ∧ body.Sound p ∧
      JoinAt p join phis ∧ (id :: join :: body.nodes).Nodup ∧ (phis ++ body.insts).Nodup := by
  have h : (Site.node id join phis (.loop .nil body)).Sound p ↔ _ := Site.sound_node
  simpa only [Site.node, Site.shape, Site.trees, forall_mem_cons, not_mem_nil, false_implies,
    implies_true, and_true, flatMap_cons, flatMap_nil, List.append_nil] using h

namespace Site

/-! ## Lists inside of constructs -/

lemma owner_list (edge : Edge) (id : NodeId) : (edge.list id).owner? = some id := by
  cases edge <;> rfl

lemma condition_of_shape (h : p.node? id = some (s.shape join c)) : p.condition id = c := by
  rw [condition, h]
  cases s <;> rfl

/-- A list inside of a construct, and the others. -/
lemma exists_split (h : s.inner? edge = some t) :
    ∃ others, s.trees.Perm (t :: others) ∧ (∀ t', (s.withInner edge t').trees.Perm (t' :: others)) ∧
      ∀ edge' u, edge' ≠ edge → s.inner? edge' = some u → u ∈ others := by
  cases s with
  | branch d t e =>
    cases edge with
    | thenEnd =>
      cases h
      refine ⟨[e], .refl _, fun _ => .refl _, fun edge' u hne hu => ?_⟩
      cases edge' <;> cases hu <;> first | exact absurd rfl hne | exact mem_singleton_self _
    | elseEnd =>
      cases h
      refine ⟨[t], .swap _ _ _, fun _ => .swap _ _ _, fun edge' u hne hu => ?_⟩
      cases edge' <;> cases hu <;> first | exact absurd rfl hne | exact mem_singleton_self _
    | entry | back => cases h
  | loop d body =>
    cases edge with
    | back =>
      cases h
      refine ⟨[], .refl _, fun _ => .refl _, fun edge' u hne hu => ?_⟩
      cases edge' <;> cases hu
      exact absurd rfl hne
    | thenEnd | elseEnd | entry => cases h

lemma mem_trees (h : s.inner? edge = some t) : t ∈ s.trees := by
  obtain ⟨others, htrees, _⟩ := exists_split h
  exact htrees.mem_iff.mpr mem_cons_self

lemma listAt_inner (edge : Edge) (h : (s.node id join phis).Sound p) (ht : s.inner? edge = some t) :
    ListAt (edge.list id) t p := by
  obtain ⟨⟨c, hid⟩, hsound, _, hn, _⟩ := sound_node.mp h
  refine ⟨hsound t (mem_trees ht), ?_, ?_, fun o ho hmem => ?_⟩
  · cases s <;> cases edge <;> cases ht <;> simp only [Edge.list, listNodes, hid, shape]
  · cases s <;> cases edge <;> cases ht <;> simp [Edge.list, around?, hid, shape]
  · rw [owner_list, Option.some.injEq] at ho
    subst o
    exact (nodup_cons.mp hn).1 (mem_cons_of_mem _ (mem_flatMap.mpr ⟨t, mem_trees ht, hmem⟩))

lemma shape_of_around (hid : p.node? id = some (s.shape join c)) (ht : s.inner? edge = some t)
    (haround : p'.around? (edge.list id) = p.around? (edge.list id)) (hlist : p'.listNodes (edge.list id) = t'.roots) :
    p'.node? id = some ((s.withInner edge t').shape join c) := by
  cases s <;> cases edge <;> cases ht
  all_goals
    simp only [Edge.list, shape, around?, listNodes] at hid haround hlist
    rw [hid] at haround
    split at haround
    · rename_i hnode
      simp only [hnode] at hlist ⊢
      cases haround
      rw [hlist]
      rfl
    · cases haround

lemma perm_flatMap {α : Type} {trees : List Tree} (h : trees.Perm (t :: others)) (l : List α)
    (f : Tree → List α) : (l ++ trees.flatMap f).Perm (f t ++ (l ++ others.flatMap f)) := by
  refine ((h.flatMap_right f).append_left l).trans ?_
  rw [flatMap_cons, ← List.append_assoc, ← List.append_assoc]
  exact perm_append_comm.append_right _

lemma mem_node (h : s.trees.Perm (t :: others)) (id join : NodeId) (phis : List InstId) :
    (∀ n, n ∈ (s.node id join phis).nodes ↔ n ∈ t.nodes ∨ n ∈ [id, join] ++ others.flatMap nodes) ∧
      ∀ i, i ∈ (s.node id join phis).insts ↔ i ∈ t.insts ∨ i ∈ phis ++ others.flatMap insts :=
  ⟨fun _ => (nodes_node.trans (perm_flatMap h [id, join] _)).mem_iff.trans mem_append,
    fun _ => (insts_node.trans (perm_flatMap h _ _)).mem_iff.trans mem_append⟩

/-- Rewriting a list inside of a construct. -/
lemma sound_withInner (h : (s.node id join phis).Sound p) (ht : s.inner? edge = some t)
    (hr : Rewrites (edge.list id) t t' p p') : ((s.withInner edge t').node id join phis).Sound p' ∧
      (∀ b ∈ ((s.withInner edge t').node id join phis).joins, (s.node id join phis).KeptJoin p p' b.1) ∧
      p'.condition id = p.condition id ∧ (∀ i ∈ phis, p'.inst? i = p.inst? i) ∧
      ∀ edge' u, edge' ≠ edge → s.inner? edge' = some u → u.Stays p p' := by
  obtain ⟨⟨c, hid⟩, hsound, hj, hn, hi⟩ := sound_node.mp h
  obtain ⟨others, htrees, htrees', hother⟩ := exists_split ht
  obtain ⟨_, hnrest, hnapart⟩ := nodup_append'.mp ((perm_flatMap htrees [id, join] nodes).nodup_iff.mp hn)
  obtain ⟨_, hirest, hiapart⟩ := nodup_append'.mp ((perm_flatMap htrees phis insts).nodup_iff.mp hi)
  -- what is outside of the list was there before
  have hnlt : ∀ n ∈ [id, join] ++ others.flatMap nodes, n.index < p.nodes.size := fun n hn =>
    h.node_lt (((mem_node htrees _ _ _).1 n).mpr (.inr hn))
  have hilt : ∀ i ∈ phis ++ others.flatMap insts, i.index < p.insts.size := fun i hi =>
    h.inst_lt (((mem_node htrees _ _ _).2 i).mpr (.inr hi))
  have hedits := hr.edits
  rw [owner_list, Option.toList_some, singleton_append] at hedits
  have hapart : ∀ u ∈ others, u.Apart (id :: t.nodes) t.insts := by
    intro u hu
    refine ⟨fun n hn hmem => ?_, fun i hi hmem => ?_⟩
    · have hnu := mem_flatMap.mpr ⟨u, hu, hn⟩
      rcases mem_cons.mp hmem with rfl | hmem
      · exact (nodup_cons.mp hnrest).1 (mem_cons_of_mem _ hnu)
      · exact hnapart hmem (mem_append_right _ hnu)
    · exact hiapart hmem (mem_append_right _ (mem_flatMap.mpr ⟨u, hu, hi⟩))
  have hsound' : ∀ u ∈ others, u.Sound p := fun u hu => hsound u (htrees.mem_iff.mpr (mem_cons_of_mem _ hu))
  have hjoin : join ∉ id :: t.nodes := by
    rw [mem_cons, not_or]
    refine ⟨fun heq => (nodup_cons.mp hn).1 (heq ▸ mem_cons_self), fun hmem => hnapart hmem ?_⟩
    exact mem_append_left _ (mem_cons_of_mem _ mem_cons_self)
  obtain ⟨hj', hphis⟩ := hj.edits hedits hjoin fun i hi hmem => hiapart hmem (mem_append_left _ hi)
  have hid' := shape_of_around hid ht hr.around hr.list.nodes
  have hjoins : (s.node id join phis).joins.Perm _ := joins_node.trans (perm_flatMap htrees [(join, phis)] joins)
  refine ⟨sound_node.mpr ⟨⟨c, hid'⟩, fun u hu => ?_, hj', ?_, ?_⟩, fun b hb => ?_, ?_, hphis, fun edge' u hne hu => ?_⟩
  · rcases mem_cons.mp ((htrees' t').mem_iff.mp hu) with rfl | hu
    · exact hr.list.sound
    · exact (hsound' u hu).edits hedits (hapart u hu)
  · refine (perm_flatMap (htrees' t') [id, join] nodes).nodup_iff.mpr (nodup_append'.mpr
      ⟨hr.list.sound.nodes_nodup, hnrest, fun n hn hmem => (hr.nodes n hn).elim (hnapart · hmem) ?_⟩)
    exact Nat.not_le.mpr (hnlt n hmem)
  · refine (perm_flatMap (htrees' t') phis insts).nodup_iff.mpr (nodup_append'.mpr
      ⟨hr.list.sound.insts_nodup, hirest, fun i hi hmem => (hr.insts i hi).elim (hiapart · hmem) ?_⟩)
    exact Nat.not_le.mpr (hilt i hmem)
  · rcases mem_append.mp ((joins_node.trans (perm_flatMap (htrees' t') _ joins)).mem_iff.mp hb) with hb | hb
    · refine (hr.joins b hb).imp_right (And.imp_left fun hmem => ?_)
      obtain ⟨b', hb', heq⟩ := mem_map.mp hmem
      exact mem_map.mpr ⟨b', hjoins.mem_iff.mpr (mem_append_left _ hb'), heq⟩
    · refine .inr ⟨mem_map_of_mem (hjoins.mem_iff.mpr (mem_append_right _ hb)), ?_⟩
      rcases mem_append.mp hb with hb | hb
      · rw [mem_singleton.mp hb]
        exact hedits.nodes join hjoin (hnlt join (mem_append_left _ (mem_cons_of_mem _ mem_cons_self)))
      · obtain ⟨u, hu, hb⟩ := mem_flatMap.mp hb
        exact (hsound' u hu).join_congr hedits (hapart u hu) hb
  · rw [condition_of_shape hid', condition_of_shape hid]
  · exact (hsound' u (hother edge' u hne hu)).stays hedits (hapart u (hother edge' u hne hu))

/-! ## Constructs in a list -/

lemma codeAt_inner (p : Procedure) (ht : s.inner? edge = some t) : s.codeAt p edge = t.code p := by
  cases s <;> cases edge <;> cases ht <;> rfl

lemma codeAt_withInner (p : Procedure) (ht : s.inner? edge = some t) (edge' : Edge) :
    (s.withInner edge t').codeAt p edge' = if edge' = edge then t'.code p else s.codeAt p edge' := by
  cases s <;> cases edge <;> cases ht <;> cases edge' <;> rfl

lemma codeAt_withBefore (p : Procedure) (d' : Tree) (edge : Edge) :
    (s.withBefore d').codeAt p edge = if edge = .entry then d'.code p else s.codeAt p edge := by
  cases s <;> cases edge <;> rfl

lemma codeAt_congr (hbefore : edge = .entry → s.before.code p' = s.before.code p)
    (hinner : ∀ t, s.inner? edge = some t → t.code p' = t.code p) : s.codeAt p' edge = s.codeAt p edge := by
  cases hedge : s.inner? edge with
  | some t => rw [codeAt_inner p' hedge, codeAt_inner p hedge, hinner t hedge]
  | none => cases edge <;> first | exact hbefore rfl | simp only [codeAt, hedge]

section

variable (h : ListAt L (s.tree id join phis r) p)
include h

lemma sound : (s.node id join phis).Sound p := h.part

lemma joinAt : JoinAt p join phis := (sound_node.mp (sound h)).2.2.1

lemma exists_shape : ∃ c, p.node? id = some (s.shape join c) :=
  (sound_node.mp (sound h)).1

lemma phis_nodup : phis.Nodup :=
  (nodup_append.mp (sound_node.mp (sound h)).2.2.2.2).1

end

lemma root_node (s : Site) : (s.node id join phis).roots = [id] := by
  cases s <;> rfl

end Site

/-- What it means for a construct and what stands after it to stay. -/
lemma Tree.Stays.node {s : Site} {id join : NodeId} {phis : List InstId} {r : Tree}
    {p p' : Procedure} (h : ((s.node id join phis).append r).Stays p p') :
    p'.condition id = p.condition id ∧ (∀ t ∈ s.trees, t.Stays p p') ∧
      (∀ i ∈ phis, p'.inst? i = p.inst? i) ∧ r.Stays p p' := by
  obtain ⟨hcode, hinsts⟩ := h
  have hinsts : ∀ i, i ∈ phis ∨ (∃ t ∈ s.trees, i ∈ t.insts) ∨ i ∈ r.insts → p'.inst? i = p.inst? i := by
    intro i hi
    refine hinsts i ?_
    rw [insts_append, mem_append, Site.insts_node.mem_iff, mem_append, mem_flatMap, or_assoc]
    exact hi
  have hcodes : p'.condition id = p.condition id ∧ (∀ t ∈ s.trees, t.code p' = t.code p) ∧ r.code p' = r.code p := by
    cases s with
    | branch | loop =>
      simp only [Site.node, Tree.append, Tree.code, Code.branch.injEq, Code.loop.injEq] at hcode
      simp only [Site.trees, forall_mem_cons, not_mem_nil, false_implies, implies_true, and_true]
      tauto
  exact ⟨hcodes.1, fun t ht => ⟨hcodes.2.1 t ht, fun i hi => hinsts i (.inr (.inl ⟨t, ht, hi⟩))⟩,
    fun i hi => hinsts i (.inl hi), hcodes.2.2, fun i hi => hinsts i (.inr (.inr hi))⟩

/-- A construct and what stands before it have been rewritten. Its condition, the phis of its join
and what stands after it are as before. -/
structure SiteKept (L : NodeList) (id join : NodeId) (phis : List InstId) (r : Tree) (s s' : Site)
    (p p' : Procedure) : Prop where
  rewrites : Rewrites L (s.tree id join phis r) (s'.tree id join phis r) p p'
  condition : p'.condition id = p.condition id
  after : r.Stays p p'
  phis : ∀ i ∈ phis, p'.inst? i = p.inst? i

namespace SiteKept

lemma trans (h : SiteKept L id join phis r s s1 p p1) (h' : SiteKept L id join phis r s1 s' p1 p') :
    SiteKept L id join phis r s s' p p' :=
  ⟨h.rewrites.trans h'.rewrites, h'.condition.trans h.condition, h.after.trans h'.after,
    fun i hi => (h'.phis i hi).trans (h.phis i hi)⟩

/-- Rewriting a list inside of a construct. -/
lemma inner (edge : Edge) (h : ListAt L (s.tree id join phis r) p) (ht : s.inner? edge = some t)
    (hr : Rewrites (edge.list id) t t' p p') : SiteKept L id join phis r s
      (s.withInner edge t') p p' ∧ (∀ edge', edge' ≠ edge → s.codeAt p' edge' = s.codeAt p edge') ∧
      ∀ edge' u, edge' ≠ edge → s.inner? edge' = some u → u.Stays p p' := by
  obtain ⟨hsound, hjoins, hcond, hphis, hother⟩ := Site.sound_withInner (Site.sound h) ht hr
  obtain ⟨others, htrees, htrees', _⟩ := Site.exists_split ht
  obtain ⟨hnodes, hinsts⟩ := Site.mem_node htrees id join phis
  obtain ⟨hnodes', hinsts'⟩ := Site.mem_node (htrees' t') id join phis
  have hlist : ListAt L (s.before.append ((s.node id join phis).append r)) p := h
  obtain ⟨hrw, hd, hr'⟩ := Rewrites.inside hlist (hr.edits.mono (by
      intro n hn
      rw [Site.owner_list, Option.toList_some, singleton_append, mem_cons] at hn
      rcases hn with rfl | hn
      · exact (hnodes n).mpr (.inr mem_cons_self)
      · exact (hnodes n).mpr (.inl hn)) (by
      intro i hi
      exact (hinsts i).mpr (.inl hi))) (hr.body.resolve_left (by cases edge <;> simp [Edge.list])) hsound
    ⟨fun n hn => ((hnodes' n).mp hn).elim (fun hn => (hr.nodes n hn).imp_left fun hn => (hnodes n).mpr (.inl hn))
        fun hn => .inl ((hnodes n).mpr (.inr hn)),
      fun i hi => ((hinsts' i).mp hi).elim (fun hi => (hr.insts i hi).imp_left fun hi => (hinsts i).mpr (.inl hi))
        fun hi => .inl ((hinsts i).mpr (.inr hi)), hjoins⟩ ((Site.root_node _).trans (Site.root_node s).symm)
  have hbefore : (s.withInner edge t').before = s.before := by
    cases s <;> cases edge <;> cases ht <;> rfl
  refine ⟨⟨?_, hcond, hr', hphis⟩, fun edge' hne => ?_, hother⟩
  · rw [Site.tree, Site.tree, hbefore]
    exact hrw
  · exact Site.codeAt_congr (fun _ => hd.code) fun u hu => (hother edge' u hne hu).code

/-- Rewriting what stands before a construct. -/
lemma front {d' : Tree} (hrw : Rewrites L (s.tree id join phis r) ((s.withBefore d').tree id join phis r) p p')
    (hstays : ((s.node id join phis).append r).Stays p p') : SiteKept L id join phis r s (s.withBefore d') p p' ∧
      ∀ edge, edge ≠ .entry → s.codeAt p' edge = s.codeAt p edge := by
  obtain ⟨hcond, htrees, hphis, hr⟩ := hstays.node
  exact ⟨⟨hrw, hcond, hr, hphis⟩, fun edge hne =>
    Site.codeAt_congr (fun heq => absurd heq hne) fun t ht => (htrees t (Site.mem_trees ht)).code⟩

end SiteKept

section InPlace

/-- The condition of a construct and the phis of its join may change in their places. -/
lemma Site.rewrites_of_edits (h : ListAt L (s.tree id join phis r) p) (he : Edits [id, join] phis p p')
    (hbody : p'.body = p.body) (hid : ∃ c, p'.node? id = some (s.shape join c)) (hjoin : JoinAt p' join phis')
    (hphis : phis'.Sublist phis) (hkept : p'.isBlock join = true ∨ p'.node? join = p.node? join) :
    Rewrites L (s.tree id join phis r) (s.tree id join phis' r) p p' ∧ r.Stays p p' ∧
      ∀ edge, s.codeAt p' edge = s.codeAt p edge := by
  obtain ⟨_, hsound, _, hn, hi⟩ := sound_node.mp (Site.sound h)
  have hapart : ∀ t ∈ s.trees, t.Apart [id, join] phis := fun t ht =>
    ⟨fun n hn' hmem => (nodup_append'.mp (show ([id, join] ++ _).Nodup from hn)).2.2 hmem
        (mem_flatMap.mpr ⟨t, ht, hn'⟩),
      fun i hi' hmem => (nodup_append'.mp hi).2.2 hmem (mem_flatMap.mpr ⟨t, ht, hi'⟩)⟩
  have hsound' : (s.node id join phis').Sound p' :=
    sound_node.mpr ⟨hid, fun t ht => (hsound t ht).edits he (hapart t ht), hjoin, hn, hi.sublist (hphis.append_right _)⟩
  have hjoins : ∀ b ∈ (s.node id join phis').joins, (s.node id join phis).KeptJoin p p' b.1 := by
    intro b hb
    rcases mem_append.mp (joins_node.mem_iff.mp hb) with hb | hb
    · rw [mem_singleton.mp hb]
      exact hkept.imp_right (.intro (mem_map.mpr ⟨_, joins_node.mem_iff.mpr mem_cons_self, rfl⟩))
    · obtain ⟨t, ht, hbt⟩ := mem_flatMap.mp hb
      exact .inr ⟨mem_map_of_mem (joins_node.mem_iff.mpr (mem_append_right _ hb)),
        (hsound t ht).join_congr he (hapart t ht) hbt⟩
  have hlist : ListAt L (s.before.append ((s.node id join phis).append r)) p := h
  obtain ⟨hrw, hd, hr⟩ := Rewrites.inside hlist (he.mono (fun n hn => nodes_node.mem_iff.mpr (by
      simp only [mem_cons, not_mem_nil, or_false] at hn ⊢
      tauto)) fun i hi => insts_node.mem_iff.mpr (mem_append_left _ hi)) hbody hsound'
    ⟨fun n hn => .inl (nodes_node.mem_iff.mpr (nodes_node.mem_iff.mp hn)), fun i hi =>
      .inl (insts_node.mem_iff.mpr ((hphis.append_right _).subset (insts_node.mem_iff.mp hi))), hjoins⟩
    ((root_node s).trans (root_node s).symm)
  exact ⟨hrw, hr, fun edge => codeAt_congr (fun _ => hd.code) fun t ht =>
    ((hsound t (mem_trees ht)).stays he (hapart t (mem_trees ht))).code⟩

/-- Emptying the join of a construct. -/
lemma Site.rewrites_of_cleared (h : ListAt L (s.tree id join phis r) p) (hc : Cleared join phis p p') :
    Rewrites L (s.tree id join phis r) (s.tree id join [] r) p p' ∧ r.Stays p p' ∧
      (∀ edge, s.codeAt p' edge = s.codeAt p edge) ∧ p'.condition id = p.condition id := by
  obtain ⟨⟨c, hid⟩, _, _, hn, _⟩ := sound_node.mp (Site.sound h)
  have hid' : p'.node? id = some (s.shape join c) := by
    rw [hc.edits.nodes id _ (index_lt_of_node? hid), hid]
    exact fun hmem => (nodup_cons.mp hn).1 (mem_singleton.mp hmem ▸ mem_cons_self)
  have hjoin : JoinAt p' join [] := by
    refine ⟨?_, ⟨_, hc.node⟩, by simp, by simp⟩
    rw [blockInsts, hc.node]
  obtain ⟨hrw, hr, hcodes⟩ := rewrites_of_edits h (hc.edits.mono (subset_cons_self _ _) (List.Subset.refl _)) hc.body
    ⟨c, hid'⟩ hjoin (nil_sublist _) (.inl (by rw [isBlock, hc.node]; rfl))
  exact ⟨hrw, hr, hcodes, by rw [condition_of_shape hid', condition_of_shape hid]⟩

end InPlace

/-! ## Instructions on edges -/

/-- The instructions for an edge among instructions for edges. -/
def onEdge (edge : Edge) (new : List (Edge × Inst)) : List Inst :=
  (new.filter (·.1 = edge)).map (·.2)

lemma onEdge_cons (edge e : Edge) (i : Inst) (new : List (Edge × Inst)) :
    onEdge edge ((e, i) :: new) = (if e = edge then [i] else []) ++ onEdge edge new := by
  simp only [onEdge, filter_cons, decide_eq_true_eq]
  split <;> rfl

lemma onEdge_append (edge : Edge) (l m : List (Edge × Inst)) : onEdge edge (l ++ m) = onEdge edge l ++ onEdge edge m := by
  rw [onEdge, filter_append, map_append]
  rfl

lemma mem_onEdge {i : Inst} (h : i ∈ onEdge edge new) : ∃ x ∈ new, x.2 = i := by
  obtain ⟨x, hx, rfl⟩ := mem_map.mp h
  exact ⟨x, (mem_filter.mp hx).1, rfl⟩

lemma onEdge_eq_nil (h : ∀ x ∈ new, x.1 ≠ edge) : onEdge edge new = [] := by
  rw [onEdge, filter_eq_nil_iff.mpr fun x hx => by simpa using h x hx]
  rfl

/-- A construct and what stands before it have been rewritten: instructions were put at the ends of
edges. Its condition and what stands after it are as before. -/
structure SiteRewrites (L : NodeList) (id join : NodeId) (phis : List InstId) (r : Tree)
    (s s' : Site) (new : List (Edge × Inst)) (p p' : Procedure) : Prop where
  rewrites : Rewrites L (s.tree id join phis r) (s'.tree id join phis r) p p'
  alike : s.Alike s'
  condition : p'.condition id = p.condition id
  after : r.Stays p p'
  codes : ∀ edge, s'.codeAt p' edge = (s.codeAt p edge).append (.ofInsts (onEdge edge new))
  edges : ∀ x ∈ new, x.1 ∈ s.edges
  position : s.before.roots.length ≤ s'.before.roots.length

/-- How the block is found at which an edge into the join of a construct starts. -/
lemma Site.yields_edgeBlock {phis : List InstId} (h : ListAt L (s.tree id join phis r) p)
    (hy : Yields (edgeBlock L s.before.roots.length edge) p (b, inserted) p') :
    edge ∈ s.edges ∧ ((edge = .entry ∧ Yields (blockBefore L s.before.roots.length) p (b, inserted) p') ∨
      ∃ t, s.inner? edge = some t ∧ inserted = false ∧ Yields (ensureLastBlock (edge.list id)) p b p') := by
  have hget : (p.listNodes L)[s.before.roots.length]? = some id := by
    rw [h.nodes, tree, roots_append, roots_append, root_node, getElem?_append_right (Nat.le_refl _), Nat.sub_self]
    rfl
  obtain ⟨c, hid⟩ := exists_shape h
  rw [edgeBlock, yields_get_bind, hget] at hy
  cases s <;> cases edge <;> simp only [shape] at hid <;> simp [hid] at hy
  · exact ⟨mem_cons_self, .inr ⟨_, rfl, hy.2, hy.1⟩⟩
  · exact ⟨mem_cons_of_mem _ mem_cons_self, .inr ⟨_, rfl, hy.2, hy.1⟩⟩
  · exact ⟨mem_cons_self, .inl ⟨rfl, hy⟩⟩
  · exact ⟨mem_cons_of_mem _ mem_cons_self, .inr ⟨_, rfl, hy.2, hy.1⟩⟩

namespace SiteRewrites

lemma refl (h : ListAt L (s.tree id join phis r) p) : SiteRewrites L id join phis r s s [] p p :=
  ⟨Rewrites.refl h, Site.Alike.refl s, rfl, Stays.refl r p, fun _ => (Code.append_done _).symm,
    forall_mem_nil _, (Nat.le_refl _)⟩

lemma trans (h : SiteRewrites L id join phis r s s1 new p p1) (h' : SiteRewrites L id join phis r s1 s' new' p1 p') :
    SiteRewrites L id join phis r s s' (new ++ new') p p' where
  rewrites := h.rewrites.trans h'.rewrites
  alike := h.alike.trans h'.alike
  condition := h'.condition.trans h.condition
  after := h.after.trans h'.after
  codes := by
    intro edge
    rw [h'.codes, h.codes, onEdge_append, Code.ofInsts_append, Code.append_assoc]
  edges := by
    intro x hx
    rcases mem_append.mp hx with hx | hx
    · exact h.edges x hx
    · rw [← h.alike.edges]
      exact h'.edges x hx
  position := Nat.le_trans h.position h'.position

lemma of_kept (h : SiteKept L id join phis r s s' p p') (halike : s.Alike s')
    (hedge : edge ∈ s.edges) (hposition : s.before.roots.length ≤ s'.before.roots.length)
    (hself : s'.codeAt p' edge = (s.codeAt p edge).append (.inst inst none .done))
    (hother : ∀ edge', edge' ≠ edge → s'.codeAt p' edge' = s.codeAt p edge') :
    SiteRewrites L id join phis r s s' [(edge, inst)] p p' := by
  refine ⟨h.rewrites, halike, h.condition, h.after, fun edge' => ?_, fun x hx => ?_, hposition⟩
  · rw [onEdge_cons]
    by_cases heq : edge' = edge
    · subst heq
      rw [if_pos rfl]
      exact hself
    · rw [if_neg (Ne.symm heq)]
      exact (hother edge' heq).trans (Code.append_done _).symm
  · rw [mem_singleton.mp hx]
    exact hedge

lemma append {i : InstId} (h : ListAt L (s.tree id join phis r) p)
    (hy : Yields (edgeBlock L s.before.roots.length edge) p (b, inserted) p1)
    (hp2 : p2 = { p1 with locals := p2.locals, nextTemp := p2.nextTemp }) (hext : p1.Extends p2)
    (hi : Yields (appendInst b inst) p2 i p') : ∃ s', SiteRewrites L id join phis r s s' [(edge, inst)] p p' ∧
      s'.before.roots.length = s.before.roots.length + (if inserted then 1 else 0) ∧
      (∀ i ∈ phis, p'.inst? i = p.inst? i) ∧
      ∀ n, 1 ≤ n → (∀ t ∈ s.trees, t.height ≤ n) → ∀ t ∈ s'.trees, t.height ≤ n := by
  obtain ⟨hedge, ⟨rfl, hbefore⟩ | ⟨t, ht, rfl, hlast⟩⟩ := Site.yields_edgeBlock h hy
  · obtain ⟨d', hrw, hcode, hstays, hlength⟩ := Rewrites.appendBefore h hbefore hp2 hext hi
    have hd' : (s.withBefore d').before = d' := by cases s <;> rfl
    have hnode : (s.withBefore d').node id join phis = s.node id join phis := by cases s <;> rfl
    have htrees : (s.withBefore d').trees = s.trees := by cases s <;> rfl
    have hrw : Rewrites L (s.tree id join phis r) ((s.withBefore d').tree id join phis r) p p' := by
      rw [Site.tree, Site.tree, hd', hnode]
      exact hrw
    obtain ⟨hkept, hother⟩ := SiteKept.front hrw hstays
    refine ⟨s.withBefore d', of_kept hkept (by cases s <;> trivial) hedge ?_ ?_ fun edge' hne => ?_, ?_, hkept.phis, ?_⟩
    · rw [hd', hlength]
      exact Nat.le_add_right _ _
    · rw [Site.codeAt_withBefore, if_pos rfl]
      exact hcode
    · rw [Site.codeAt_withBefore, if_neg hne, hother edge' hne]
    · rw [hd', hlength]
    · rw [htrees]
      exact fun _ _ hle => hle
  · obtain ⟨t', hrw, hcode, hheight⟩ := Rewrites.appendLast (Site.listAt_inner edge (Site.sound h) ht) hlast hp2 hext hi
    obtain ⟨hkept, hother, _⟩ := SiteKept.inner edge h ht hrw
    have hbefore : (s.withInner edge t').before = s.before := by
      cases s <;> cases edge <;> cases ht <;> rfl
    refine ⟨s.withInner edge t', of_kept hkept (by cases s <;> cases edge <;> cases ht <;> trivial) hedge ?_ ?_
      fun edge' hne => ?_, ?_, hkept.phis, ?_⟩
    · exact Nat.le_of_eq (by rw [hbefore])
    · rw [Site.codeAt_withInner p' ht, if_pos rfl, Site.codeAt_inner p ht, hcode]
    · rw [Site.codeAt_withInner p' ht, if_neg hne, hother edge' hne]
    · rw [hbefore]
      rfl
    · intro n hn hle u hu
      obtain ⟨others, htrees, htrees', _⟩ := Site.exists_split ht
      rcases mem_cons.mp ((htrees' t').mem_iff.mp hu) with rfl | hu
      · exact Nat.le_trans hheight (Nat.max_le.mpr ⟨hle t (Site.mem_trees ht), hn⟩)
      · exact hle u (htrees.mem_iff.mpr (mem_cons_of_mem _ hu))

end SiteRewrites

end ActorNet
