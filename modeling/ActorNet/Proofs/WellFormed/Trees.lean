import ActorNet.Proofs.Structure.Sites
import ActorNet.Proofs.WellFormed.Layout

/-!
# Layouts of trees

A containment tree places its nodes (`Tree.places`). If its code names live locals only
(`Code.Live`), every node has what its place asks for (`Tree.stands`). A layout also places the
nodes under a join that is no block, which no tree names. These stay as they are when a tree is
rewritten, so a layout of the procedure before and the code of the procedure after give a layout of
the procedure after (`Layout.Fits.rewritten`).
-/

namespace ActorNet

open List Procedure Layout

variable {spared : LocalId → Prop} {π base : Layout} {L : NodeList}
  {n id join : NodeId} {phis : List InstId} {p p' : Procedure} {t t' : Tree} {x : Place}

namespace Tree

lemma conditions_code (hfits : t.Fits p) : (t.code p).conditions = t.listed.filterMap p.condition? := by
  have hcond {n : NodeId} {node : Node} (hn : p.node? n = some node) : p.condition? n = node.condition? ∧
      p.condition n = node.condition?.getD (.bool false) := by
    simp only [condition, condition?, hn, bind_some, and_self]
  induction t with
  | nil => rfl
  | block id is rest ih =>
    rw [code, Code.conditions_append, Code.conditions_ofLines, ih hfits.2, listed,
      filterMap_cons_none (hcond hfits.1).1, nil_append]
  | branch id t e join phis rest iht ihe ih =>
    obtain ⟨⟨c, hid⟩, ht, he, _, hrest⟩ := hfits
    rw [code, Code.conditions, iht ht, ihe he, ih hrest, listed, filterMap_cons_some (hcond hid).1,
      (hcond hid).2, filterMap_append, filterMap_append]
    rfl
  | loop id body join phis rest ihb ih =>
    obtain ⟨⟨c, hid⟩, hb, _, hrest⟩ := hfits
    rw [code, Code.conditions,
      ihb hb, ih hrest, listed, filterMap_cons_some (hcond hid).1, (hcond hid).2, filterMap_append]
    rfl

lemma stands_block {insts : List InstId} (hid : p.node? id = some (.block insts)) (hnodup : insts.Nodup)
    (h : ∀ i ∈ insts, Listed spared p id x.isJoin i) : Stands spared π p id x := by
  obtain rfl := blockInsts_eq hid
  refine ⟨⟨_, hid⟩, hnodup, h, ?_, ?_⟩ <;> rw [inside_eq hid]
  · exact nodup_nil
  · exact forall_mem_nil _

/-- A construct stands in its place if what it contains does in its own. -/
lemma stands_construct {node : Node} (hid : p.node? id = some node) (hjoin : node.join? = some join)
    (hnodup : ((p.inside id).map (·.1)).Nodup) (hplaced : ∀ y ∈ p.inside id, π y.1 = some y.2) :
    Stands spared π p id x := by
  have hnil : p.blockInsts id = [] := by
    rw [blockInsts, hid]
    cases node with
    | block insts => cases hjoin
    | branch | loop => rfl
  refine ⟨⟨_, hid⟩, ?_, ?_, hnodup, hplaced⟩ <;> rw [hnil]
  · exact nodup_nil
  · exact forall_mem_nil _

lemma Sound.inside_nodup (h : t.Sound p) (hn : n ∈ t.listed) : ((p.inside n).map (·.1)).Nodup :=
  (nodup_flatMap.mp (nodup_append.mp ((nodes_perm_inside h.fits).nodup_iff.mp h.nodes_nodup)).2.1).1 n hn

/-- The join of a construct has what its place asks for, if it is a block. -/
lemma stands_join (hj : JoinAt p join phis) (hnodup : phis.Nodup)
    (hlive : ∀ i ∈ phis, ∀ d, p.inst? i = some d → p.LiveIn spared d.inst.named)
    (hblock : p.isBlock join = true) : Stands spared π p join (.join id) := by
  obtain ⟨hinsts, _, hrecorded, hphis⟩ := hj
  obtain ⟨listed, hnode⟩ := isBlock_iff.mp hblock
  rw [blockInsts_eq hnode] at hinsts
  subst hinsts
  refine stands_block hnode hnodup fun i hi => ?_
  obtain ⟨d, hd, hrec⟩ := hrecorded i hi
  obtain ⟨φ, hφ⟩ := hphis i hi
  obtain ⟨b, predicate, hd'⟩ := phi?_eq_some.mp hφ
  cases hd.symm.trans hd'
  exact ⟨_, hd, hrec, fun _ => rfl, hlive i hi _ hd⟩

/-- Every node of a tree has what its place asks for, if its code names live locals only. Joins that
are no blocks are left out. -/
theorem stands (hsound : t.Sound p) (hplaced : ∀ y ∈ t.places L, π y.1 = some y.2)
    (hlive : ∀ i ∈ t.insts, ∀ d, p.inst? i = some d → p.LiveIn spared d.inst.named)
    (hjoins : ∀ b ∈ t.joins, p.isBlock b.1 = true ∨ ∀ id, Stands spared π p b.1 (.join id)) :
    ∀ y ∈ t.places L, Stands spared π p y.1 y.2 := by
  induction t generalizing L with
  | nil => exact forall_mem_nil _
  | block id is rest ih =>
    obtain ⟨hx, hrest, _⟩ := (sound_append (t := block id is nil)).mp hsound
    obtain ⟨hid, hnodup, hrecorded⟩ := sound_block.mp hx
    simp only [places, insts, joins, forall_mem_cons, forall_mem_append] at hplaced hlive hjoins ⊢
    refine ⟨stands_block hid hnodup fun i hi => ?_, ih hrest hplaced.2 hlive.2 hjoins⟩
    obtain ⟨d, hd, hrec⟩ := hrecorded i hi
    exact ⟨d, hd, hrec, (fun hx => by cases hx), hlive.1 i hi d hd⟩
  | branch id t e join phis rest iht ihe ih =>
    obtain ⟨hx, hrest, _⟩ := (sound_append (t := branch id t e join phis nil)).mp hsound
    obtain ⟨⟨c, hid⟩, ht, he, hj, hn, hi⟩ := sound_branch.mp hx
    simp only [places, insts, joins, forall_mem_cons, forall_mem_append] at hplaced hlive hjoins ⊢
    refine ⟨stands_construct hid rfl (hx.inside_nodup mem_cons_self) ?_, ⟨iht ht hplaced.2.1.1 hlive.1.1.1 hjoins.1.1,
      ihe he hplaced.2.1.2 hlive.1.1.2 hjoins.1.2⟩, ?_, ih hrest hplaced.2.2.2 hlive.2 hjoins.2.2⟩
    · simp only [inside_eq hid, Node.inside, forall_mem_cons, forall_mem_append, forall_mem_map, mem_reverse]
      exact ⟨hplaced.2.2.1, fun c hc => hplaced.2.1.2 _ (mem_places_of_root hc),
        fun c hc => hplaced.2.1.1 _ (mem_places_of_root hc)⟩
    · exact hjoins.2.1.elim (stands_join hj (nodup_append.mp hi).1 hlive.1.2) fun h => h id
  | loop id body join phis rest ihb ih =>
    obtain ⟨hx, hrest, _⟩ := (sound_append (t := loop id body join phis nil)).mp hsound
    obtain ⟨⟨c, hid⟩, hb, hj, hn, hi⟩ := sound_loop.mp hx
    simp only [places, insts, joins, forall_mem_cons, forall_mem_append] at hplaced hlive hjoins ⊢
    refine ⟨stands_construct hid rfl (hx.inside_nodup mem_cons_self) ?_, ?_,
      ihb hb hplaced.2.2.1 hlive.1.2 hjoins.2.1, ih hrest hplaced.2.2.2 hlive.2 hjoins.2.2⟩
    · simp only [inside_eq hid, Node.inside, forall_mem_cons, forall_mem_map, mem_reverse]
      exact ⟨hplaced.2.1, fun c hc => hplaced.2.2.1 _ (mem_places_of_root hc)⟩
    · exact hjoins.1.elim (stands_join hj (nodup_append.mp hi).1 hlive.1.1) fun h => h id

lemma exists_places_with {l : List (NodeId × Place)} (base : Layout) (hl : (l.map (·.1)).Nodup) :
    ∃ π : Layout, (∀ y ∈ l, π y.1 = some y.2) ∧ ∀ n ∉ l.map (·.1), π n = base n := by
  induction l with
  | nil => exact ⟨base, forall_mem_nil _, fun _ _ => rfl⟩
  | cons y rest ih =>
    obtain ⟨hy, hrest⟩ := nodup_cons.mp hl
    obtain ⟨π, hplaced, hother⟩ := ih hrest
    refine ⟨Function.update π y.1 (some y.2), ?_, fun n hn => ?_⟩
    · refine forall_mem_cons.mpr ⟨Function.update_self .., fun z hz => ?_⟩
      have hne : z.1 ≠ y.1 := fun heq => hy (mem_map.mpr ⟨z, hz, heq⟩)
      rw [Function.update_of_ne hne, hplaced z hz]
    · rw [map_cons, mem_cons, not_or] at hn
      rw [Function.update_of_ne hn.1, hother n hn.2]

/-- The nodes of a tree get their places next to nodes that are not of the tree. -/
lemma exists_layout_with (base : Layout) (ht : t.Spans p)
    (hlive : ∀ i ∈ (t.code p).insts, p.LiveIn spared i.named) (hnew : ∀ n x, base n = some x →
    n ∉ t.nodes) (hbase : ∀ π : Layout, (∀ n x, base n = some x → π n = some x) →
        (∀ n x, base n = some x → Stands spared π p n x) ∧ ∀ b ∈ t.joins, p.isBlock b.1 = true ∨
    ∀ id, Stands spared π p b.1 (.join id)) : ∃ π : Layout, π.Fits spared p := by
  obtain ⟨π, hplaced, hother⟩ := exists_places_with base (t.map_places .body ▸ ht.sound.nodes_nodup)
  rw [t.map_places] at hother
  obtain ⟨hstands, hjoins⟩ := hbase π fun n x hx => (hother n (hnew n x hx)).trans hx
  have hinsts : ∀ i ∈ t.insts, ∀ d, p.inst? i = some d → p.LiveIn spared d.inst.named := by
    intro i hi d hd
    refine hlive d.inst ?_
    rw [insts_code ht.sound.phis]
    exact mem_map_of_mem (mem_filterMap.mpr ⟨i, hi, hd⟩)
  refine ⟨π, ?_, fun n hn => hplaced _ (mem_places_of_root (ht.roots ▸ hn)), fun n x hx => ?_⟩
  · rw [← ht.roots]
    exact ht.sound.nodes_nodup.sublist t.roots_sublist_nodes
  · by_cases hn : n ∈ t.nodes
    · rw [← t.map_places .body] at hn
      obtain ⟨y, hy, rfl⟩ := mem_map.mp hn
      cases hx.symm.trans (hplaced y hy)
      exact stands ht.sound hplaced hinsts hjoins y hy
    · rw [hother n hn] at hx
      exact hstands n x hx

lemma owner_of_mem_places {y : NodeId × Place} (hy : y ∈ t.places L) :
    y.2.owner? = L.owner? ∨ ∃ o ∈ t.listed, y.2.owner? = some o := by
  induction t generalizing L with
  | nil => cases hy
  | block id is rest ih =>
    rcases mem_cons.mp hy with rfl | hy
    · exact .inl rfl
    · simp only [listed, mem_cons, or_and_right, exists_or]
      exact (ih hy).imp_right .inr
  | branch id t e join phis rest iht ihe ih =>
    simp only [places, mem_cons, mem_append] at hy
    simp only [listed, mem_cons, mem_append, or_and_right, exists_or, exists_eq_left]
    rcases hy with rfl | (hy | hy) | rfl | hy
    · exact .inl rfl
    · exact .inr ((iht hy).imp_right fun h => .inl (.inl h))
    · exact .inr ((ihe hy).imp_right fun h => .inl (.inr h))
    · exact .inr (.inl rfl)
    · exact (ih hy).imp_right fun h => .inr (.inr h)
  | loop id body join phis rest ihb ih =>
    simp only [places, mem_cons, mem_append] at hy
    simp only [listed, mem_cons, mem_append, or_and_right, exists_or, exists_eq_left]
    rcases hy with rfl | rfl | hy | hy
    · exact .inl rfl
    · exact .inr (.inl rfl)
    · exact .inr ((ihb hy).imp_right .inl)
    · exact (ih hy).imp_right fun h => .inr (.inr h)

end Tree

namespace Layout

/-- A node that has not changed still has what its place asks for, if what stands under it has kept
its place. -/
lemma Stands.congr {π' : Layout} (h : Stands spared π p n x)
    (hnode : p'.node? n = p.node? n) (hinsts : ∀ i ∈ p.blockInsts n, p'.inst? i = p.inst? i) (hlocals : p.KeepsLive p')
    (hunder : ∀ c y, π c = some y → y.owner? = some n → π' c = some y) : Stands spared π' p' n x := by
  have hblock : p'.blockInsts n = p.blockInsts n := Tree.blockInsts_congr hnode
  have hinside : p'.inside n = p.inside n := by rw [inside, inside, hnode]
  refine ⟨hnode ▸ h.live, hblock ▸ h.insts_nodup, fun i hi => ?_, hinside ▸ h.nodup, fun y hy => ?_⟩
  · rw [hblock] at hi
    obtain ⟨d, hd, hrec, hphi, hlive⟩ := h.listed i hi
    exact ⟨d, (hinsts i hi).trans hd, hrec, hphi, hlive.mono hlocals⟩
  · rw [hinside] at hy
    exact hunder y.1 y.2 (h.placed y hy) (owner_of_mem_inside hy)

lemma Fits.live_code (h : π.Fits spared p) (ht : t.Spans p) :
    ∀ i ∈ (t.code p).insts, p.LiveIn spared i.named := by
  intro i hi
  rw [insts_code ht.sound.phis, ← flatMap_blockInsts ht.sound.fits] at hi
  obtain ⟨d, hd, rfl⟩ := mem_map.mp hi
  obtain ⟨i, hi, hd⟩ := mem_filterMap.mp hd
  obtain ⟨n, hn, hi⟩ := mem_flatMap.mp hi
  obtain ⟨x, _, hx⟩ := h.place_of_mem ht.roots ht.sound.fits hn
  exact (h.stands n x hx).mentions hi hd

/-- A procedure whose tree has been rewritten has a layout if it had one and its code names live
locals only. -/
theorem Fits.rewritten (h : π.Fits spared p) (ht : t.Spans p)
    (hr : Rewrites .body t t' p p') (hlive : ∀ i ∈ (t'.code p').insts, p'.LiveIn spared i.named) :
    ∃ π' : Layout, π'.Fits spared p' := by
  -- what stands under a node that is not listed in the tree is not of the tree
  have hunder : ∀ n ∉ t.listed, ∀ c y, π c = some y → y.owner? = some n → c ∉ t.nodes := by
    intro n hn c y hc ho hmem
    obtain ⟨z, hz, hplace⟩ := h.place_of_mem ht.roots ht.sound.fits hmem
    cases hc.symm.trans hplace
    rcases Tree.owner_of_mem_places hz with hbody | ⟨o, hlisted, hz⟩
    · cases ho.symm.trans hbody
    · cases ho.symm.trans hz
      exact hn hlisted
  let base : Layout := fun n => if n ∈ t.nodes then none else π n
  have hbase : ∀ n x, base n = some x → n ∉ t.nodes ∧ π n = some x := by
    intro n x hx
    by_cases hn : n ∈ t.nodes
    · simp only [base, if_pos hn, reduceCtorEq] at hx
    · exact ⟨hn, by simpa only [base, if_neg hn] using hx⟩
  have hlt : ∀ n x, π n = some x → n.index < p.nodes.size := fun n x hx =>
    (h.stands n x hx).live.elim fun _ hnode => index_lt_of_node? hnode
  refine Tree.exists_layout_with base hr.list.spans hlive (fun n x hx hmem => ?_) fun π' hext => ?_
  · obtain ⟨hn, hx⟩ := hbase n x hx
    exact (hr.nodes n hmem).elim hn (Nat.not_le.mpr (hlt n x hx))
  · have hkept : ∀ n ∉ t.listed, ∀ c y, π c = some y → y.owner? = some n → π' c = some y := by
      intro n hn c y hc ho
      exact hext c y ((if_neg (hunder n hn c y hc ho)).trans hc)
    refine ⟨fun n x hx => ?_, fun b hb => ?_⟩
    · obtain ⟨hn, hx⟩ := hbase n x hx
      have hs := h.stands n x hx
      refine hs.congr (hr.edits.nodes n hn (hlt n x hx)) (fun i hi => ?_) hr.edits.locals
        (hkept n fun hmem => hn (Tree.mem_nodes_of_listed hmem))
      obtain ⟨d, hd, _⟩ := hs.recorded i hi
      exact hr.edits.insts i (h.not_mem_insts ht hx hn hi) (index_lt_of_inst? hd)
    · by_cases hblock : p'.isBlock b.1 = true
      · exact .inl hblock
      · obtain ⟨hjoin, hsame⟩ := (hr.joins b hb).resolve_left hblock
        have hlisted : b.1 ∉ t.listed := fun hmem =>
          (nodup_append'.mp (t.nodes_perm.nodup_iff.mp ht.sound.nodes_nodup)).2.2 hmem hjoin
        obtain ⟨y, _, hy⟩ := h.place_of_mem ht.roots ht.sound.fits (t.nodes_perm.mem_iff.mpr (mem_append_right _ hjoin))
        have hnil := blockInsts_of_not_isBlock hblock
        have hs : Stands spared π' p' b.1 y := by
          refine (h.stands b.1 y hy).congr hsame (fun i hi => ?_) hr.edits.locals (hkept b.1 hlisted)
          rw [blockInsts, ← hsame, ← blockInsts, hnil] at hi
          cases hi
        exact .inr fun id => { hs with listed := fun i hi => by cases hnil ▸ hi }

end Layout

namespace Procedure

/-- The conditions of the procedure read live locals, or spared ones. -/
def TestsIn (spared : LocalId → Prop) (p : Procedure) : Prop :=
  ∃ t : Tree, t.Spans p ∧ ∀ e ∈ (t.code p).conditions, p.LiveIn spared e.uses

/-- A layout fits a well-formed procedure, and the conditions of its parts are those of its code. -/
lemma exists_layout_tests (h : p.verify = .ok ())
    (htests : ∀ node ∈ p.parts, ∀ c ∈ node.condition?, p.LiveIn spared c.uses) :
    ∃ π : Layout, π.Fits spared p ∧ p.TestsIn spared := by
  obtain ⟨π, hfits⟩ := exists_layout h
  obtain ⟨t, ht⟩ := exists_tree_of_verify h
  refine ⟨π, hfits, t, ht, fun e he => ?_⟩
  rw [Tree.conditions_code ht.sound.fits] at he
  obtain ⟨n, hn, hcond⟩ := mem_filterMap.mp he
  obtain ⟨node, hnode, hcond⟩ := bind_eq_some_iff.mp hcond
  refine htests node (mem_filterMap.mpr ⟨n, ?_, hnode⟩) e hcond
  rw [nodesIn_body ht]
  exact Tree.mem_nodes_of_listed hn

lemma exists_frame (h : p.verify = .ok ()) : ∃ π : Layout, π.Fits (fun _ => True) p ∧ p.TestsIn fun _ => True :=
  exists_layout_tests h fun _ _ _ _ _ _ => .inl trivial

/-- A layout fits the procedure, its conditions read live locals, and its parameters are live. -/
structure Laid (spared : LocalId → Prop) (p : Procedure) : Prop where
  layout : ∃ π : Layout, π.Fits spared p ∧ p.TestsIn spared
  params : ∀ id ∈ p.params, (p.local? id).isSome

namespace Laid

lemma verify (h : p.Laid fun _ => False) : p.verify = .ok () := by
  obtain ⟨⟨π, hfits, _⟩, hparams⟩ := h
  exact hfits.verify hparams

lemma of_verify (h : p.verify = .ok ()) (htests : p.TestsLive) : p.Laid spared :=
  ⟨exists_layout_tests h htests.liveIn, params_live_of_verify h⟩

/-- A tree whose joins are all blocks and whose code names live locals only. -/
lemma of_tree (ht : t.Spans p) (hblocks : ∀ b ∈ t.joins, p.isBlock b.1 = true)
    (hlive : (t.code p).Live spared p) (hparams : ∀ id ∈ p.params, (p.local? id).isSome) : p.Laid spared := by
  obtain ⟨hinsts, hconds⟩ := Code.live_iff.mp hlive
  obtain ⟨π, hfits⟩ := Tree.exists_layout_with (fun _ => none) ht hinsts (fun n x hx => by cases hx)
    fun π _ => ⟨(fun n x hx => by cases hx), fun b hb => .inl (hblocks b hb)⟩
  exact ⟨⟨π, hfits, t, ht, hconds⟩, hparams⟩

lemma exists_live (h : p.Laid spared) : ∃ t : Tree, ListAt .body t p ∧ (t.code p).Live spared p := by
  obtain ⟨⟨π, hfits, t, ht, htests⟩, _⟩ := h
  exact ⟨t, ht.listAt, Code.live_iff.mpr ⟨hfits.live_code ht, htests⟩⟩

/-- A procedure whose tree has been rewritten is laid out again, if its code names live locals
only. -/
theorem rewritten (h : p.Laid spared) (ht : ListAt .body t p) (hr : Rewrites .body t t' p p')
    (hlive : (t'.code p').Live spared p') : p'.Laid spared := by
  obtain ⟨⟨π, hfits, _⟩, hparams⟩ := h
  obtain ⟨hinsts, hconds⟩ := Code.live_iff.mp hlive
  obtain ⟨π', hfits'⟩ := hfits.rewritten ht.spans hr hinsts
  refine ⟨⟨π', hfits', t', hr.list.spans, hconds⟩, fun id hid => hr.edits.locals id (hparams id ?_)⟩
  rw [← hr.edits.params]
  exact hid

end Laid

end Procedure

end ActorNet
