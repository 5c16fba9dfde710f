import ActorNet.Proc.Copy
import ActorNet.Proofs.Structure.Substitution

/-!
# Blocks outside of lists

A transformation may collect instructions in a new block that stands in no list, and move or copy
them into a list later (`Loose`). Making, filling and freeing such a block changes no list
(`Rewrites.outside`); moving its instructions to the end of a block of a list rewrites the list
(`Loose.moveTo`). Copies of instructions are new instructions at the end of a block
(`Emitted.copyInsts`).
-/

namespace ActorNet

open List Procedure Tree

variable {i : InstId} {is moved I ids : List InstId} {b s : NodeId} {t0 t t' d r : Tree} {u : Unit}
  {p q p' : Procedure} {L : NodeList} {N : List NodeId} {insts : List Inst}

section Arena

variable {α ι : Type} {index : ι → Nat} {f : α → α} {ids : List ι} (a : Arena α)

lemma Arena.get?_modifyEach [DecidableEq ι] (hindex : index.Injective) (hnodup : ids.Nodup)
    (j : ι) : (ids.foldl (fun a id => a.modify (index id) f) a).get? (index j) =
      if j ∈ ids then (a.get? (index j)).map f else a.get? (index j) := by
  induction ids generalizing a with
  | nil => rfl
  | cons i rest ih =>
    obtain ⟨hi, hnodup'⟩ := nodup_cons.mp hnodup
    rw [foldl_cons, ih _ hnodup', get?_modify]
    by_cases hj : j = i
    · rw [if_neg (hj ▸ hi), hj, if_pos rfl, if_pos mem_cons_self]
    · simp only [mem_cons, hj, false_or, if_neg fun heq => hj (hindex heq).symm]

lemma Arena.size_modifyEach : (ids.foldl (fun a id => a.modify (index id) f) a).size = a.size :=
  foldlRecOn (motive := fun b : Arena α => b.size = a.size) ids _ rfl fun _ hb _ _ => (Arena.size_modify _ _ _).trans hb

end Arena

namespace Procedure

lemma size_insts_recordBlock (block : NodeId) (ids : List InstId) :
    (p.recordBlock block ids).insts.size = p.insts.size :=
  p.insts.size_modifyEach

lemma yields_freeNode_block (hs : p.node? s = some (.block is)) (hy : Yields (freeNode s) p u p') :
    p' = { p with nodes := p.nodes.erase s.index }.eraseInsts is := by
  have hfree := yields_modify.mp hy
  rw [freeTo, hs] at hfree
  exact hfree

lemma yields_appendBlock (hne : b ≠ s) (hb : p.node? b = some (.block is)) (hs : p.node? s = some (.block moved))
    (hy : Yields (appendBlock b s) p u p') : p' = ((p.setBlock s []).recordBlock b moved).setBlock b (is ++ moved) := by
  unfold appendBlock at hy
  simp only [if_neg hne, yields_bind, yields_requireBlock, yields_modify] at hy
  obtain ⟨kept, q, ⟨hkept, rfl⟩, listed, q', ⟨hlisted, rfl⟩, hp'⟩ := hy
  cases hb.symm.trans hkept
  cases hs.symm.trans hlisted
  exact hp'

end Procedure

/-! ## Changes outside of a list -/

namespace Rewrites

lemma owner_lt (h : Rewrites L t t' p q) {o : NodeId} (ho : L.owner? = some o) : o.index < p.nodes.size := by
  obtain ⟨a, ha⟩ := h.list.around
  rw [h.around] at ha
  obtain ⟨node, hnode⟩ := owner_live ha o ho
  exact index_lt_of_node? hnode

/-- New nodes and instructions that stand outside of the list may change. -/
theorem outside (h : Rewrites L t t' p q) (he : Edits N I q p') (hbody : p'.body = q.body)
    (hN : ∀ n ∈ N, n ∉ t'.nodes ∧ p.nodes.size ≤ n.index)
    (hI : ∀ i ∈ I, i ∉ t'.insts ∧ p.insts.size ≤ i.index) : Rewrites L t t' p p' := by
  have hapart : t'.Apart N I := ⟨fun n hn hmem => (hN n hmem).1 hn, fun i hi hmem => (hI i hmem).1 hi⟩
  have howner : ∀ o, L.owner? = some o → p'.node? o = q.node? o := by
    intro o ho
    refine he.nodes o (fun hmem => ?_) (h.list.owner_lt ho)
    exact Nat.not_lt.mpr (hN o hmem).2 (h.owner_lt ho)
  have haround := around?_congr howner
  refine ⟨⟨h.nodes, h.insts, fun b hb => (h.joins b hb).congr (h.list.sound.join_congr he hapart hb)⟩,
    ⟨h.list.sound.edits he hapart, ?_, ?_, h.list.owner⟩, ?_, ?_, ?_⟩
  · rw [listNodes_congr hbody howner, h.list.nodes]
  · rw [haround]
    exact h.list.around
  · rw [haround, h.around]
  · exact h.body.imp_right fun hb => hbody.trans hb
  · exact h.edits.trans he (fun n hn => .inr (hN n hn).2) fun i hi => .inr (hI i hi).2

/-- A block of a list takes in new instructions that stood outside of the list. -/
lemma takeIn (h : Rewrites L t (d.thenBlock b is r) p q) (he : Edits [b] [] q p')
    (hbody : p'.body = q.body) (hb : p'.node? b = some (.block (is ++ moved)))
    (hnodup : moved.Nodup) (hmoved : ∀ i ∈ moved, i ∉ (d.thenBlock b is r).insts ∧
      p.insts.size ≤ i.index ∧ ∃ data, q.inst? i = some data ∧ data.block = b) :
    Rewrites L t (d.thenBlock b (is ++ moved) r) p p' ∧ d.Stays q p' ∧ r.Stays q p' := by
  obtain ⟨hd, hxr, hdapart⟩ := sound_append.mp h.list.sound
  obtain ⟨hx, hr, hxapart⟩ := sound_append.mp hxr
  obtain ⟨hdx, _⟩ := apart_append.mp hdapart
  obtain ⟨_, his, hrec⟩ := sound_block.mp hx
  have hnodes := h.nodes
  have hinsts := h.insts
  have hbowner := h.list.owner
  simp only [nodes_append, insts_append, insts_block, mem_append, not_or] at hnodes hinsts hmoved hbowner
  have hsame : ∀ i data, q.inst? i = some data → p'.inst? i = some data := by
    intro i data hdata
    rw [he.insts i not_mem_nil (index_lt_of_inst? hdata), hdata]
  have howner : ∀ o, L.owner? = some o → p'.node? o = q.node? o := fun o ho =>
    he.nodes o (hbowner o ho).2.1 (h.list.owner_lt ho)
  have hx' : (block b (is ++ moved) nil).Sound p' := by
    refine sound_block.mpr ⟨hb, nodup_append'.mpr ⟨his, hnodup, fun i hi hj => (hmoved i hj).1.2.1 hi⟩, fun i hi => ?_⟩
    have hdata : ∃ data, q.inst? i = some data ∧ data.block = b :=
      (mem_append.mp hi).elim (hrec i) fun hi => (hmoved i hi).2.2
    obtain ⟨data, hdata, hblock⟩ := hdata
    exact ⟨data, hsame i data hdata, hblock⟩
  refine h.exchange (he.mono (subset_append_right _ _) (nil_subset _)) hx' ⟨fun n hn => ?_,
    fun i hi => ?_, forall_mem_nil _⟩
    ⟨hdx.nodes, fun i hi hmem => ?_⟩ ⟨hxapart.nodes, fun i hi hmem => ?_⟩ (fun o ho => (hbowner o ho).2.1)
    (around?_congr howner) ?_ (.inr hbody)
  · exact hnodes n (.inr (.inl hn))
  · rw [insts_block, mem_append] at hi
    exact hi.elim (fun hi => hinsts i (.inr (.inl hi))) fun hi => .inr (hmoved i hi).2.1
  · rw [insts_block, mem_append] at hmem
    exact hmem.elim (fun hmem => hdx.insts i hi (by rwa [insts_block])) fun hmem => (hmoved i hmem).1.1 hi
  · rw [insts_block, mem_append] at hi
    exact hi.elim (fun hi => hxapart.insts i (by rwa [insts_block]) hmem) fun hi => (hmoved i hi).1.2.2 hmem
  · rw [listNodes_congr hbody howner, h.list.nodes, roots_append, roots_append]
    rfl

end Rewrites

/-! ## A block with instructions -/

/-- A block that stands in no list, with its instructions. It has been made since `p`. -/
structure Loose (p : Procedure) (t : Tree) (s : NodeId) (ids : List InstId) (insts : List Inst)
    (q : Procedure) : Prop where
  node : q.node? s = some (.block ids)
  fresh : p.nodes.size ≤ s.index
  apart : s ∉ t.nodes
  nodup : ids.Nodup
  data : ids.map q.inst? = insts.map fun inst => some { inst := inst, block := s }
  ids_fresh : ∀ i ∈ ids, p.insts.size ≤ i.index
  ids_apart : ∀ i ∈ ids, i ∉ t.insts

namespace Loose

section

variable (h : Loose p t s ids insts q)
include h

lemma exists_data (hi : i ∈ ids) : ∃ inst ∈ insts, q.inst? i = some { inst := inst, block := s } := by
  have hmem : q.inst? i ∈ insts.map fun inst => some { inst := inst, block := s } := h.data ▸ mem_map_of_mem hi
  obtain ⟨inst, hinst, heq⟩ := mem_map.mp hmem
  exact ⟨inst, hinst, heq.symm⟩

lemma lt (hi : i ∈ ids) : i.index < q.insts.size := by
  obtain ⟨inst, _, hinst⟩ := h.exists_data hi
  exact index_lt_of_inst? hinst

lemma outside : t.Apart [s] ids :=
  ⟨fun _ hn hmem => h.apart (mem_singleton.mp hmem ▸ hn), fun i hi hmem => h.ids_apart i hmem hi⟩

lemma rewrites (howner : ∀ o, L.owner? = some o → o.index < p.nodes.size)
    (hr : Rewrites L t t' q p') : Loose p t' s ids insts p' := by
  have hs := index_lt_of_node? h.node
  have hne : s ∉ L.owner?.toList ++ t.nodes := by
    rw [mem_append, not_or]
    refine ⟨fun hmem => ?_, h.apart⟩
    exact Nat.not_lt.mpr h.fresh (howner s (Option.mem_toList.mp hmem))
  refine ⟨?_, h.fresh, fun hmem => ?_, h.nodup, ?_, h.ids_fresh, fun i hi hmem => ?_⟩
  · rw [hr.edits.nodes s hne hs, h.node]
  · exact (hr.nodes s hmem).elim h.apart (Nat.not_le.mpr hs)
  · rw [← h.data]
    exact map_congr_left fun i hi => hr.edits.insts i (h.ids_apart i hi) (h.lt hi)
  · exact (hr.insts i hmem).elim (h.ids_apart i hi) (Nat.not_le.mpr (h.lt hi))

lemma subst (σ : Subst) : Loose (p.subst σ) t s ids (insts.map (Inst.subst σ)) (q.subst σ) where
  node := by
    rw [node?_subst, h.node]
    rfl
  fresh := by
    rw [size_nodes_subst]
    exact h.fresh
  apart := h.apart
  nodup := h.nodup
  data := by
    have hmap : ids.map (q.subst σ).inst? = (ids.map q.inst?).map (Option.map (InstData.subst σ)) := by
      rw [List.map_map]
      exact map_congr_left fun i _ => inst?_subst σ q i
    rw [hmap, h.data, List.map_map, List.map_map]
    rfl
  ids_fresh := by
    rw [size_insts_subst]
    exact h.ids_fresh
  ids_apart := h.ids_apart

lemma lines : ids.filterMap q.line? = insts.map fun inst => (inst, none) :=
  filterMap_line? (by rw [h.data, List.map_map]; rfl)

/-- Freeing the block with its instructions. -/
lemma free (hr : Rewrites L t0 t p q) (hy : Yields (freeNode s) q u p') :
    Rewrites L t0 t p p' ∧ (∀ u : Tree, u.Sound q → u.Apart [s] ids → u.Stays q p') ∧
      (∀ i, i ∉ ids → p'.inst? i = q.inst? i) ∧ p'.insts.size = q.insts.size ∧
      p'.locals = q.locals ∧ p'.returnTy = q.returnTy := by
  have hp := yields_freeNode_block h.node hy
  have hinst : ∀ i, p'.inst? i = if i ∈ ids then none else q.inst? i := by
    intro i
    rw [hp, inst?_eraseInsts]
    rfl
  have hsize : p'.insts.size = q.insts.size := by rw [hp, size_insts_eraseInsts]
  have hedits : Edits [s] ids q p' := by
    have herase : Edits [s] [] q { q with nodes := q.nodes.erase s.index } :=
      ⟨fun n hn _ => by rw [node?_erase, if_neg (mem_singleton.not.mp hn)], fun _ _ _ => rfl,
        Nat.le_of_eq (Arena.size_erase _ _).symm, Nat.le_refl _, rfl, rfl, .of_eq rfl, Nat.le_refl _⟩
    rw [hp]
    exact herase.append (Edits.eraseInsts _ ids)
  have hrw := hr.outside hedits (by rw [hp]; rfl)
    (fun n hn => mem_singleton.mp hn ▸ ⟨h.apart, h.fresh⟩) fun i hi => ⟨h.ids_apart i hi, h.ids_fresh i hi⟩
  refine ⟨hrw, fun u hu hapart => hu.stays hedits hapart, fun i hi => ?_, hsize, by rw [hp]; rfl, by rw [hp]; rfl⟩
  rw [hinst, if_neg hi]

end

/-- Moving the instructions to the end of a block of a list. -/
theorem moveTo (h : Loose p (d.thenBlock b is r) s ids insts q)
    (hr : Rewrites L t0 (d.thenBlock b is r) p q) (hy : Yields (appendBlock b s) q u p') :
    Rewrites L t0 (d.thenBlock b (is ++ ids) r) p p' ∧ d.Stays q p' ∧ r.Stays q p' ∧
        (block b (is ++ ids) nil).code p' = ((block b is nil).code q).append
      (Code.ofLines (insts.map fun inst => (inst, none))) ∧ Loose p (d.thenBlock b (is ++ ids) r) s
      [] [] p' ∧ (∀ i d, q.inst? i = some d → ∃ d', p'.inst? i = some d' ∧ d'.inst = d.inst) ∧
      p'.insts.size = q.insts.size ∧ p'.locals = q.locals ∧ p'.returnTy = q.returnTy := by
  obtain ⟨hb, _, hrec⟩ := hr.list.blockAt
  have hne : b ≠ s := by
    rintro rfl
    refine h.apart ?_
    rw [nodes_append, nodes_append]
    exact mem_append_right _ (mem_append_left _ mem_cons_self)
  have hp := yields_appendBlock hne hb h.node hy
  obtain ⟨hd, hxr, _⟩ := sound_append.mp hr.list.sound
  obtain ⟨_, hr', _⟩ := sound_append.mp hxr
  obtain ⟨hdapart, hxrapart⟩ := append_apart.mp h.outside
  -- first the instructions record the block, then the block takes them in
  have hinst : ∀ i, ((q.setBlock s []).recordBlock b ids).inst? i =
      if i ∈ ids then (q.inst? i).map fun d => { d with block := b } else q.inst? i := by
    intro i
    rw [inst?_recordBlock, inst?_setBlock]
  have hsize : ((q.setBlock s []).recordBlock b ids).insts.size = q.insts.size :=
    size_insts_recordBlock b ids
  have hedits1 : Edits [s] ids q ((q.setBlock s []).recordBlock b ids) :=
    (Edits.setBlock q s []).append (.of_insts (Nat.le_of_eq hsize.symm) fun i hi _ => (hinst i).trans (if_neg hi))
  have hrw1 := hr.outside hedits1 rfl (fun n hn => mem_singleton.mp hn ▸ ⟨h.apart, h.fresh⟩)
    fun i hi => ⟨h.ids_apart i hi, h.ids_fresh i hi⟩
  have hdata : ∀ i ∈ ids, ∃ inst ∈ insts,
    ((q.setBlock s []).recordBlock b ids).inst? i = some { inst := inst, block := b } := by
    intro i hi
    obtain ⟨inst, hmem, hq⟩ := h.exists_data hi
    refine ⟨inst, hmem, ?_⟩
    rw [hinst, if_pos hi, hq]
    rfl
  have hinst' : ∀ i, p'.inst? i = ((q.setBlock s []).recordBlock b ids).inst? i := by
    intro i
    rw [hp]
    rfl
  have hedits2 : Edits [b] [] ((q.setBlock s []).recordBlock b ids) p' := by
    rw [hp]
    exact Edits.setBlock _ b _
  have hb' : p'.node? b = some (.block (is ++ ids)) := by
    rw [hp, node?_setBlock, if_pos rfl]
    show ((q.setBlock s []).node? b).map _ = _
    rw [node?_setBlock, if_neg hne, hb, map_some]
  obtain ⟨hrw2, hd2, hr2⟩ := hrw1.takeIn hedits2 (by rw [hp]; rfl) hb' h.nodup fun i hi => by
    obtain ⟨inst, _, hq⟩ := hdata i hi
    exact ⟨h.ids_apart i hi, h.ids_fresh i hi, _, hq, rfl⟩
  have hd1 := hd.stays hedits1 hdapart
  have hr1 := hr'.stays hedits1 (append_apart.mp hxrapart).2
  refine ⟨hrw2, hd1.trans hd2, hr1.trans hr2, ?_, ?_, ?_, ?_, by rw [hp]; rfl, by rw [hp]; rfl⟩
  · have hlines : ∀ i, p'.line? i = q.line? i := by
      intro i
      rw [line?, line?, hinst', hinst]
      split
      · rw [Option.map_map]
        rfl
      · rfl
    rw [Rewrites.code_block, Rewrites.code_block, filterMap_append, Code.ofLines_append,
      filterMap_congr fun i _ => hlines i, filterMap_congr fun i _ => hlines i, h.lines]
  · refine ⟨?_, h.fresh, fun hmem => ?_, nodup_nil, rfl, forall_mem_nil _, forall_mem_nil _⟩
    · rw [hp, node?_setBlock, if_neg hne.symm]
      show (q.setBlock s []).node? s = _
      rw [node?_setBlock, if_pos rfl, h.node, map_some]
    · refine h.apart ?_
      simp only [nodes_append] at hmem ⊢
      exact hmem
  · intro i data hq
    rw [hinst', hinst, hq]
    split
    · exact ⟨_, rfl, rfl⟩
    · exact ⟨_, rfl, rfl⟩
  · rw [← hsize, hp]
    rfl

end Loose

/-! ## Copies -/

lemma setPartner_of_not_mem {α : Type} [DecidableEq α] {key value : α} {l : List (α × α)}
    (h : key ∉ l.map (·.1)) : setPartner key value l = l ++ [(key, value)] := by
  induction l with
  | nil => rfl
  | cons x rest ih =>
    obtain ⟨hx, hrest⟩ := not_or.mp (fun hor => h (mem_cons.mpr hor))
    rw [setPartner, if_neg (fun heq => hx heq.symm), ih hrest, cons_append]

/-- Copies of instructions at the end of a block. The induction is on the instructions that are
left. -/
theorem Emitted.copyInsts (seen : List (InstId × InstId)) (hb : p.node? b = some (.block is)) (hnodup : ids.Nodup)
    (hseen : ∀ i ∈ ids, i ∉ seen.map (·.1)) (hlive : ∀ i ∈ ids, ∃ data, p.inst? i = some data) :
    ∃ new p', Yields (copyInsts b seen ids) p (seen ++ ids.zip new) p' ∧
      new = (range' p.insts.size ids.length).map InstId.mk ∧ p'.insts.size = p.insts.size + ids.length ∧
      Emitted b is [] new (ids.filterMap p.line?) p p' ∧ p' = { p with nodes := p'.nodes, insts := p'.insts } := by
  induction ids generalizing p is seen with
  | nil => exact ⟨[], p, yields_pure.mpr ⟨List.append_nil _, rfl⟩, rfl, rfl, .refl (by rwa [List.append_nil]), rfl⟩
  | cons i rest ih =>
    obtain ⟨data, hdata⟩ := hlive i mem_cons_self
    obtain ⟨hi, hnodup'⟩ := nodup_cons.mp hnodup
    have hb' : p.node? b = some (.block (is ++ [])) := by rwa [List.append_nil]
    have hfirst : Emitted b is [] [⟨p.insts.size⟩] [(data.inst, data.predicate)] p _ := .single hb' rfl
    have hb1 := hfirst.block
    rw [List.append_nil] at hb1
    obtain ⟨new, p', hy, hnew, hsize, hrest, hp'⟩ := ih (seen ++ [(i, ⟨p.insts.size⟩)]) hb1 hnodup' (by
        intro j hj
        rw [map_append, mem_append, not_or]
        refine ⟨hseen j (mem_cons_of_mem i hj), fun hmem => hi ?_⟩
        exact (mem_singleton.mp hmem : j = i) ▸ hj) fun j hj => by
      obtain ⟨data, hdata⟩ := hlive j (mem_cons_of_mem i hj)
      exact ⟨data, (hfirst.insts j (index_lt_of_inst? hdata)).trans hdata⟩
    have hlines : rest.filterMap _ = rest.filterMap p.line? := filterMap_congr fun j hj => by
      obtain ⟨data, hdata⟩ := hlive j (mem_cons_of_mem i hj)
      exact line?_congr (hfirst.insts j (index_lt_of_inst? hdata))
    rw [hlines] at hrest
    have hsize1 : (p.insts.push ⟨data.inst, b, data.predicate⟩).size = p.insts.size + 1 := Arena.size_push _ _
    refine ⟨⟨p.insts.size⟩ :: new, p', ?_, ?_, ?_, ?_, hp'⟩
    · rw [Procedure.copyInsts, yields_get_bind, hdata]
      simp only [yields_bind, yields_appendInst, yields_setPredicate]
      refine ⟨_, _, ⟨is, hb, rfl, rfl⟩, (), _, rfl, ?_⟩
      rw [setPartner_of_not_mem (hseen i mem_cons_self)]
      rw [List.append_assoc] at hy
      simpa only [setBlock, Arena.modify_push, zip_cons_cons, singleton_append] using hy
    · rw [hnew, length_cons, range'_succ, map_cons]
      exact congrArg (fun k => _ :: (range' k rest.length).map InstId.mk) hsize1
    · rw [hsize, length_cons]
      exact (congrArg (· + rest.length) hsize1).trans (by omega)
    · rw [filterMap_cons, line?, hdata]
      exact hfirst.trans hrest

/-- New instructions that are changed where they stand. -/
lemma Emitted.modifyEach {new pre post : List InstId} {added : List (Inst × Option Expr)} {f : Inst → Inst}
    (h : Emitted b pre post new added p q) (hp : p' = { q with insts := new.foldl (fun insts id =>
      insts.modify id.index fun data => { data with inst := f data.inst }) q.insts }) :
    Emitted b pre post new (added.map fun line => (f line.1, line.2)) p p' := by
  have hinst : ∀ j, p'.inst? j =
    if j ∈ new then (q.inst? j).map (fun d => { d with inst := f d.inst }) else q.inst? j := by
    intro j
    rw [hp]
    exact q.insts.get?_modifyEach (fun _ _ => InstId.index_inj.mp) h.nodup j
  have hsize : p'.insts.size = q.insts.size := by
    rw [hp]
    exact q.insts.size_modifyEach
  refine ⟨⟨fun j hj => ?_, hsize ▸ h.insts_size, ?_, ?_, ?_, ?_⟩, ?_, ?_, ?_, h.fresh, h.nodup, ?_, ?_⟩
  · rw [hinst, if_neg fun hmem => Nat.not_lt.mpr (h.fresh j hmem) hj, h.insts j hj]
  · rw [hp]
    exact h.locals
  · rw [hp]
    exact h.locals_size
  · rw [hp]
    exact h.returnTy
  · rw [hp]
    exact h.temps
  · rw [hp]
    exact h.block
  · rw [hp]
    exact h.nodes
  · rw [hp]
    exact h.nodes_size
  · rw [map_congr_left fun j hj => (hinst j).trans (if_pos hj)]
    have hmap := congrArg (List.map (Option.map fun d => { d with inst := f d.inst })) h.data
    rw [List.map_map, List.map_map] at hmap
    rw [List.map_map]
    exact hmap
  · rw [hp, h.rest]

end ActorNet
