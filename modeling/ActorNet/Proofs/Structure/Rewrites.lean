import ActorNet.Proofs.Structure.Edits
import ActorNet.Proofs.Structure.Verified

/-!
# Rewriting a list in place

A transformation walks through the node lists of a procedure and changes them in place. `ListAt L t
p` says that the list `L` of `p` holds the tree `t`; `Rewrites L t t' p p'` says that afterwards it
holds the tree `t'`, and that nothing outside of the tree has changed. Rewriting a part of a list
rewrites the list (`Rewrites.replace`), so does rewriting a list inside one of its nodes.

Most transformations put new instructions at a place of a block. `Emitted` says what is there
afterwards, and that such steps can follow each other; in a block of a list they rewrite the list
(`Rewrites.emitted`).
-/

namespace ActorNet

open Arena List Procedure Tree

variable {inserted : Bool} {inst : Inst} {i : InstId} {is I I' : List InstId} {b n : NodeId}
  {p q p' p'' p1 p2 : Procedure} {t t' t'' u d x r x' : Tree} {N N' : List NodeId} {L : NodeList}

/-- Everything is as before but the given nodes and instructions, and new ones. -/
structure Edits (N : List NodeId) (I : List InstId) (p p' : Procedure) : Prop where
  nodes : ∀ n, n ∉ N → n.index < p.nodes.size → p'.node? n = p.node? n
  insts : ∀ i, i ∉ I → i.index < p.insts.size → p'.inst? i = p.inst? i
  nodes_size : p.nodes.size ≤ p'.nodes.size
  insts_size : p.insts.size ≤ p'.insts.size
  params : p'.params = p.params
  native : p'.native = p.native
  locals : p.KeepsLive p'
  temps : p.BoundsTemps p'

namespace Edits

lemma refl (N : List NodeId) (I : List InstId) (p : Procedure) : Edits N I p p :=
  ⟨fun _ _ _ => rfl, fun _ _ _ => rfl, Nat.le_refl _, Nat.le_refl _, rfl, rfl, fun _ hid => hid, Nat.le_refl _⟩

lemma mono (h : Edits N I p p') (hN : N ⊆ N') (hI : I ⊆ I') : Edits N' I' p p' :=
  { h with
    nodes := fun n hn => h.nodes n fun hmem => hn (hN hmem)
    insts := fun i hi => h.insts i fun hmem => hi (hI hmem) }

lemma trans (h : Edits N I p p') (h' : Edits N' I' p' p'')
    (hN : ∀ n ∈ N', n ∈ N ∨ p.nodes.size ≤ n.index)
    (hI : ∀ i ∈ I', i ∈ I ∨ p.insts.size ≤ i.index) : Edits N I p p'' where
  nodes := by
    intro n hn hlt
    have hn' : n ∉ N' := fun hmem => (hN n hmem).elim hn (Nat.not_le.mpr hlt)
    rw [h'.nodes n hn' (Nat.lt_of_lt_of_le hlt h.nodes_size), h.nodes n hn hlt]
  insts := by
    intro i hi hlt
    have hi' : i ∉ I' := fun hmem => (hI i hmem).elim hi (Nat.not_le.mpr hlt)
    rw [h'.insts i hi' (Nat.lt_of_lt_of_le hlt h.insts_size), h.insts i hi hlt]
  nodes_size := Nat.le_trans h.nodes_size h'.nodes_size
  insts_size := Nat.le_trans h.insts_size h'.insts_size
  params := h'.params.trans h.params
  native := h'.native.trans h.native
  locals := fun id hid => h'.locals id (h.locals id hid)
  temps := h.temps.trans h'.temps

lemma append (h : Edits N I p p') (h' : Edits N' I' p' p'') : Edits (N ++ N') (I ++ I') p p'' :=
  (h.mono (subset_append_left N N') (subset_append_left I I')).trans h' (fun _ hn => .inl (mem_append_right N hn))
    fun _ hi => .inl (mem_append_right I hi)

lemma setBlock (p : Procedure) (b : NodeId) (is : List InstId) : Edits [b] [] p (p.setBlock b is) :=
  ⟨fun n hn _ => by rw [node?_setBlock, if_neg (mem_singleton.not.mp hn)], fun _ _ _ => rfl,
    Nat.le_of_eq (size_nodes_setBlock b is).symm, Nat.le_refl _, rfl, rfl, .of_eq rfl, Nat.le_refl _⟩

lemma of_insts {insts : Arena InstData} (hsize : p.insts.size ≤ insts.size)
    (h : ∀ i, i ∉ I → i.index < p.insts.size → { p with insts := insts }.inst? i = p.inst? i) :
    Edits [] I p { p with insts := insts } :=
  ⟨fun _ _ _ => rfl, h, Nat.le_refl _, hsize, rfl, rfl, .of_eq rfl, Nat.le_refl _⟩

lemma pushInst (p : Procedure) (data : InstData) : Edits [] [] p { p with insts := p.insts.push data } := by
  refine of_insts (by rw [size_push]; exact Nat.le_succ _) fun i _ hi => ?_
  rw [inst?_push, if_neg]
  rintro rfl
  exact Nat.lt_irrefl _ hi

lemma modifyInst (p : Procedure) (i : InstId) (f : InstData → InstData) :
    Edits [] [i] p { p with insts := p.insts.modify i.index f } :=
  of_insts (Nat.le_of_eq (size_modify _ _ _).symm) fun j hj _ => by
    rw [inst?_modify, if_neg (mem_singleton.not.mp hj)]

lemma eraseInsts (p : Procedure) (is : List InstId) : Edits [] is p (p.eraseInsts is) :=
  of_insts (Nat.le_of_eq (size_insts_eraseInsts is).symm) fun i hi _ =>
    (inst?_eraseInsts is i).trans (if_neg hi)

end Edits

/-! ## New instructions and locals -/

/-- Instructions and locals are as before, but for new ones. -/
structure Procedure.Extends (p p' : Procedure) : Prop where
  insts : ∀ i, i.index < p.insts.size → p'.inst? i = p.inst? i
  insts_size : p.insts.size ≤ p'.insts.size
  locals : ∀ x v, p.local? x = some v → p'.local? x = some v
  locals_size : p.locals.size ≤ p'.locals.size
  returnTy : p'.returnTy = p.returnTy
  temps : p.BoundsTemps p'

namespace Procedure.Extends

lemma keepsLive (h : p.Extends p') : p.KeepsLive p' := .of_locals h.locals

lemma trans (h : p.Extends q) (h' : q.Extends p') : p.Extends p' where
  insts := fun i hi => (h'.insts i (Nat.lt_of_lt_of_le hi h.insts_size)).trans (h.insts i hi)
  insts_size := Nat.le_trans h.insts_size h'.insts_size
  locals := fun x v hv => h'.locals x v (h.locals x v hv)
  locals_size := Nat.le_trans h.locals_size h'.locals_size
  returnTy := h'.returnTy.trans h.returnTy
  temps := h.temps.trans h'.temps

lemma of_nodes (h : p' = { p with nodes := p'.nodes, body := p'.body }) : p.Extends p' := by
  rw [h]
  exact ⟨fun _ _ => rfl, Nat.le_refl _, fun _ _ hv => hv, Nat.le_refl _, rfl, Nat.le_refl _⟩

lemma refl (p : Procedure) : p.Extends p := of_nodes rfl

lemma of_newTemp {ty : Ty} {hint : String} {x : LocalId} (hy : Yields (newTemp ty hint) p x p') :
    p.Extends p' ∧ x = ⟨p.locals.size⟩ ∧ p'.locals.size = p.locals.size + 1 ∧ ∃ v, p'.local? x = some v ∧ v.ty = ty := by
  obtain ⟨rfl, hp'⟩ := yields_newTemp.mp hy
  have hlocals : p'.locals = p.locals.push { name := tempName hint (p.freeTemp hint), ty := ty } := by rw [hp']
  have hsize : p'.locals.size = p.locals.size + 1 := by rw [hlocals, size_push]
  refine ⟨⟨fun i _ => ?_, ?_, fun x v hv => ?_, ?_, ?_, .of_newTemp hy⟩, rfl, hsize,
    { name := tempName hint (p.freeTemp hint), ty := ty }, ?_, rfl⟩
  · rw [hp']
    rfl
  · exact Nat.le_of_eq (by rw [hp'])
  · rw [local?, hlocals, get?_push, if_neg]
    · exact hv
    · exact Nat.ne_of_lt (lt_size_of_get? hv)
  · rw [hsize]
    exact Nat.le_succ _
  · rw [hp']
  · rw [local?, hlocals, get?_push, if_pos rfl]

lemma of_insertion {data : InstData} (h : p' = { p with insts := p.insts.push data }.setBlock b is) : p.Extends p' := by
  subst h
  have hpush := Edits.pushInst p data
  exact ⟨fun i hi => hpush.insts i not_mem_nil hi, hpush.insts_size, fun _ _ hv => hv, Nat.le_refl _, rfl, Nat.le_refl _⟩

lemma of_appendInst {inst : Inst} (hy : Yields (appendInst b inst) p i p') : p.Extends p' ∧
    i = ⟨p.insts.size⟩ ∧ p'.inst? i = some { inst := inst, block := b } ∧ p'.locals = p.locals := by
  obtain ⟨is, _, rfl, hp'⟩ := yields_appendInst.mp hy
  refine ⟨of_insertion hp', rfl, ?_, by rw [hp']; rfl⟩
  rw [hp', inst?_setBlock, inst?_push, if_pos rfl]

end Procedure.Extends

/-! ## Instructions at a place -/

/-- Lines stand between two parts of the instructions of a block where nothing stood. There may be
new locals; nothing else has changed. -/
structure Emitted (b : NodeId) (pre post new : List InstId) (added : List (Inst × Option Expr))
    (p p' : Procedure) : Prop extends p.Extends p' where
  block : p'.node? b = some (.block (pre ++ new ++ post))
  nodes : ∀ n, n ≠ b → p'.node? n = p.node? n
  nodes_size : p'.nodes.size = p.nodes.size
  fresh : ∀ i ∈ new, p.insts.size ≤ i.index
  nodup : new.Nodup
  data : new.map p'.inst? = added.map fun line => some ⟨line.1, b, line.2⟩
  rest : p' = { p with nodes := p'.nodes, insts := p'.insts, locals := p'.locals, nextTemp := p'.nextTemp }

lemma Procedure.filterMap_line? {ids : List InstId} {lines : List (Inst × Option Expr)}
    (h : ids.map p.inst? = lines.map fun line => some ⟨line.1, b, line.2⟩) : ids.filterMap p.line? = lines := by
  have hline : ids.filterMap p.line? = (ids.map p.inst?).filterMap (Option.map fun d => (d.inst, d.predicate)) := by
    rw [filterMap_map]
    rfl
  rw [hline, h, filterMap_map]
  exact filterMap_some

namespace Emitted

variable {new new' pre post : List InstId} {added added' : List (Inst × Option Expr)} {line : Inst × Option Expr}

lemma exists_data (h : Emitted b pre post new added p p') (hi : i ∈ new) :
    ∃ line : Inst × Option Expr, p'.inst? i = some ⟨line.1, b, line.2⟩ := by
  have hmem : p'.inst? i ∈ added.map fun line => some ⟨line.1, b, line.2⟩ := h.data ▸ mem_map_of_mem hi
  obtain ⟨line, _, hline⟩ := mem_map.mp hmem
  exact ⟨line, hline.symm⟩

lemma lt_of_mem (h : Emitted b pre post new added p p') (hi : i ∈ new) : i.index < p'.insts.size := by
  obtain ⟨line, hline⟩ := h.exists_data hi
  exact index_lt_of_inst? hline

lemma lines (h : Emitted b pre post new added p p') : new.filterMap p'.line? = added := filterMap_line? h.data

lemma refl (hb : p.node? b = some (.block (pre ++ post))) : Emitted b pre post [] [] p p where
  toExtends := .refl p
  block := by
    rw [List.append_nil]
    exact hb
  nodes := fun _ _ => rfl
  nodes_size := rfl
  fresh := forall_mem_nil _
  nodup := nodup_nil
  data := rfl
  rest := rfl

lemma trans {q : Procedure} (h : Emitted b pre post new added p q) (h' : Emitted b (pre ++ new) post new' added' q p') :
    Emitted b pre post (new ++ new') (added ++ added') p p' where
  toExtends := h.toExtends.trans h'.toExtends
  block := by rw [h'.block, List.append_assoc pre]
  nodes := fun n hn => (h'.nodes n hn).trans (h.nodes n hn)
  nodes_size := h'.nodes_size.trans h.nodes_size
  fresh := by
    intro i hi
    rcases mem_append.mp hi with hi | hi
    · exact h.fresh i hi
    · exact Nat.le_trans h.insts_size (h'.fresh i hi)
  nodup := by
    refine nodup_append.mpr ⟨h.nodup, h'.nodup, fun i hi j hj hij => ?_⟩
    subst hij
    exact absurd (h.lt_of_mem hi) (Nat.not_lt.mpr (h'.fresh i hj))
  data := by
    rw [map_append, map_append, h'.data, ← h.data]
    exact congrArg (· ++ _) (map_congr_left fun i hi => h'.insts i (h.lt_of_mem hi))
  rest := by rw [h'.rest, h.rest]

lemma single (hb : p.node? b = some (.block (pre ++ post)))
    (hp : p' = { p with insts := p.insts.push ⟨line.1, b, line.2⟩ }.setBlock b (pre ++ InstId.mk p.insts.size :: post)) :
    Emitted b pre post [⟨p.insts.size⟩] [line] p p' where
  toExtends := .of_insertion hp
  block := by
    rw [hp, node?_setBlock, if_pos rfl, List.append_assoc, singleton_append]
    show (p.node? b).map _ = _
    rw [hb, map_some]
  nodes := fun n hn => by
    rw [hp, node?_setBlock, if_neg hn]
    rfl
  nodes_size := by rw [hp, size_nodes_setBlock]
  fresh := fun i hi => Nat.le_of_eq (congrArg InstId.index (mem_singleton.mp hi)).symm
  nodup := nodup_singleton _
  data := by rw [map_singleton, map_singleton, hp, inst?_setBlock, inst?_push, if_pos rfl]
  rest := by
    rw [hp]
    rfl

end Emitted

namespace Tree

lemma Held.node_lt (h : t.Held p) (hn : n ∈ t.nodes) : n.index < p.nodes.size := by
  obtain ⟨node, hnode⟩ := h.live n hn
  exact index_lt_of_node? hnode

lemma Held.exists_inst (h : t.Held p) (hi : i ∈ t.insts) : ∃ d, p.inst? i = some d := by
  obtain ⟨b, hb, hib⟩ := mem_insts_iff.mp hi
  exact (h.recorded b hb i hib).imp fun _ hd => hd.1

lemma Held.inst_lt (h : t.Held p) (hi : i ∈ t.insts) : i.index < p.insts.size := by
  obtain ⟨d, hd⟩ := h.exists_inst hi
  exact index_lt_of_inst? hd

/-- A tree names none of the given nodes and instructions. -/
@[mk_iff] structure Apart (t : Tree) (N : List NodeId) (I : List InstId) : Prop where
  nodes : ∀ n ∈ t.nodes, n ∉ N
  insts : ∀ i ∈ t.insts, i ∉ I

lemma Sound.edits (h : t.Sound p) (he : Edits N I p p') (hapart : t.Apart N I) : t.Sound p' :=
  h.congr (fun n hn => he.nodes n (hapart.nodes n hn) (h.node_lt hn))
    fun i hi => he.insts i (hapart.insts i hi) (h.inst_lt hi)

/-- A tree is as before: it has the same code and the same instructions. -/
structure Stays (t : Tree) (p p' : Procedure) : Prop where
  code : t.code p' = t.code p
  insts : ∀ i ∈ t.insts, p'.inst? i = p.inst? i

lemma Stays.refl (t : Tree) (p : Procedure) : t.Stays p p := ⟨rfl, fun _ _ => rfl⟩

lemma Stays.trans (h : t.Stays p p') (h' : t.Stays p' p'') : t.Stays p p'' :=
  ⟨h'.code.trans h.code, fun i hi => (h'.insts i hi).trans (h.insts i hi)⟩

lemma Held.stays {t : Tree} (h : t.Held p) (he : Edits N I p p') (hapart : t.Apart N I) : t.Stays p p' := by
  have hinsts : ∀ i ∈ t.insts, p'.inst? i = p.inst? i := fun i hi => he.insts i (hapart.insts i hi) (h.inst_lt hi)
  exact ⟨code_congr (fun n hn => he.nodes n (hapart.nodes n hn) (h.node_lt hn)) hinsts, hinsts⟩

lemma Held.join_congr (h : t.Held p) (he : Edits N I p p') (hapart : t.Apart N I)
    {b : NodeId × List InstId} (hb : b ∈ t.joins) : p'.node? b.1 = p.node? b.1 :=
  he.nodes b.1 (hapart.nodes b.1 (join_mem_nodes hb)) (h.node_lt (join_mem_nodes hb))

/-! ## Parts of sound trees -/

lemma sound_append : (t.append u).Sound p ↔ t.Sound p ∧ u.Sound p ∧ t.Apart u.nodes u.insts := by
  simp only [sound_iff, held_append, nodes_append, insts_append, nodup_append', List.Disjoint, apart_iff]
  tauto

lemma Apart.symm (h : t.Apart u.nodes u.insts) : u.Apart t.nodes t.insts :=
  ⟨fun n hn hmem => h.nodes n hmem hn, fun i hi hmem => h.insts i hmem hi⟩

lemma append_apart : (t.append u).Apart N I ↔ t.Apart N I ∧ u.Apart N I := by
  simp only [apart_iff, nodes_append, insts_append, forall_mem_append]
  tauto

lemma apart_append {v : Tree} : t.Apart (u.append v).nodes (u.append v).insts ↔
    t.Apart u.nodes u.insts ∧ t.Apart v.nodes v.insts := by
  simp only [apart_iff, nodes_append, insts_append, mem_append, not_or]
  exact ⟨fun h => ⟨⟨fun n hn => (h.1 n hn).1, fun i hi => (h.2 i hi).1⟩, fun n hn => (h.1 n hn).2, fun i hi =>
    (h.2 i hi).2⟩, fun h => ⟨fun n hn => ⟨h.1.1 n hn, h.2.1 n hn⟩, fun i hi => ⟨h.1.2 i hi, h.2.2 i hi⟩⟩⟩

/-- A join is a block, or it is a join of the tree and its node is the one that it was. -/
def KeptJoin (t : Tree) (p p' : Procedure) (j : NodeId) : Prop :=
  p'.isBlock j = true ∨ j ∈ t.joins.map Prod.fst ∧ p'.node? j = p.node? j

/-- A tree is made of what another one names and of new nodes and instructions. Its joins are blocks
or joins of the other one that have not changed. -/
structure Stems (t' t : Tree) (p p' : Procedure) : Prop where
  nodes : ∀ n ∈ t'.nodes, n ∈ t.nodes ∨ p.nodes.size ≤ n.index
  insts : ∀ i ∈ t'.insts, i ∈ t.insts ∨ p.insts.size ≤ i.index
  joins : ∀ b ∈ t'.joins, t.KeptJoin p p' b.1

lemma Stems.refl (t : Tree) (p : Procedure) : t.Stems t p p :=
  ⟨fun _ hn => .inl hn, fun _ hi => .inl hi, fun _ hb => .inr ⟨mem_map_of_mem hb, rfl⟩⟩

lemma KeptJoin.congr {j : NodeId} (h : t.KeptJoin p p' j) (hj : p''.node? j = p'.node? j) : t.KeptJoin p p'' j := by
  refine h.imp (fun hblock => ?_) fun hkept => ⟨hkept.1, hj.trans hkept.2⟩
  rw [isBlock, hj]
  exact hblock

lemma Stems.trans (h : t'.Stems t p p') (h' : t''.Stems t' p' p'') (he : Edits N I p p') : t''.Stems t p p'' where
  nodes := fun n hn => (h'.nodes n hn).elim (h.nodes n) fun hn => .inr (Nat.le_trans he.nodes_size hn)
  insts := fun i hi => (h'.insts i hi).elim (h.insts i) fun hi => .inr (Nat.le_trans he.insts_size hi)
  joins := by
    intro b hb
    rcases h'.joins b hb with hblock | ⟨hmem, hsame⟩
    · exact .inl hblock
    · obtain ⟨c, hc, hcb⟩ := mem_map.mp hmem
      exact hcb ▸ (h.joins c hc).congr (hcb ▸ hsame)

lemma Stems.apart (h : t'.Stems t p p') (hu : u.Held p) (hapart : t.Apart u.nodes u.insts) :
    t'.Apart u.nodes u.insts where
  nodes := fun n hn hmem => (h.nodes n hn).elim (hapart.nodes n · hmem) (Nat.not_le.mpr (hu.node_lt hmem))
  insts := fun i hi hmem => (h.insts i hi).elim (hapart.insts i · hmem) (Nat.not_le.mpr (hu.inst_lt hmem))

lemma sound_nil : nil.Sound p := by
  refine ⟨⟨trivial, ?_, ?_, ?_⟩, nodup_nil, nodup_nil⟩ <;> simp [nodes, blocks, joins]

lemma insts_block (id : NodeId) (is : List InstId) : (block id is nil).insts = is := by
  rw [insts, insts, List.append_nil]

lemma sound_block {id : NodeId} {insts : List InstId} : (block id insts nil).Sound p ↔ p.node? id =
    some (.block insts) ∧ insts.Nodup ∧ ∀ i ∈ insts, ∃ d, p.inst? i = some d ∧ d.block = id := by
  simp only [sound_iff, held_iff, insts_block, Fits, nodes, blocks, joins, mem_singleton, forall_eq,
    nodup_singleton, not_mem_nil, false_implies, implies_true, and_true, true_and]
  exact ⟨fun h => ⟨h.1.1, h.2, h.1.2.2⟩, fun h => ⟨⟨h.1, ⟨_, h.1⟩, h.2.2⟩, h.2.1⟩⟩

lemma exists_last (h : t.roots.getLast? = some n) : ∃ d x : Tree, t = d.append x ∧ x.roots = [n] := by
  -- `first` is the first node of the list, `rest` what follows it
  have hstep : ∀ (first rest : Tree) (id : NodeId), first.roots = [id] →
      (rest.roots.getLast? = some n → ∃ d x : Tree, rest = d.append x ∧ x.roots = [n]) →
      (id :: rest.roots).getLast? = some n → ∃ d x : Tree, first.append rest = d.append x ∧ x.roots = [n] := by
    intro first rest id hfirst ih hlast
    cases hr : rest.roots with
    | nil =>
      rw [hr] at hlast
      simp only [getLast?_singleton, Option.some.injEq] at hlast
      refine ⟨nil, first.append rest, rfl, ?_⟩
      rw [roots_append, hfirst, hr, hlast, List.append_nil]
    | cons m ms =>
      have hlast' : rest.roots.getLast? = some n := by
        rw [hr] at hlast ⊢
        rw [getLast?_cons_cons] at hlast
        exact hlast
      obtain ⟨d, x, hrest, hx⟩ := ih hlast'
      exact ⟨first.append d, x, by rw [append_assoc, ← hrest], hx⟩
  induction t with
  | nil => cases h
  | block id insts rest ih => exact hstep (block id insts nil) rest id rfl ih h
  | branch id t e join phis rest _ _ ih => exact hstep (branch id t e join phis nil) rest id rfl ih h
  | loop id body join phis rest _ ih => exact hstep (loop id body join phis nil) rest id rfl ih h

end Tree

/-- A list of a procedure holds a tree. -/
structure ListAt (L : NodeList) (t : Tree) (p : Procedure) : Prop where
  sound : t.Sound p
  nodes : p.listNodes L = t.roots
  around : ∃ a, p.around? L = some a
  owner : ∀ o, L.owner? = some o → o ∉ t.nodes

lemma Tree.Spans.listAt (h : t.Spans p) : ListAt .body t p := ⟨h.sound, h.roots.symm, ⟨none, rfl⟩, nofun⟩

namespace ListAt

lemma spans (h : ListAt .body t p) : t.Spans p := ⟨h.nodes.symm, h.sound⟩

lemma owner_lt (h : ListAt L t p) {o : NodeId} (ho : L.owner? = some o) : o.index < p.nodes.size := by
  obtain ⟨a, ha⟩ := h.around
  obtain ⟨node, hnode⟩ := owner_live ha o ho
  exact index_lt_of_node? hnode

lemma part (h : ListAt L (d.append (x.append r)) p) : x.Sound p :=
  (sound_append.mp (sound_append.mp h.sound).2.1).1

lemma blockAt (h : ListAt L (d.thenBlock b is r) p) : p.node? b = some (.block is) ∧
    is.Nodup ∧ ∀ i ∈ is, ∃ data, p.inst? i = some data ∧ data.block = b :=
  sound_block.mp h.part

lemma index_lt (h : ListAt L (d.thenBlock b is r) p) : ∀ i ∈ is, i.index < p.insts.size := by
  intro i hi
  obtain ⟨data, hdata, _⟩ := h.blockAt.2.2 i hi
  exact index_lt_of_inst? hdata

lemma not_mem_before {i : InstId} {pre post : List InstId}
    (h : ListAt L (d.thenBlock b (pre ++ i :: post) r) p) : i ∉ pre :=
  fun hmem => (nodup_cons.mp (nodup_middle.mp h.blockAt.2.1)).1 (mem_append_left _ hmem)

end ListAt

/-- A list that held a tree holds another one afterwards, and nothing outside of the tree has
changed. -/
structure Rewrites (L : NodeList) (t t' : Tree) (p p' : Procedure) : Prop extends t'.Stems t p p' where
  list : ListAt L t' p'
  around : p'.around? L = p.around? L
  body : L = .body ∨ p'.body = p.body
  edits : Edits (L.owner?.toList ++ t.nodes) t.insts p p'

namespace Rewrites

open Tree

lemma refl (h : ListAt L t p) : Rewrites L t t p p :=
  ⟨.refl t p, h, rfl, .inr rfl, Edits.refl _ _ _⟩

lemma trans (h : Rewrites L t t' p p') (h' : Rewrites L t' t'' p' p'') : Rewrites L t t'' p p'' where
  toStems := h.toStems.trans h'.toStems h.edits
  list := h'.list
  around := h'.around.trans h.around
  body := by
    rcases h.body with hb | hb
    · exact .inl hb
    · exact h'.body.imp_right fun hb' => hb'.trans hb
  edits := by
    refine h.edits.trans h'.edits ?_ ?_
    · intro n hn
      rcases mem_append.mp hn with hn | hn
      · exact .inl (mem_append_left _ hn)
      · exact (h.nodes n hn).imp_left (mem_append_right _)
    · exact fun i hi => h.insts i hi

/-- After a list has been rewritten, a part of it is exchanged; what stands before and after the
part stays as it is. -/
lemma exchange (h : Rewrites L t (d.append (x.append r)) p p') (he : Edits (L.owner?.toList ++ x.nodes) x.insts p' p'')
    (hx : x'.Sound p'') (hstems : x'.Stems t p p'') (hdx : d.Apart x'.nodes x'.insts) (hxr : x'.Apart r.nodes r.insts)
    (howner : ∀ o, L.owner? = some o → o ∉ x'.nodes) (haround : p''.around? L = p'.around? L)
    (hlist : p''.listNodes L = d.roots ++ (x'.roots ++ r.roots)) (hbody : L = .body ∨ p''.body = p'.body) :
    Rewrites L t (d.append (x'.append r)) p p'' ∧ d.Stays p' p'' ∧ r.Stays p' p'' := by
  obtain ⟨hd, hxr', hdapart⟩ := sound_append.mp h.list.sound
  obtain ⟨_, hr, hxapart⟩ := sound_append.mp hxr'
  obtain ⟨hdx', hdr⟩ := apart_append.mp hdapart
  have howner' := h.list.owner
  have hnodes := h.nodes
  have hinsts := h.insts
  simp only [nodes_append, insts_append, mem_append, not_or] at howner' hnodes hinsts
  have houtside {u : Tree} (hu : u.Apart x.nodes x.insts) (hsub : ∀ o, L.owner? = some o → o ∉ u.nodes) :
      u.Apart (L.owner?.toList ++ x.nodes) x.insts :=
    ⟨fun n hn hmem => (mem_append.mp hmem).elim (fun ho => hsub n (Option.mem_toList.mp ho) hn) (hu.nodes n hn), hu.insts⟩
  have hdout := houtside hdx' fun o ho => (howner' o ho).1
  have hrout := houtside hxapart.symm fun o ho => (howner' o ho).2.2
  have hjoins := h.joins
  simp only [joins_append, mem_append] at hjoins
  refine ⟨⟨⟨?_, ?_, ?_⟩, ⟨?_, ?_, ?_, ?_⟩, haround.trans h.around, ?_, ?_⟩, hd.stays he hdout, hr.stays he hrout⟩
  · intro n hn
    simp only [nodes_append, mem_append] at hn
    exact hn.elim (fun hn => hnodes n (.inl hn)) fun hn => hn.elim (hstems.nodes n) fun hn => hnodes n (.inr (.inr hn))
  · intro i hi
    simp only [insts_append, mem_append] at hi
    exact hi.elim (fun hi => hinsts i (.inl hi)) fun hi => hi.elim (hstems.insts i) fun hi => hinsts i (.inr (.inr hi))
  · intro b hb
    simp only [joins_append, mem_append] at hb
    rcases hb with hb | hb | hb
    · exact (hjoins b (.inl hb)).congr (hd.join_congr he hdout hb)
    · exact hstems.joins b hb
    · exact (hjoins b (.inr (.inr hb))).congr (hr.join_congr he hrout hb)
  · exact sound_append.mpr ⟨hd.edits he hdout, sound_append.mpr ⟨hx, hr.edits he hrout, hxr⟩, apart_append.mpr ⟨hdx, hdr⟩⟩
  · rw [hlist, roots_append, roots_append]
  · rw [haround]
    exact h.list.around
  · intro o ho
    simp only [nodes_append, mem_append, not_or]
    exact ⟨(howner' o ho).1, howner o ho, (howner' o ho).2.2⟩
  · exact h.body.elim .inl fun hb => hbody.imp_right fun hb' => hb'.trans hb
  · refine h.edits.trans he (fun n hn => ?_) fun i hi => hinsts i (.inr (.inl hi))
    rcases mem_append.mp hn with hn | hn
    · exact .inl (mem_append_left _ hn)
    · exact (hnodes n (.inr (.inl hn))).imp_left (mem_append_right _)

/-- Rewriting a part of a list rewrites the list; what stands before and after the part stays as it
is. -/
theorem replace (h : ListAt L (d.append (x.append r)) p) (he : Edits (L.owner?.toList ++ x.nodes) x.insts p p')
    (hx : x'.Sound p') (hstems : x'.Stems x p p') (haround : p'.around? L = p.around? L)
    (hlist : p'.listNodes L = d.roots ++ (x'.roots ++ r.roots)) (hbody : L = .body ∨ p'.body = p.body) :
    Rewrites L (d.append (x.append r)) (d.append (x'.append r)) p p' ∧ d.Stays p p' ∧ r.Stays p p' := by
  obtain ⟨hd, hxr, hdapart⟩ := sound_append.mp h.sound
  obtain ⟨_, hr, hxapart⟩ := sound_append.mp hxr
  refine exchange (refl h) he hx ⟨fun n hn => (hstems.nodes n hn).imp_left ?_, fun i hi =>
      (hstems.insts i hi).imp_left ?_, fun b hb => (hstems.joins b hb).imp_right (And.imp_left ?_)⟩
    (hstems.apart hd.toHeld (apart_append.mp hdapart).1.symm).symm (hstems.apart hr.toHeld hxapart)
    (fun o ho hmem => ?_) haround hlist hbody
  · simp only [nodes_append, mem_append]
    exact fun hn => .inr (.inl hn)
  · simp only [insts_append, mem_append]
    exact fun hi => .inr (.inl hi)
  · simp only [joins_append, map_append, mem_append]
    exact fun hj => .inr (.inl hj)
  · refine (hstems.nodes o hmem).elim (fun hn => h.owner o ho ?_) (Nat.not_le.mpr (h.owner_lt ho))
    simp only [nodes_append, mem_append]
    exact .inr (.inl hn)

/-- Rewriting the inside of a part of a list rewrites the list. -/
lemma inside (h : ListAt L (d.append (x.append r)) p) (he : Edits x.nodes x.insts p p') (hbody : p'.body = p.body)
    (hx : x'.Sound p') (hstems : x'.Stems x p p') (hroots : x'.roots = x.roots) :
    Rewrites L (d.append (x.append r)) (d.append (x'.append r)) p p' ∧ d.Stays p p' ∧ r.Stays p p' := by
  have howner : ∀ o, L.owner? = some o → p'.node? o = p.node? o := by
    intro o ho
    refine he.nodes o (fun hmem => h.owner o ho ?_) (h.owner_lt ho)
    simp [nodes_append, hmem]
  refine replace h (he.mono (subset_append_right _ _) (List.Subset.refl _)) hx hstems
    (around?_congr howner) ?_ (.inr hbody)
  rw [listNodes_congr hbody howner, h.nodes, roots_append, roots_append, hroots]

/-! ## Instructions of a block -/

/-- Changing a block of a list. -/
lemma inBlock {is' : List InstId} (h : ListAt L (d.thenBlock b is r) p) (he : Edits [b] is p p')
    (hbody : p'.body = p.body) (hb : p'.node? b = some (.block is')) (hnodup : is'.Nodup)
    (his : ∀ i ∈ is', (i ∈ is ∨ p.insts.size ≤ i.index) ∧ ∃ data, p'.inst? i = some data ∧ data.block = b) :
    Rewrites L (d.thenBlock b is r) (d.thenBlock b is' r) p p' ∧ d.Stays p p' ∧ r.Stays p p' := by
  refine inside h ?_ hbody (sound_block.mpr ⟨hb, hnodup, fun i hi => (his i hi).2⟩)
    ⟨fun n hn => .inl hn, ?_, forall_mem_nil _⟩ rfl
  · rw [insts_block]
    exact he
  · intro i hi
    rw [insts_block] at hi ⊢
    exact (his i hi).1

/-- New instructions in a block of a list. -/
theorem emitted {new pre post : List InstId} {added : List (Inst × Option Expr)}
    (he : Emitted b pre post new added p p') (h : ListAt L (d.thenBlock b (pre ++ post) r) p) :
    Rewrites L (d.thenBlock b (pre ++ post) r) (d.thenBlock b (pre ++ new ++ post) r) p p' ∧
      d.Stays p p' ∧ r.Stays p p' := by
  obtain ⟨_, hnodup, hrec⟩ := h.blockAt
  have hlt := h.index_lt
  have hnew : ∀ j ∈ new, j ∉ pre ++ post := fun j hj hmem => Nat.not_lt.mpr (he.fresh j hj) (hlt j hmem)
  have hedits : Edits [b] (pre ++ post) p p' := by
    refine ⟨fun n hn _ => he.nodes n (mem_singleton.not.mp hn), fun i _ hi => he.insts i hi, ?_,
      he.insts_size, ?_, ?_, he.keepsLive, he.temps⟩
    · exact Nat.le_of_eq he.nodes_size.symm
    · rw [he.rest]
    · rw [he.rest]
  have hperm : (pre ++ new ++ post).Perm (new ++ (pre ++ post)) := by
    rw [← List.append_assoc]
    exact perm_append_comm.append_right post
  refine inBlock h hedits (by rw [he.rest]) he.block ?_ fun j hj => ?_
  · exact hperm.nodup_iff.mpr (nodup_append.mpr ⟨he.nodup, hnodup, fun j hj k hk hjk => hnew j hj (hjk ▸ hk)⟩)
  · rcases mem_append.mp (hperm.mem_iff.mp hj) with hj | hj
    · obtain ⟨line, hline⟩ := he.exists_data hj
      exact ⟨.inr (he.fresh j hj), _, hline, rfl⟩
    · refine ⟨.inl hj, ?_⟩
      rw [he.insts j (hlt j hj)]
      exact hrec j hj

lemma modification {f : InstData → InstData} (h : ListAt L (d.thenBlock b is r) p) (hi : i ∈ is)
    (hf : ∀ data, (f data).block = data.block) (hp : p' = { p with insts := p.insts.modify i.index f }) :
    Rewrites L (d.thenBlock b is r) (d.thenBlock b is r) p p' ∧
      d.Stays p p' ∧ r.Stays p p' ∧ ∀ j, p'.inst? j = if j = i then (p.inst? j).map f else p.inst? j := by
  obtain ⟨hb, hnodup, hrec⟩ := h.blockAt
  have hinst : ∀ j, p'.inst? j = if j = i then (p.inst? j).map f else p.inst? j := by
    intro j
    rw [hp, inst?_modify]
  have hedits : Edits [b] is p p' := by
    rw [hp]
    exact (Edits.modifyInst p i f).mono (nil_subset _) (by simpa using hi)
  obtain ⟨hrw, hd, hr⟩ := inBlock h hedits (by rw [hp]) (by rw [hp]; exact hb) hnodup (by
    intro j hj
    obtain ⟨data, hdata, hblock⟩ := hrec j hj
    refine ⟨.inl hj, ?_⟩
    rw [hinst]
    by_cases heq : j = i
    · rw [if_pos heq, hdata, map_some]
      exact ⟨f data, rfl, (hf data).trans hblock⟩
    · rw [if_neg heq]
      exact ⟨data, hdata, hblock⟩)
  exact ⟨hrw, hd, hr, hinst⟩

/-- Taking an instruction out of a block of a list. -/
lemma removal {pre post : List InstId} (h : ListAt L (d.thenBlock b (pre ++ i :: post) r) p)
    (hp : p' = (p.setBlock b (pre ++ post)).eraseInsts [i]) :
    Rewrites L (d.thenBlock b (pre ++ i :: post) r) (d.thenBlock b (pre ++ post) r) p p' ∧
      d.Stays p p' ∧ r.Stays p p' ∧ ∀ j ∈ pre ++ post, p'.inst? j = p.inst? j := by
  obtain ⟨hb, hnodup, hrec⟩ := h.blockAt
  obtain ⟨hi, hnodup'⟩ := nodup_cons.mp (nodup_middle.mp hnodup)
  have hinst : ∀ j, p'.inst? j = if j ∈ [i] then none else p.inst? j := by
    intro j
    rw [hp, inst?_eraseInsts, inst?_setBlock]
  have hold : ∀ j ∈ pre ++ post, p'.inst? j = p.inst? j := by
    intro j hj
    rw [hinst, if_neg]
    intro hmem
    rw [mem_singleton] at hmem
    exact hi (hmem ▸ hj)
  have hmem : ∀ j ∈ pre ++ post, j ∈ pre ++ i :: post := by
    intro j hj
    rw [mem_append] at hj ⊢
    exact hj.imp_right (mem_cons_of_mem i)
  have hedits : Edits [b] [i] p p' := by
    rw [hp]
    exact (Edits.setBlock p b _).append (Edits.eraseInsts _ [i])
  have hb' : p'.node? b = some (.block (pre ++ post)) := by
    rw [hp]
    show (p.setBlock b _).node? b = _
    rw [node?_setBlock, if_pos rfl, hb, map_some]
  obtain ⟨hrw, hd, hr⟩ := inBlock h (hedits.mono (List.Subset.refl _) (by simp)) (by rw [hp]; rfl) hb' hnodup' (by
    intro j hj
    rw [hold j hj]
    exact ⟨.inl (hmem j hj), hrec j (hmem j hj)⟩)
  exact ⟨hrw, hd, hr, hold⟩

lemma code_block (p : Procedure) (b : NodeId) (is : List InstId) :
    (block b is nil).code p = Code.ofLines (is.filterMap p.line?) := by
  rw [code, code, Code.append_done]

/-- New instructions at the end of a block of a list. -/
lemma appended {new : List InstId} {added : List (Inst × Option Expr)}
    (he : Emitted b is [] new added p p') (h : ListAt L (d.thenBlock b is r) p) : Rewrites L
    (d.thenBlock b is r) (d.thenBlock b (is ++ new) r) p p' ∧ d.Stays p p' ∧ r.Stays p p' ∧
      (block b (is ++ new) nil).code p' = ((block b is nil).code p).append (.ofLines added) := by
  obtain ⟨hrw, hd, hr⟩ := emitted he (by rwa [List.append_nil])
  rw [List.append_nil, List.append_nil] at hrw
  refine ⟨hrw, hd, hr, ?_⟩
  rw [code_block, code_block, filterMap_append, filterMap_congr fun j hj =>
    line?_congr (he.insts j (h.index_lt j hj)), Code.ofLines_append, he.lines]

lemma appendInst (h : ListAt L (d.thenBlock b is r) p) (hy : Yields (appendInst b inst) p i p') :
    Rewrites L (d.thenBlock b is r) (d.thenBlock b (is ++ [i]) r) p p' ∧ d.Stays p p' ∧
      r.Stays p p' ∧ (block b (is ++ [i]) nil).code p' =
      ((block b is nil).code p).append (.inst inst none .done) ∧ p'.locals = p.locals := by
  obtain ⟨hb, _, _⟩ := h.blockAt
  obtain ⟨is', hb', rfl, hp⟩ := yields_appendInst.mp hy
  cases hb.symm.trans hb'
  have he : Emitted b is [] [⟨p.insts.size⟩] [(inst, none)] p p' := .single (by rwa [List.append_nil]) hp
  obtain ⟨hrw, hd, hr, hcode⟩ := appended he h
  exact ⟨hrw, hd, hr, hcode, by rw [hp]; rfl⟩

/-! ## Blocks of a list -/

lemma newBlock {f : List NodeId → List NodeId} (h : ListAt L (d.append r) p)
    (hch : Procedure.ListChange L f { p with nodes := p.nodes.push (.block []) } p')
    (hf : f (d.roots ++ r.roots) = d.roots ++ NodeId.mk p.nodes.size :: r.roots) :
    Rewrites L (d.append r) (d.thenBlock ⟨p.nodes.size⟩ [] r) p p' ∧ d.Stays p p' ∧
      r.Stays p p' ∧ p'.locals = p.locals := by
  have hnode : ∀ n, L.owner? ≠ some n →
      p'.node? n = if n = ⟨p.nodes.size⟩ then some (.block []) else p.node? n := by
    intro n hn
    rw [hch.nodes n hn, node?_push]
  have hinst : ∀ i, p'.inst? i = p.inst? i := by
    intro i
    rw [hch.rest]
    rfl
  have hold : ∀ n : NodeId, n.index < p.nodes.size → n ≠ ⟨p.nodes.size⟩ := by
    intro n hlt hn
    rw [hn] at hlt
    exact Nat.lt_irrefl _ hlt
  have howner : L.owner? ≠ some ⟨p.nodes.size⟩ := fun ho => hold _ (h.owner_lt ho) rfl
  have hpush : ∀ o, L.owner? = some o → { p with nodes := p.nodes.push (.block []) }.node? o = p.node? o := by
    intro o ho
    rw [node?_push, if_neg (hold o (h.owner_lt ho))]
  have hlisted : { p with nodes := p.nodes.push (.block []) }.listNodes L = p.listNodes L :=
    listNodes_congr rfl hpush
  have hedits : Edits (L.owner?.toList ++ nil.nodes) nil.insts p p' := by
    refine ⟨?_, fun i _ _ => hinst i, ?_, ?_, by rw [hch.rest], by rw [hch.rest], .of_eq (by rw [hch.rest]), ?_⟩
    · intro n hn hlt
      have hn : L.owner? ≠ some n := by
        intro ho
        exact hn (mem_append_left _ (Option.mem_toList.mpr ho))
      rw [hnode n hn, if_neg (hold n hlt)]
    · rw [hch.size]
      show p.nodes.size ≤ (p.nodes.push _).size
      rw [size_push]
      exact Nat.le_succ _
    · exact Nat.le_of_eq (by rw [hch.rest])
    · rw [hch.rest]
      exact Nat.le_refl _
  have hblock : (block ⟨p.nodes.size⟩ [] nil).Sound p' := by
    refine sound_block.mpr ⟨?_, nodup_nil, forall_mem_nil _⟩
    rw [hnode _ howner, if_pos rfl]
  obtain ⟨hrw, hd, hr⟩ := replace (x := nil) h hedits hblock
    ⟨fun n hn => by
      rw [Tree.nodes, Tree.nodes, mem_singleton] at hn
      rw [hn]
      exact .inr (Nat.le_refl _), forall_mem_nil _, forall_mem_nil _⟩ (hch.around.trans (around?_congr hpush))
    (by rw [hch.listed, hlisted, h.nodes, roots_append, hf]; rfl)
    hch.body
  exact ⟨hrw, hd, hr, by rw [hch.rest]⟩

lemma exists_last_block (hfits : d.Fits p) (hlast : d.roots.getLast?.filter p.isBlock = some b) :
    ∃ (d0 : Tree) (is : List InstId), d = d0.append (block b is nil) := by
  rw [filter_eq_some_iff] at hlast
  obtain ⟨hlast, hblock⟩ := hlast
  obtain ⟨d0, x, hd, hx⟩ := exists_last hlast
  subst hd
  rw [fits_append] at hfits
  rcases eq_block_of_roots hx hfits.2 with hx' | hnil
  · exact ⟨d0, _, by rw [← hx']⟩
  · cases x with
    | nil => cases hx
    | block id insts rest =>
      cases rest with
      | nil =>
        cases hx
        exact ⟨d0, insts, rfl⟩
      | _ => cases hx
    | branch | loop =>
      obtain ⟨⟨c, hc⟩, _⟩ := hfits.2
      rw [roots, List.cons.injEq] at hx
      rw [hx.1] at hc
      simp [isBlock, hc, Node.isBlock] at hblock

/-- The block right before a position of a list. -/
lemma blockBefore (h : ListAt L (d.append r) p) (hy : Yields (blockBefore L d.roots.length) p (b, inserted) p') :
    ∃ (d0 : Tree) (is : List InstId), Rewrites L (d.append r) (d0.thenBlock b is r) p p' ∧
      (d0.append (block b is nil)).code p' = d.code p ∧ r.Stays p p' ∧
      d0.roots.length + 1 = d.roots.length + (if inserted then 1 else 0) ∧ p'.locals = p.locals := by
  have hbefore : (if d.roots.length = 0 then none else (p.listNodes L)[d.roots.length - 1]?) = d.roots.getLast? := by
    rw [h.nodes, roots_append]
    cases hd : d.roots with
    | nil => rfl
    | cons n ns => rw [if_neg (by simp), getElem?_append_left (by simp), getLast?_eq_getElem?]
  simp only [Procedure.blockBefore, yields_get_bind, hbefore] at hy
  split at hy
  · rename_i last hlast
    simp only [yields_pure, Prod.mk.injEq] at hy
    obtain ⟨⟨hb, hins⟩, hp⟩ := hy
    subst hb hins hp
    obtain ⟨d0, is, hd⟩ := exists_last_block (sound_append.mp h.sound).1.fits hlast
    subst hd
    rw [Tree.append_assoc] at h ⊢
    refine ⟨d0, is, refl h, rfl, Stays.refl r _, ?_, rfl⟩
    rw [roots_append, length_append]
    rfl
  · simp only [yields_bind, yields_newBlock, insertNode, yields_updateList,
      yields_pure, Prod.mk.injEq] at hy
    obtain ⟨id, q1, ⟨hid, hq1⟩, _, q2, hlist, ⟨hb, hins⟩, hp⟩ := hy
    subst hid hq1 hb hins hp
    obtain ⟨hrw, hd, hr, hlocals⟩ := newBlock h (listChange_of_updateList? hlist)
      (insertAt_append _ d.roots r.roots)
    refine ⟨d, [], hrw, ?_, hr, rfl, hlocals⟩
    rw [code_append, hd.code, code_block]
    exact Code.append_done _

/-- The last block of a list. -/
lemma ensureLastBlock (h : ListAt L d p) (hy : Yields (ensureLastBlock L) p b p') :
    ∃ (d0 : Tree) (is : List InstId), Rewrites L d (d0.append (block b is nil)) p p' ∧
      (d0.append (block b is nil)).code p' = d.code p ∧ d0.height ≤ d.height ∧
      p'.locals = p.locals ∧ d0.insts ++ is = d.insts ∧ ∀ i, p'.inst? i = p.inst? i := by
  rw [Procedure.ensureLastBlock, yields_get_bind, h.nodes] at hy
  split at hy
  · rename_i last hlast
    rw [yields_pure] at hy
    obtain ⟨hb, hp⟩ := hy
    rw [hb, hp]
    obtain ⟨d0, is, hd⟩ := exists_last_block h.sound.fits hlast
    subst hd
    refine ⟨d0, is, refl h, rfl, ?_, rfl, ?_, fun _ => rfl⟩
    · rw [height_append]
      exact Nat.le_max_left _ _
    · rw [insts_append, insts_block]
  · simp only [yields_bind, yields_newBlock, pushNode, yields_updateList,
      yields_pure] at hy
    obtain ⟨id, q1, ⟨hid, hq1⟩, _, q2, hlist, hb, hp⟩ := hy
    subst hid hq1 hb hp
    have h' : ListAt L (d.append nil) p := by
      rw [Tree.append_nil]
      exact h
    obtain ⟨hrw, hd, _, hlocals⟩ := newBlock h' (listChange_of_updateList? hlist) (by
      simp only [roots, List.append_nil])
    rw [Tree.append_nil] at hrw
    refine ⟨d, [], hrw, ?_, Nat.le_refl _, hlocals, List.append_nil _, fun i => ?_⟩
    · rw [code_append, hd.code, code_block]
      exact Code.append_done _
    · rw [(listChange_of_updateList? hlist).rest]
      rfl

lemma relocal (h : Rewrites L t t' p p1) (hp : p' = { p1 with locals := p'.locals, nextTemp := p'.nextTemp })
    (hext : p1.Extends p') : Rewrites L t t' p p' ∧ ∀ u : Tree, u.Stays p1 p' := by
  have hnode : ∀ n, p'.node? n = p1.node? n := by
    intro n
    rw [hp]
    rfl
  have hinst : ∀ i, p'.inst? i = p1.inst? i := by
    intro i
    rw [hp]
    rfl
  have hedits : Edits nil.nodes nil.insts p1 p' :=
    ⟨fun n _ _ => hnode n, fun i _ _ => hinst i, Nat.le_of_eq (by rw [hp]),
      Nat.le_of_eq (by rw [hp]), by rw [hp], by rw [hp], hext.keepsLive, hext.temps⟩
  have h1 : ListAt L (t'.append (nil.append nil)) p1 := by
    rw [Tree.append_nil, Tree.append_nil]
    exact h.list
  obtain ⟨hrw, _⟩ := inside h1 hedits (by rw [hp]) sound_nil
    ⟨forall_mem_nil _, forall_mem_nil _, forall_mem_nil _⟩ rfl
  rw [Tree.append_nil, Tree.append_nil] at hrw
  exact ⟨h.trans hrw, fun u => ⟨code_congr (fun n _ => hnode n) fun i _ => hinst i, fun i _ => hinst i⟩⟩

lemma appendLast (h : ListAt L d p) (hy : Yields (Procedure.ensureLastBlock L) p b p1)
    (hp2 : p2 = { p1 with locals := p2.locals, nextTemp := p2.nextTemp }) (hext : p1.Extends p2)
    (hy' : Yields (Procedure.appendInst b inst) p2 i p') :
    ∃ d' : Tree, Rewrites L d d' p p' ∧ d'.code p' = (d.code p).append (.inst inst none .done) ∧
      d'.height ≤ max d.height 1 := by
  obtain ⟨d0, is, hrw1, hcode, hheight, _⟩ := ensureLastBlock h hy
  obtain ⟨hrw2, hstays⟩ := hrw1.relocal hp2 hext
  have h2 : ListAt L (d0.thenBlock b is nil) p2 := hrw2.list
  obtain ⟨hrw3, hd0, _, hblock, _⟩ := appendInst h2 hy'
  refine ⟨d0.append (block b (is ++ [i]) nil), hrw2.trans hrw3, ?_, ?_⟩
  · rw [code_append, hd0.code, hblock, ← hcode, code_append, Code.append_assoc, (hstays d0).code, (hstays _).code]
  · rw [height_append]
    simp only [height]
    omega

lemma appendBefore (h : ListAt L (d.append r) p)
    (hy : Yields (Procedure.blockBefore L d.roots.length) p (b, inserted) p1)
    (hp2 : p2 = { p1 with locals := p2.locals, nextTemp := p2.nextTemp }) (hext : p1.Extends p2)
    (hy' : Yields (Procedure.appendInst b inst) p2 i p') :
    ∃ d' : Tree, Rewrites L (d.append r) (d'.append r) p p' ∧ d'.code p' = (d.code p).append (.inst inst none .done) ∧
      r.Stays p p' ∧ d'.roots.length = d.roots.length + (if inserted then 1 else 0) := by
  obtain ⟨d0, is, hrw1, hcode, hr1, hlength, _⟩ := blockBefore h hy
  obtain ⟨hrw2, hstays⟩ := hrw1.relocal hp2 hext
  obtain ⟨hrw3, hd0, hr3, hblock, _⟩ := appendInst hrw2.list hy'
  refine ⟨d0.append (block b (is ++ [i]) nil), ?_, ?_, (hr1.trans (hstays r)).trans hr3, ?_⟩
  · rw [Tree.append_assoc]
    exact hrw2.trans hrw3
  · rw [code_append, hd0.code, hblock, ← hcode, code_append, Code.append_assoc, (hstays d0).code, (hstays _).code]
  · rw [roots_append, length_append, ← hlength]
    rfl

end Rewrites

/-! ## Emptying a join -/

/-- What emptying a block changes. -/
structure Cleared (b : NodeId) (is : List InstId) (p p' : Procedure) : Prop where
  edits : Edits [b] is p p'
  node : p'.node? b = some (.block [])
  body : p'.body = p.body

lemma cleared_of_clearBlock {u : Unit} (h : Yields (clearBlock b) p u p') : Cleared b (p.blockInsts b) p p' := by
  obtain ⟨is, hb, hp⟩ := yields_clearBlock.mp h
  have hlisted : p.blockInsts b = is := by rw [blockInsts, hb]
  rw [hlisted]
  refine ⟨?_, ?_, by rw [hp]; rfl⟩
  · rw [hp]
    exact (Edits.setBlock p b []).append (Edits.eraseInsts _ is)
  · rw [hp]
    show (p.setBlock b []).node? b = _
    rw [node?_setBlock, if_pos rfl, hb, map_some]

end ActorNet
