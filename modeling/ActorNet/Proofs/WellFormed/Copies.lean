import ActorNet.Proofs.Structure.Loose
import ActorNet.Proofs.WellFormed.Containment

/-!
# Copies of nodes

Copying a node copies all that stands under it (`Procedure.Under`), from the inside out, into the
tables that are read on the way. `Procedure.Copied` says what is there when some nodes have been
copied: nothing that was there has changed, and each copy has the copies of what its original has.
One more copy keeps this (`Copied.add`), and what stands under two nodes of one owner is apart
(`Under.disjoint`), so no node is copied twice.
-/

namespace ActorNet

open List

lemma foldl_setPartner {α : Type} [DecidableEq α] {new l : List (α × α)} (h : ((l ++ new).map (·.1)).Nodup) :
    new.foldl (fun all pair => setPartner pair.1 pair.2 all) l = l ++ new := by
  induction new generalizing l with
  | nil => exact (append_nil l).symm
  | cons first rest ih =>
    have hfresh : first.1 ∉ l.map (·.1) := by
      rw [map_append, nodup_append] at h
      exact fun hmem => h.2.2 _ hmem _ mem_cons_self rfl
    rw [foldl_cons, setPartner_of_not_mem hfresh, ih (by rwa [append_assoc]), append_assoc, singleton_append]

/-- Objects have been added to a table, under consecutive handles. A pair has an old handle and the
new one that stands for it; no old handle has two. -/
structure Arena.Gains {α H : Type} (mk : Nat → H) (pairs : List (H × H)) (a a' : Arena α) : Prop where
  size : a'.size = a.size + pairs.length
  fresh : pairs.map (·.2) = (range' a.size pairs.length).map mk
  nodup : (pairs.map (·.1)).Nodup
  old : ∀ k, k < a.size → a'.get? k = a.get? k

namespace Arena.Gains

variable {α H : Type} {mk : Nat → H} {pairs pairs' : List (H × H)} {a a' a1 : Arena α}

lemma refl (mk : Nat → H) (a : Arena α) : Gains mk [] a a := ⟨rfl, rfl, nodup_nil, fun _ _ => rfl⟩

lemma trans (h : Gains mk pairs a a1) (h' : Gains mk pairs' a1 a')
    (hapart : (pairs.map (·.1)).Disjoint (pairs'.map (·.1))) : Gains mk (pairs ++ pairs') a a' where
  size := by rw [h'.size, h.size, length_append, Nat.add_assoc]
  fresh := by rw [map_append, h.fresh, h'.fresh, h.size, ← map_append, range'_append_1, length_append]
  nodup := by
    rw [map_append]
    exact h.nodup.append h'.nodup hapart
  old := fun k hk => (h'.old k (Nat.lt_of_lt_of_le hk (h.size ▸ Nat.le_add_right _ _))).trans (h.old k hk)

lemma push (mk : Nat → H) (x : H) (a : Arena α) (v : α) : Gains mk [(x, mk a.size)] a (a.push v) where
  size := size_push a v
  fresh := rfl
  nodup := nodup_singleton _
  old := fun k hk => by rw [get?_push, if_neg (Nat.ne_of_lt hk)]

end Arena.Gains

/-- A node and its copy: conditions are equal, and nodes and instructions correspond one by one. -/
inductive Node.Mirrors (N : List (NodeId × NodeId)) (I : List (InstId × InstId)) : Node → Node → Prop where
  | block {is is' : List InstId} : Forall₂ (fun i i' => (i, i') ∈ I) is is' → Mirrors N I (.block is) (.block is')
  | branch {c : Expr} {t e t' e' : List NodeId} {j j' : NodeId} : Forall₂ (fun n n' => (n, n') ∈ N) t t' →
      Forall₂ (fun n n' => (n, n') ∈ N) e e' → (j, j') ∈ N → Mirrors N I (.branch c t e j) (.branch c t' e' j')
  | loop {c : Expr} {b b' : List NodeId} {j j' : NodeId} : Forall₂ (fun n n' => (n, n') ∈ N) b b' → (j, j') ∈ N →
      Mirrors N I (.loop c b j) (.loop c b' j')

lemma Node.Mirrors.mono {N N' : List (NodeId × NodeId)} {I I' : List (InstId × InstId)} {node node' : Node}
    (h : node.Mirrors N I node') (hN : N ⊆ N') (hI : I ⊆ I') : node.Mirrors N' I' node' := by
  cases h with
  | block his => exact .block (his.imp fun _ _ hi => hI hi)
  | branch ht he hj => exact .branch (ht.imp fun _ _ hn => hN hn) (he.imp fun _ _ hn => hN hn) (hN hj)
  | loop hb hj => exact .loop (hb.imp fun _ _ hn => hN hn) (hN hj)

namespace Procedure

variable {spared : LocalId → Prop} {π : Layout} {rank : NodeId → Nat} {bound depth : Nat}
  {map map' map1 : CopyMap} {p q q' : Procedure} {n m a b c : NodeId} {node node' : Node}
  {x y : Place} {cs cs' ds ds' : List NodeId} {new : List InstId}

/-! ## Subtrees -/

/-- A node stands somewhere under another one, or is that node. -/
abbrev Under (p : Procedure) : NodeId → NodeId → Prop := Relation.ReflTransGen p.Contains

section Subtrees

variable (hfits : π.Fits spared p) (hrank : π.Ranked p rank bound)
include hfits hrank

lemma Contains.placed (hn : π n = some x) (h : p.Contains n c) :
    ∃ y, π c = some y ∧ y.owner? = some n ∧ rank n < rank c := by
  obtain ⟨node, hnode, hc⟩ := h
  obtain ⟨y, hy⟩ := Node.exists_inside hc
  rw [← inside_eq hnode] at hy
  exact ⟨y, (hfits.stands n x hn).placed _ hy, owner_of_mem_inside hy, hrank.deeper n x hn _ hy⟩

lemma Contains.unique (ha : π a = some x) (hb : π b = some y) (h : p.Contains a c) (h' : p.Contains b c) : a = b := by
  obtain ⟨z, hz, howner, _⟩ := h.placed hfits hrank ha
  obtain ⟨z', hz', howner', _⟩ := h'.placed hfits hrank hb
  cases hz.symm.trans hz'
  exact Option.some.inj (howner.symm.trans howner')

lemma Under.placed (hn : π n = some x) (h : p.Under n m) : ∃ y, π m = some y ∧ rank n ≤ rank m := by
  induction h with
  | refl => exact ⟨x, hn, Nat.le_refl _⟩
  | tail _ hm ih =>
    obtain ⟨y, hy, hle⟩ := ih
    obtain ⟨z, hz, _, hlt⟩ := hm.placed hfits hrank hy
    exact ⟨z, hz, by omega⟩

lemma Contains.not_under (hn : π n = some x) (h : p.Contains n c) : ¬ p.Under c n := by
  intro hunder
  obtain ⟨y, hy, _, hlt⟩ := h.placed hfits hrank hn
  obtain ⟨_, _, hle⟩ := Under.placed hfits hrank hy hunder
  omega

/-- Nothing stands under two nodes of the same owner. The induction is on the way down to what
stands under the first: its owner would stand under the second, too. -/
lemma Under.disjoint (hn : π n = some x) (ha : p.Contains n a) (hb : p.Contains n b) (hne : a ≠ b)
    (h : p.Under a m) : ¬ p.Under b m := by
  obtain ⟨_, hxa, _⟩ := ha.placed hfits hrank hn
  obtain ⟨_, hxb, _⟩ := hb.placed hfits hrank hn
  induction h with
  | refl =>
    intro hba
    rcases Relation.ReflTransGen.cases_tail hba with rfl | ⟨o, hbo, ho⟩
    · exact hne rfl
    · obtain ⟨_, hxo, _⟩ := Under.placed hfits hrank hxb hbo
      obtain rfl := ho.unique hfits hrank hxo hn ha
      exact hb.not_under hfits hrank hn hbo
  | @tail o m hao ho ih =>
    intro hbm
    obtain ⟨_, hxo, _⟩ := Under.placed hfits hrank hxa hao
    rcases Relation.ReflTransGen.cases_tail hbm with rfl | ⟨o', hbo, ho'⟩
    · obtain rfl := ho.unique hfits hrank hxo hn hb
      exact ha.not_under hfits hrank hn hao
    · obtain ⟨_, hxo', _⟩ := Under.placed hfits hrank hxb hbo
      obtain rfl := ho.unique hfits hrank hxo hxo' ho'
      exact ih hbo

end Subtrees

/-! ## What has been copied -/

/-- Some nodes and instructions of a procedure have been copied, with the given changes. The copies
are new and have consecutive handles, and all nodes and instructions that were there are as
before. -/
structure CopiedBy (f : InstData → InstData)
    (g : Node → Node) (p : Procedure) (map : CopyMap) (q : Procedure) : Prop where
  nodes : Arena.Gains NodeId.mk map.nodes p.nodes q.nodes
  insts : Arena.Gains InstId.mk map.insts p.insts q.insts
  mirrors : ∀ n n', (n, n') ∈ map.nodes →
    ∃ node node', p.node? n = some node ∧ q.node? n' = some node' ∧ (g node).Mirrors map.nodes map.insts node'
  data : ∀ i i', (i, i') ∈ map.insts → ∃ d b', p.inst? i = some d ∧ i ∈ p.blockInsts d.block ∧
    (d.block, b') ∈ map.nodes ∧ q.inst? i' = some { f d with block := b' }

/-- Copies are exact, and nothing but nodes and instructions has been added. -/
structure Copied (p : Procedure) (map : CopyMap) (q : Procedure) : Prop extends CopiedBy id id p map q where
  rest : q = { p with nodes := q.nodes, insts := q.insts }

lemma Copied.refl (p : Procedure) : p.Copied {} p where
  nodes := .refl _ _
  insts := .refl _ _
  mirrors := nofun
  data := nofun
  rest := rfl

/-- The maps after one more node has been copied, with its instructions. -/
def extend (p : Procedure) (map : CopyMap) (n : NodeId) (q : Procedure) (new : List InstId) : CopyMap :=
  { map with nodes := map.nodes ++ [(n, ⟨q.nodes.size⟩)], insts := map.insts ++ (p.blockInsts n).zip new }

/-- A node has been copied: the copy is the last node, and copies of the instructions are the last
instructions. -/
structure Adds (p : Procedure) (n : NodeId) (new : List InstId) (node' : Node) (q q' : Procedure) : Prop where
  rest : q' = { q with nodes := q'.nodes, insts := q'.insts }
  nodes : Arena.Gains NodeId.mk [(n, ⟨q.nodes.size⟩)] q.nodes q'.nodes
  node : q'.node? ⟨q.nodes.size⟩ = some node'
  insts : Arena.Gains InstId.mk ((p.blockInsts n).zip new) q.insts q'.insts
  data : Forall₂ (fun i i' => ∀ d, p.inst? i = some d → q'.inst? i' = some { d with block := ⟨q.nodes.size⟩ })
    (p.blockInsts n) new

lemma Copied.add (h : p.Copied map q) (hstands : Layout.Stands spared π p n x)
    (hnode : p.node? n = some node) (hn : n ∉ map.nodes.map (·.1)) (hadds : Adds p n new node' q q')
    (hmirrors : node.Mirrors (p.extend map n q new).nodes (p.extend map n q new).insts node') :
    p.Copied (p.extend map n q new) q' := by
  have hkeys : ((p.blockInsts n).zip new).map (·.1) = p.blockInsts n := map_fst_zip (Nat.le_of_eq hadds.data.length_eq)
  refine ⟨⟨h.nodes.trans hadds.nodes ?_, h.insts.trans hadds.insts ?_, fun m m' hm => ?_, fun i i' hi => ?_⟩, ?_⟩
  · exact disjoint_singleton.mpr hn
  · rw [hkeys]
    intro i hi hi'
    obtain ⟨⟨_, i'⟩, hpair, rfl⟩ := mem_map.mp hi
    obtain ⟨d, b', hd, _, hb', _⟩ := h.data _ _ hpair
    obtain ⟨d', hd', hblock⟩ := hstands.recorded _ hi'
    cases hd.symm.trans hd'
    exact hn (hblock ▸ mem_map_of_mem hb')
  · rcases mem_append.mp hm with hm | hm
    · obtain ⟨node, node', hnode, hnode', hmirror⟩ := h.mirrors m m' hm
      exact ⟨node, node', hnode, (hadds.nodes.old _ (index_lt_of_node? hnode')).trans hnode',
        hmirror.mono (subset_append_left _ _) (subset_append_left _ _)⟩
    · cases mem_singleton.mp hm
      exact ⟨node, node', hnode, hadds.node, hmirrors⟩
  · rcases mem_append.mp hi with hi | hi
    · obtain ⟨d, b', hd, hlisted, hb', hcopy⟩ := h.data i i' hi
      exact ⟨d, b', hd, hlisted, mem_append_left _ hb', (hadds.insts.old _ (index_lt_of_inst? hcopy)).trans hcopy⟩
    · have hlisted : i ∈ p.blockInsts n := hkeys ▸ mem_map_of_mem hi
      obtain ⟨d, hd, hblock⟩ := hstands.recorded i hlisted
      exact ⟨d, _, hd, hblock ▸ hlisted, hblock ▸ mem_append_right _ (mem_singleton_self _),
        (forall₂_iff_zip.mp hadds.data).2 hi d hd⟩
  · rw [hadds.rest, h.rest]

lemma adds_construct (h : p.blockInsts n = []) : Adds p n [] node' q { q with nodes := q.nodes.push node' } where
  rest := rfl
  nodes := .push _ _ _ _
  node := (node?_push _ _).trans (if_pos rfl)
  insts := zip_nil_right ▸ .refl _ _
  data := by
    rw [h]
    exact .nil

/-- Copying a block with its instructions. -/
lemma adds_block (h : p.Copied map q) (hstands : Layout.Stands spared π p n x) :
    ∃ new q', Yields (copyInsts ⟨q.nodes.size⟩ [] (p.blockInsts n)) { q with nodes := q.nodes.push (.block []) }
      ((p.blockInsts n).zip new) q' ∧ Adds p n new (.block new) q q' := by
  have hinst : ∀ i ∈ p.blockInsts n, ∃ d, q.inst? i = some d ∧ p.inst? i = some d := by
    intro i hi
    obtain ⟨d, hd, _⟩ := hstands.recorded i hi
    exact ⟨d, (h.insts.old _ (index_lt_of_inst? hd)).trans hd, hd⟩
  obtain ⟨new, q', hy, hnew, hsize, hemit, hrest⟩ := Emitted.copyInsts (p := { q with nodes := q.nodes.push (.block []) })
    [] ((node?_push _ _).trans (if_pos rfl)) hstands.insts_nodup (fun _ _ => not_mem_nil)
    fun i hi => (hinst i hi).imp fun _ hd => hd.1
  have hlength : new.length = (p.blockInsts n).length := by rw [hnew, length_map, length_range']
  have hzip : ((p.blockInsts n).zip new).length = (p.blockInsts n).length := by rw [length_zip, hlength, Nat.min_self]
  refine ⟨new, q', hy, ?_, ⟨hemit.nodes_size.trans (Arena.size_push _ _), rfl, nodup_singleton _,
    fun k hk => ?_⟩, ?_, ⟨?_, ?_, ?_, fun k => hemit.insts ⟨k⟩⟩, ?_⟩
  · rw [hrest]
  · have hk : NodeId.mk k ≠ ⟨q.nodes.size⟩ := fun heq => Nat.ne_of_lt hk (NodeId.mk.inj heq)
    exact (hemit.nodes _ hk).trans ((node?_push _ _).trans (if_neg hk))
  · rw [hemit.block, nil_append, append_nil]
  · rw [hzip, hsize]
  · rw [map_snd_zip (Nat.le_of_eq hlength), hzip, hnew]
  · rw [map_fst_zip (Nat.le_of_eq hlength.symm)]
    exact hstands.insts_nodup
  · have hdata : new.map q'.inst? = (p.blockInsts n).map fun i =>
        (p.inst? i).map fun d => { d with block := ⟨q.nodes.size⟩ } := by
      rw [hemit.data, map_filterMap, ← filterMap_eq_map]
      refine filterMap_congr fun i hi => ?_
      obtain ⟨d, hd, hd'⟩ := hinst i hi
      show ((q.inst? i).map _).map _ = some ((p.inst? i).map _)
      rw [hd, hd']
      rfl
    rw [← forall₂_eq_eq_eq, forall₂_map_left_iff, forall₂_map_right_iff] at hdata
    exact hdata.flip.imp fun i i' hi d hd => by rw [hi, hd, map_some]

/-! ## Copying -/

/-- Some nodes have been copied with all that is under them. -/
structure CopiedTo (p : Procedure) (cs cs' : List NodeId) (map map' : CopyMap) (q' : Procedure) : Prop where
  copied : p.Copied map' q'
  nodes : map.nodes ⊆ map'.nodes
  insts : map.insts ⊆ map'.insts
  keys : ∀ m, m ∈ map'.nodes.map (·.1) ↔ m ∈ map.nodes.map (·.1) ∨ ∃ c ∈ cs, p.Under c m
  pairs : Forall₂ (fun n n' => (n, n') ∈ map'.nodes) cs cs'

/-- Nothing under the given nodes has been copied. -/
def Uncopied (p : Procedure) (map : CopyMap) (cs : List NodeId) : Prop :=
  ∀ c ∈ cs, ∀ m, p.Under c m → m ∉ map.nodes.map (·.1)

namespace CopiedTo

lemma refl (h : p.Copied map q) : p.CopiedTo [] [] map map q :=
  ⟨h, Subset.refl _, Subset.refl _, fun m => by simp, .nil⟩

lemma append {map2 : CopyMap} (h : p.CopiedTo cs cs' map map1 q)
    (h' : p.CopiedTo ds ds' map1 map2 q') : p.CopiedTo (cs ++ ds) (cs' ++ ds') map map2 q' where
  copied := h'.copied
  nodes := fun _ hx => h'.nodes (h.nodes hx)
  insts := fun _ hx => h'.insts (h.insts hx)
  keys := fun m => by
    rw [h'.keys, h.keys, or_assoc]
    simp only [mem_append, or_and_right, exists_or]
  pairs := rel_append (h.pairs.imp fun _ _ hn => h'.nodes hn) h'.pairs

lemma uncopied (h : p.CopiedTo cs cs' map map1 q) (hapart : ∀ a ∈ cs, ∀ b ∈ ds, ∀ m, p.Under a m →
    ¬ p.Under b m) (hfresh : p.Uncopied map ds) : p.Uncopied map1 ds := by
  intro b hb m hm hmem
  rcases (h.keys m).mp hmem with hmem | ⟨a, ha, hm'⟩
  · exact hfresh b hb m hm hmem
  · exact hapart a ha b hb m hm' hm

/-- A node is copied after all that it contains. -/
lemma add (h : p.CopiedTo cs cs' map map1 q) (hfits : π.Fits spared p) (hrank : π.Ranked p rank bound) (hx : π n = some x)
    (hnode : p.node? n = some node) (hcs : ∀ c, c ∈ cs ↔ c ∈ node.children) (hn : n ∉ map.nodes.map (·.1))
    (hadds : Adds p n new node' q q') (hmirrors : node.Mirrors (p.extend map1 n q new).nodes (p.extend map1 n q new).insts node') :
    n ∉ map1.nodes.map (·.1) ∧ p.CopiedTo [n] [⟨q.nodes.size⟩] map (p.extend map1 n q new) q' := by
  have hcontains : ∀ c, p.Contains n c ↔ c ∈ cs := fun c => by simp [Contains, hnode, hcs]
  have hn1 : n ∉ map1.nodes.map (·.1) := by
    rw [h.keys]
    rintro (hmem | ⟨c, hc, hunder⟩)
    · exact hn hmem
    · exact ((hcontains c).mpr hc).not_under hfits hrank hx hunder
  refine ⟨hn1, h.copied.add (hfits.stands n x hx) hnode hn1 hadds hmirrors, subset_append_of_subset_left _ h.nodes,
    subset_append_of_subset_left _ h.insts, fun m => ?_, .cons (mem_append_right _ (mem_singleton_self _)) .nil⟩
  rw [extend, map_append, mem_append, h.keys, or_assoc]
  refine or_congr_right ?_
  simp only [map_cons, map_nil, mem_singleton, exists_eq_left]
  rw [Under, Relation.ReflTransGen.cases_head_iff, or_comm, eq_comm]
  simp only [hcontains]

end CopiedTo

/-- A node can be copied with all that is under it, wherever nothing of that has been copied. -/
def Copies (p : Procedure) (copy : CopyMap → NodeId → Edit (NodeId × CopyMap)) (c : NodeId) : Prop :=
  ∀ map q, p.Copied map q → p.Uncopied map [c] →
    ∃ c' map' q', Yields (copy map c) q (c', map') q' ∧ p.CopiedTo [c] [c'] map map' q'

lemma copyEach_yields {copy : CopyMap → NodeId → Edit (NodeId × CopyMap)} (hcopied : p.Copied map q)
    (hcopy : ∀ c ∈ cs, p.Copies copy c) (hapart : cs.Pairwise fun a b => ∀ m, p.Under a m →
    ¬ p.Under b m) (hfresh : p.Uncopied map cs) : ∃ cs' map' q',
    Yields (copyEach copy map cs) q (cs', map') q' ∧ p.CopiedTo cs cs' map map' q' := by
  induction cs generalizing map q with
  | nil => exact ⟨[], map, q, yields_pure.mpr ⟨rfl, rfl⟩, .refl hcopied⟩
  | cons c rest ih =>
    obtain ⟨hc, hrest⟩ := pairwise_cons.mp hapart
    obtain ⟨hfirst, hothers⟩ := forall_mem_cons.mp hfresh
    obtain ⟨c', map1, q1, hy1, h1⟩ := hcopy c mem_cons_self map q hcopied (forall_mem_singleton.mpr hfirst)
    obtain ⟨cs', map2, q2, hy2, h2⟩ := ih h1.copied (fun d hd => hcopy d (mem_cons_of_mem _ hd)) hrest
      (h1.uncopied (forall_mem_singleton.mpr hc) hothers)
    refine ⟨c' :: cs', map2, q2, ?_, h1.append h2⟩
    rw [copyEach]
    simp only [yields_bind, yields_pure]
    exact ⟨_, _, hy1, _, _, hy2, rfl, rfl⟩

/-- A node of a layout can be copied. The induction is on the depth, which a layout bounds. -/
theorem copies_copyNode (hfits : π.Fits spared p) (hrank : π.Ranked p rank bound)
    (hx : π n = some x) (hdepth : bound ≤ rank n + depth) : p.Copies (copyNode depth) n := by
  induction depth generalizing n x with
  | zero => exact absurd (hrank.lt_bound n x hx) (Nat.not_lt.mpr hdepth)
  | succ depth ih =>
    intro map q hcopied hfresh
    have hstands := hfits.stands n x hx
    obtain ⟨node, hnode⟩ := hstands.live
    have hnode' : q.node? n = some node := (hcopied.nodes.old _ (index_lt_of_node? hnode)).trans hnode
    have hn := hfresh n mem_cons_self n .refl
    have hcontains : ∀ c ∈ node.children, p.Contains n c := fun c hc => ⟨node, hnode, hc⟩
    -- what is known of the children
    have hcopy : ∀ c ∈ node.children, p.Copies (copyNode depth) c := by
      intro c hc
      obtain ⟨y, hy, _, hlt⟩ := (hcontains c hc).placed hfits hrank hx
      exact ih hy (by omega)
    have hapart : node.children.Pairwise fun a b => ∀ m, p.Under a m → ¬ p.Under b m := by
      have hnodup : node.children.Nodup := by
        have hinside := hstands.nodup
        rw [inside_eq hnode] at hinside
        refine nodup_reverse.mp ?_
        cases node with
        | block => exact nodup_nil
        | branch | loop => simpa [Node.inside, Node.children, Function.comp_def] using hinside
      exact hnodup.pairwise_of_forall_ne fun a ha b hb hne m =>
        Under.disjoint hfits hrank hx (hcontains a ha) (hcontains b hb) hne
    have hunder : p.Uncopied map node.children := fun c hc m hm => hfresh n mem_cons_self m (hm.head (hcontains c hc))
    cases node with
    | block is =>
      have hlisted : p.blockInsts n = is := blockInsts_eq hnode
      obtain ⟨new, q', hy, hadds⟩ := adds_block hcopied hstands
      have hmirrors : (Node.block is).Mirrors (p.extend map n q new).nodes (p.extend map n q new).insts (.block new) := by
        refine .block (forall₂_iff_zip.mpr ⟨hlisted ▸ hadds.data.length_eq, fun hi => mem_append_right _ ?_⟩)
        rwa [hlisted]
      obtain ⟨_, hto⟩ := (CopiedTo.refl hcopied).add hfits hrank hx hnode (fun _ => Iff.rfl) hn hadds hmirrors
      refine ⟨_, _, q', ?_, hto⟩
      rw [copyNode, yields_get_bind, hnode']
      simp only [yields_bind, yields_newBlock, yields_pure]
      refine ⟨_, _, ⟨rfl, rfl⟩, _, _, hlisted ▸ hy, ?_, rfl⟩
      rw [← hlisted, foldl_setPartner hto.copied.insts.nodup, setPartner_of_not_mem hn]
      rfl
    | branch condition t e join =>
      obtain ⟨hte, _, hjoin⟩ := pairwise_append.mp hapart
      obtain ⟨ht, he, hthen⟩ := pairwise_append.mp hte
      obtain ⟨hcopy, hcopyJoin⟩ := forall_mem_append.mp hcopy
      obtain ⟨hcopyThen, hcopyElse⟩ := forall_mem_append.mp hcopy
      obtain ⟨hunder, hunderJoin⟩ := forall_mem_append.mp hunder
      obtain ⟨hunderThen, hunderElse⟩ := forall_mem_append.mp hunder
      obtain ⟨t', map1, q1, hy1, h1⟩ := copyEach_yields hcopied hcopyThen ht hunderThen
      obtain ⟨e', map2, q2, hy2, h2⟩ := copyEach_yields h1.copied hcopyElse he (h1.uncopied hthen hunderElse)
      obtain ⟨j', map3, q3, hy3, h3⟩ := forall_mem_singleton.mp hcopyJoin map2 q2 h2.copied
        ((h1.append h2).uncopied hjoin hunderJoin)
      have hmirrors : (Node.branch condition t e join).Mirrors map3.nodes map3.insts (.branch condition t' e' j') :=
        .branch (h1.pairs.imp fun _ _ h => h3.nodes (h2.nodes h)) (h2.pairs.imp fun _ _ h => h3.nodes h)
          (forall₂_cons.mp h3.pairs).1
      obtain ⟨hn3, hto⟩ := ((h1.append h2).append h3).add hfits hrank hx hnode (fun _ => Iff.rfl) hn
        (adds_construct (by rw [blockInsts, hnode])) (hmirrors.mono (subset_append_left _ _) (subset_append_left _ _))
      refine ⟨_, _, _, ?_, hto⟩
      rw [copyNode, yields_get_bind, hnode']
      simp only [yields_bind, yields_pure]
      refine ⟨_, _, hy1, _, _, hy2, _, _, hy3, _, _, rfl, ?_, rfl⟩
      rw [setPartner_of_not_mem hn3, extend, zip_nil_right, append_nil]
    | loop condition body join =>
      obtain ⟨hbody, _, hjoin⟩ := pairwise_append.mp hapart
      obtain ⟨hcopyBody, hcopyJoin⟩ := forall_mem_append.mp hcopy
      obtain ⟨hunderBody, hunderJoin⟩ := forall_mem_append.mp hunder
      obtain ⟨j', map1, q1, hy1, h1⟩ := forall_mem_singleton.mp hcopyJoin map q hcopied hunderJoin
      obtain ⟨body', map2, q2, hy2, h2⟩ := copyEach_yields h1.copied hcopyBody hbody
        (h1.uncopied (fun a ha b hb m hm hm' => hjoin b hb a ha m hm' hm) hunderBody)
      have hmirrors : (Node.loop condition body join).Mirrors map2.nodes map2.insts (.loop condition body' j') :=
        .loop h2.pairs (h2.nodes (forall₂_cons.mp h1.pairs).1)
      obtain ⟨hn2, hto⟩ := (h1.append h2).add hfits hrank hx hnode
        (fun _ => by simp only [Node.children, mem_append, or_comm]) hn
        (adds_construct (by rw [blockInsts, hnode])) (hmirrors.mono (subset_append_left _ _) (subset_append_left _ _))
      refine ⟨_, _, _, ?_, hto⟩
      rw [copyNode, yields_get_bind, hnode']
      simp only [yields_bind, yields_pure]
      refine ⟨_, _, hy1, _, _, hy2, _, _, rfl, ?_, rfl⟩
      rw [setPartner_of_not_mem hn2, extend, zip_nil_right, append_nil]

/-- An instruction stands under a node. -/
def HasUnder (p : Procedure) (n : NodeId) (d : InstData) : Prop :=
  ∃ m, p.Under n m ∧ ∃ i ∈ p.blockInsts m, p.inst? i = some d

/-- A node of a well-formed procedure can be copied with all that is under it. -/
lemma copyPreserving_yields (hverify : p.verify = .ok ()) (hn : n ∈ p.nodesIn p.body) :
    ∃ n' map q, Yields (copyPreserving n) p (n', map) q ∧ (n, n') ∈ map.nodes ∧ p.Copied map q ∧
      (∀ m, m ∈ map.nodes.map (·.1) ↔ p.Under n m) ∧
      (∀ i, i ∈ map.insts.map (·.1) ↔ ∃ m, p.Under n m ∧ i ∈ p.blockInsts m) ∧
      ∀ d, p.HasUnder n d → p.LiveIn (fun _ => False) d.inst.named := by
  obtain ⟨π, rank, hfits, hrank⟩ := exists_ranked_size hverify
  obtain ⟨t, ht⟩ := exists_tree_of_verify hverify
  rw [nodesIn_body ht] at hn
  obtain ⟨x, _, hx⟩ := hfits.place_of_mem ht.roots ht.sound.fits hn
  obtain ⟨n', map, q, hy, hto⟩ := copies_copyNode hfits hrank hx (Nat.le_add_left _ _) {} p (.refl p)
    nofun
  have hkeys : ∀ m, m ∈ map.nodes.map (·.1) ↔ p.Under n m := by simpa using hto.keys
  refine ⟨n', map, q, hy, (forall₂_cons.mp hto.pairs).1, hto.copied, hkeys, fun i => ⟨fun hi => ?_, ?_⟩, ?_⟩
  · obtain ⟨⟨i, i'⟩, hcopy, rfl⟩ := mem_map.mp hi
    obtain ⟨d, b', _, hlisted, hb', _⟩ := hto.copied.data i i' hcopy
    exact ⟨d.block, (hkeys _).mp (mem_map_of_mem hb'), hlisted⟩
  · rintro ⟨m, hm, hi⟩
    obtain ⟨⟨m, m'⟩, hcopy, rfl⟩ := mem_map.mp ((hkeys m).mpr hm)
    obtain ⟨node, node', hnode, _, hmirrors⟩ := hto.copied.mirrors m m' hcopy
    rw [blockInsts, hnode] at hi
    cases hmirrors with
    | block his =>
      rw [← map_fst_zip (Nat.le_of_eq his.length_eq)] at hi
      obtain ⟨⟨i, i'⟩, hpair, rfl⟩ := mem_map.mp hi
      exact mem_map_of_mem ((forall₂_iff_zip.mp his).2 hpair)
    | branch | loop => cases hi
  · rintro d ⟨m, hm, i, hi, hd⟩
    obtain ⟨y, hy, _⟩ := Under.placed hfits hrank hx hm
    exact (hfits.stands m y hy).mentions hi hd

/-! ## Running copies -/

section Running

variable {c : Context} {env : Env} {edge : Option Edge} {n' : NodeId} {is is' : List InstId}

/-- An instruction and its copy are equal but for their blocks. -/
def Alike (p : Procedure) (i i' : InstId) : Prop :=
  ∃ d b', p.inst? i = some d ∧ p.inst? i' = some { d with block := b' }

lemma execInsts_alike {inJoin : Bool} (h : Forall₂ c.proc.Alike is is') :
    c.execInsts inJoin env is' = c.execInsts inJoin env is := by
  induction h generalizing env with
  | nil => rfl
  | cons halike _ ih =>
    obtain ⟨d, b', hd, hd'⟩ := halike
    simp only [Context.execInsts, hd, hd', ih]

lemma joinValues_alike {edge : Edge} (h : Forall₂ c.proc.Alike is is') :
    c.joinValues env edge is' = c.joinValues env edge is := by
  induction h with
  | nil => rfl
  | cons halike _ ih =>
    obtain ⟨⟨inst, _, _⟩, b', hd, hd'⟩ := halike
    cases inst <;> simp only [Context.joinValues, hd, hd', ih]

variable (h : p.Copied map c.proc)
include h

lemma execBlock_copied (hn : (n, n') ∈ map.nodes) : c.execBlock edge env n' = c.execBlock edge env n := by
  have halike : Forall₂ c.proc.Alike (c.proc.blockInsts n) (c.proc.blockInsts n') := by
    obtain ⟨node, node', hnode, hnode', hmirrors⟩ := h.mirrors n n' hn
    have hnode : c.proc.node? n = some node := (h.nodes.old _ (index_lt_of_node? hnode)).trans hnode
    rw [blockInsts, blockInsts, hnode, hnode']
    cases hmirrors with
    | block his =>
      refine his.imp fun i i' hi => ?_
      obtain ⟨d, b', hd, _, _, hd'⟩ := h.data i i' hi
      exact ⟨d, b', (h.insts.old _ (index_lt_of_inst? hd)).trans hd, hd'⟩
    | branch | loop => exact .nil
  cases edge with
  | none => exact execInsts_alike halike
  | some edge => simp only [Context.execBlock, joinValues_alike halike, execInsts_alike halike]

/-- A copy runs like the original. -/
lemma execNode_copied (hn : (n, n') ∈ map.nodes) : c.execNode depth env n' = c.execNode depth env n := by
  induction depth generalizing n n' env with
  | zero => rfl
  | succ depth ih =>
    obtain ⟨node, node', hnode, hnode', hmirrors⟩ := h.mirrors n n' hn
    have hnode : c.proc.node? n = some node := (h.nodes.old _ (index_lt_of_node? hnode)).trans hnode
    rw [Context.execNode, Context.execNode, hnode, hnode']
    have heach : ∀ {cs cs' env}, Forall₂ (fun n n' => (n, n') ∈ map.nodes) cs cs' →
        Context.execEach (c.execNode depth) env cs' = Context.execEach (c.execNode depth) env cs := by
      intro cs cs' env hcs
      induction hcs generalizing env with
      | nil => rfl
      | cons hn _ ih' => simp only [Context.execEach, ih hn, ih']
    cases hmirrors with
    | block => exact execBlock_copied h hn
    | branch ht he hj => simp only [heach ht, heach he, execBlock_copied h hj]
    | loop hb hj => simp only [heach hb, execBlock_copied h hj]

end Running

/-- A node of a well-formed procedure can be copied with all that is under it. The copies are new,
all different, and correspond to the originals one by one, everything else is as before (`Copied`),
and the copy runs like the original. -/
theorem copyPreserving_mirrors (hverify : p.verify = .ok ()) (hn : n ∈ p.nodesIn p.body) :
    ∃ n' map q, (copyPreserving n).run p = (.ok (n', map), q) ∧ (n, n') ∈ map.nodes ∧
      p.Copied map q ∧ (∀ m, m ∈ map.nodes.map (·.1) ↔ p.Under n m) ∧
      (∀ i, i ∈ map.insts.map (·.1) ↔ ∃ m, p.Under n m ∧ i ∈ p.blockInsts m) ∧ ∀ c : Context,
      c.proc = q → ∀ depth env, c.execNode depth env n' = c.execNode depth env n := by
  obtain ⟨n', map, q, hy, hpair, hcopied, hnodes, hinsts, _⟩ := copyPreserving_yields hverify hn
  refine ⟨n', map, q, hy, hpair, hcopied, hnodes, hinsts, ?_⟩
  rintro c rfl depth env
  exact execNode_copied hcopied hpair

theorem copyPreserving_mirrors_nested : nested.verify = .ok () ∧ ⟨2⟩ ∈ nested.nodesIn nested.body ∧
    ∃ n' map q, (copyPreserving ⟨2⟩).run nested = (.ok (n', map), q) ∧ n' = ⟨7⟩ ∧ nested.Copied map q := by
  have hverify : nested.verify = .ok () := by decide +kernel
  have hn : ⟨2⟩ ∈ nested.nodesIn nested.body := by decide +kernel
  obtain ⟨n', map, q, hy, _, hcopied, _⟩ := copyPreserving_mirrors hverify hn
  have hrun : (copyPreserving ⟨2⟩).run nested = (.ok (⟨7⟩, _), _) := rfl
  exact ⟨hverify, hn, n', map, q, hy, congrArg Prod.fst (Yields.unique hy hrun).1, hcopied⟩

end Procedure

end ActorNet
