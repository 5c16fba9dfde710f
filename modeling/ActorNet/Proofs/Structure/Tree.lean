import ActorNet.Proofs.Semantics.Code
import Mathlib.Data.List.Basic
import Mathlib.Data.List.Nodup
import Mathlib.Data.List.Perm.Subperm
import Mathlib.Tactic.MkIffOfInductiveProp

/-!
# Containment trees

The nodes of a procedure stand in a table and name each other by handles. `Tree` is the containment
tree that they form: the handles of a node list with everything under it. `Tree.Sound p t` says that
the tables of `p` hold the tree `t` as a well-formed procedure does, and that no node and no
instruction is in it twice. `Tree.code p t` reads the code of the tree off the tables; it depends
only on the slots that the tree names (`code_congr`).
-/

namespace ActorNet

open List Procedure

variable {i : InstId} {p q : Procedure}

/-- A node list with everything under it. -/
inductive Tree where
  | nil
  | block (id : NodeId) (insts : List InstId) (rest : Tree)
  | branch (id : NodeId) (thenTree elseTree : Tree) (join : NodeId) (phis : List InstId) (rest : Tree)
  | loop (id : NodeId) (body : Tree) (join : NodeId) (phis : List InstId) (rest : Tree)

variable {t : Tree}

variable {id n : NodeId}

namespace Procedure

/-- An instruction of a procedure with its predicate. -/
def line? (p : Procedure) (id : InstId) : Option (Inst × Option Expr) :=
  (p.inst? id).map fun d => (d.inst, d.predicate)

def phi? (p : Procedure) (id : InstId) : Option Phi :=
  match p.inst? id with
  | some ⟨.phi target arms, _, _⟩ => some ⟨target, arms⟩
  | _ => none

lemma phi?_eq_some {id : InstId} {phi : Phi} : p.phi? id = some phi ↔
    ∃ block predicate, p.inst? id = some ⟨.phi phi.target phi.arms, block, predicate⟩ := by
  unfold phi?
  constructor
  · intro h
    split at h
    · rename_i target arms block predicate hi
      cases h
      exact ⟨block, predicate, hi⟩
    · cases h
  · intro ⟨block, predicate, hi⟩
    rw [hi]

lemma blockInsts_eq {insts : List InstId} (h : p.node? id = some (.block insts)) :
    p.blockInsts id = insts := by
  rw [blockInsts, h]

lemma isBlock_iff : p.isBlock n = true ↔ ∃ is, p.node? n = some (.block is) := by
  rw [isBlock]
  rcases p.node? n with _ | _ | _ | _ <;> simp [Node.isBlock]

lemma blockInsts_of_not_isBlock (h : ¬ p.isBlock n = true) : p.blockInsts n = [] := by
  unfold blockInsts
  split
  · exact absurd (isBlock_iff.mpr ⟨_, ‹_›⟩) h
  · rfl

def condition (p : Procedure) (id : NodeId) : Expr :=
  ((p.node? id).bind Node.condition?).getD (.bool false)

end Procedure

namespace Tree

/-- The nodes of the list itself. -/
def roots : Tree → List NodeId
  | nil => []
  | block id _ rest => id :: rest.roots
  | branch id _ _ _ _ rest => id :: rest.roots
  | loop id _ _ _ rest => id :: rest.roots

def listed : Tree → List NodeId
  | nil => []
  | block id _ rest => id :: rest.listed
  | branch id t e _ _ rest => id :: (t.listed ++ e.listed ++ rest.listed)
  | loop id body _ _ rest => id :: (body.listed ++ rest.listed)

def nodes : Tree → List NodeId
  | nil => []
  | block id _ rest => id :: rest.nodes
  | branch id t e join _ rest => id :: (t.nodes ++ e.nodes ++ join :: rest.nodes)
  | loop id body join _ rest => id :: join :: (body.nodes ++ rest.nodes)

def insts : Tree → List InstId
  | nil => []
  | block _ insts rest => insts ++ rest.insts
  | branch _ t e _ phis rest => t.insts ++ e.insts ++ phis ++ rest.insts
  | loop _ body _ phis rest => phis ++ body.insts ++ rest.insts

def joins : Tree → List (NodeId × List InstId)
  | nil => []
  | block _ _ rest => rest.joins
  | branch _ t e join phis rest => t.joins ++ e.joins ++ (join, phis) :: rest.joins
  | loop _ body join phis rest => (join, phis) :: (body.joins ++ rest.joins)

def blocks : Tree → List (NodeId × List InstId)
  | nil => []
  | block id insts rest => (id, insts) :: rest.blocks
  | branch _ t e join phis rest => t.blocks ++ e.blocks ++ (join, phis) :: rest.blocks
  | loop _ body join phis rest => (join, phis) :: (body.blocks ++ rest.blocks)

/-- How deep nodes are nested, where every list inside of a node counts as if it held a block. -/
def height : Tree → Nat
  | nil => 0
  | block _ _ rest => max 1 rest.height
  | branch _ t e _ _ rest => max (max (max t.height e.height) 1 + 1) rest.height
  | loop _ body _ _ rest => max (max body.height 1 + 1) rest.height

/-- One list after another. -/
def append : Tree → Tree → Tree
  | nil, u => u
  | block id insts rest, u => block id insts (rest.append u)
  | branch id t e join phis rest, u => branch id t e join phis (rest.append u)
  | loop id body join phis rest, u => loop id body join phis (rest.append u)

abbrev thenBlock (t : Tree) (id : NodeId) (insts : List InstId) (u : Tree) : Tree :=
  t.append ((block id insts nil).append u)

/-- The tables of a procedure hold the tree. -/
def Fits (p : Procedure) : Tree → Prop
  | nil => True
  | block id insts rest => p.node? id = some (.block insts) ∧ rest.Fits p
  | branch id t e join phis rest =>
    (∃ c, p.node? id = some (.branch c t.roots e.roots join)) ∧ t.Fits p ∧ e.Fits p ∧
      p.blockInsts join = phis ∧ rest.Fits p
  | loop id body join phis rest =>
    (∃ c, p.node? id = some (.loop c body.roots join)) ∧ body.Fits p ∧ p.blockInsts join = phis ∧ rest.Fits p

def code (p : Procedure) : Tree → Code
  | nil => .done
  | block _ insts rest => (Code.ofLines (insts.filterMap p.line?)).append (rest.code p)
  | branch id t e _ phis rest => .branch (p.condition id) (t.code p) (e.code p) (phis.filterMap p.phi?) (rest.code p)
  | loop id body _ phis rest => .loop (p.condition id) (body.code p) (phis.filterMap p.phi?) (rest.code p)

/-- The tables of a procedure hold the tree, all its nodes are live, every instruction records the
block that lists it, and joins hold nothing but phis. -/
@[mk_iff] structure Held (p : Procedure) (t : Tree) : Prop where
  fits : t.Fits p
  live : ∀ n ∈ t.nodes, ∃ node, p.node? n = some node
  recorded : ∀ b ∈ t.blocks, ∀ i ∈ b.2, ∃ d, p.inst? i = some d ∧ d.block = b.1
  phis : ∀ b ∈ t.joins, ∀ i ∈ b.2, ∃ phi, p.phi? i = some phi

/-- A held tree in which nothing is twice. -/
@[mk_iff] structure Sound (p : Procedure) (t : Tree) : Prop extends Held p t where
  nodes_nodup : t.nodes.Nodup
  insts_nodup : t.insts.Nodup

/-- A sound tree of the whole body. -/
structure Spans (p : Procedure) (t : Tree) : Prop where
  roots : t.roots = p.body
  sound : t.Sound p

/-! ## Lists after lists -/

section Append

-- its equations are made here, before all the lemmas ask for them
attribute [local simp] append

@[simp] lemma append_nil (t : Tree) : t.append nil = t := by
  induction t with
  | nil => rfl
  | block id insts rest ih | branch id t e join phis rest _ _ ih | loop id body join phis rest _ ih => rw [append, ih]

lemma append_assoc (t u v : Tree) : (t.append u).append v = t.append (u.append v) := by
  induction t with
  | nil => rfl
  | block id insts rest ih | branch id t e join phis rest _ _ ih | loop id body join phis rest _ ih =>
    rw [append, append, append, ih]

@[simp] lemma roots_append (t u : Tree) : (t.append u).roots = t.roots ++ u.roots := by
  induction t with
  | nil => rfl
  | block id insts rest ih | branch id t e join phis rest _ _ ih | loop id body join phis rest _ ih =>
    rw [append, roots, roots, ih, cons_append]

@[simp] lemma nodes_append (t u : Tree) : (t.append u).nodes = t.nodes ++ u.nodes := by
  induction t with
  | nil => rfl
  | block id insts rest ih => simp only [append, nodes, ih, cons_append]
  | branch id t e join phis rest _ _ ih | loop id body join phis rest _ ih =>
    simp only [append, nodes, ih, List.append_assoc, cons_append]

@[simp] lemma insts_append (t u : Tree) : (t.append u).insts = t.insts ++ u.insts := by
  induction t with
  | nil => rfl
  | block id insts rest ih => simp only [append, Tree.insts, ih, List.append_assoc]
  | branch id t e join phis rest _ _ ih | loop id body join phis rest _ ih => simp only [append,
      insts, ih, List.append_assoc]

@[simp] lemma joins_append (t u : Tree) : (t.append u).joins = t.joins ++ u.joins := by
  induction t with
  | nil => rfl
  | block id insts rest ih => simp only [append, joins, ih]
  | branch id t e join phis rest _ _ ih | loop id body join phis rest _ ih =>
    simp only [append, joins, ih, List.append_assoc, cons_append]

@[simp] lemma blocks_append (t u : Tree) : (t.append u).blocks = t.blocks ++ u.blocks := by
  induction t with
  | nil => rfl
  | block id insts rest ih => simp only [append, blocks, ih, cons_append]
  | branch id t e join phis rest _ _ ih | loop id body join phis rest _ ih =>
    simp only [append, blocks, ih, List.append_assoc, cons_append]

@[simp] lemma height_append (t u : Tree) : (t.append u).height = max t.height u.height := by
  induction t with
  | nil => simp [height]
  | block id insts rest ih | branch id t e join phis rest _ _ ih | loop id body join phis rest _ ih =>
    simp only [append, height, ih, Nat.max_assoc]

@[simp] lemma fits_append (p : Procedure) (t u : Tree) : (t.append u).Fits p ↔ t.Fits p ∧ u.Fits p := by
  induction t with
  | nil => simp [Fits]
  | block id insts rest ih | branch id t e join phis rest _ _ ih | loop id body join phis rest _ ih =>
    simp only [append, Fits, ih, and_assoc]

@[simp] lemma code_append (p : Procedure) (t u : Tree) : (t.append u).code p = (t.code p).append (u.code p) := by
  induction t with
  | nil => rfl
  | block id insts rest ih => rw [append, code, code, ih, Code.append_assoc]
  | branch id t e join phis rest _ _ ih | loop id body join phis rest _ ih => rw [append, code, code, ih, Code.append]

end Append

/-! ## What a tree names -/

lemma roots_sublist_nodes (t : Tree) : t.roots.Sublist t.nodes := by
  induction t with
  | nil => exact .slnil
  | block id insts rest ih => exact ih.cons_cons id
  | branch id t e join phis rest _ _ ih => exact ((ih.cons join).trans (sublist_append_right _ _)).cons_cons id
  | loop id body join phis rest _ ih => exact ((ih.trans (sublist_append_right _ _)).cons join).cons_cons id

lemma nodes_perm (t : Tree) : t.nodes.Perm (t.listed ++ t.joins.map (·.1)) := by
  rw [perm_iff_count]
  intro n
  induction t with
  | nil => rfl
  | block id insts rest ih => rw [nodes, listed, joins, cons_append, count_cons, count_cons, ih]
  | branch id t e join phis rest iht ihe ih | loop id body join phis rest ihb ih =>
    simp only [nodes, listed, joins, map_append, map_cons, cons_append, count_append, count_cons, *]
    omega

lemma mem_nodes_of_listed (hn : n ∈ t.listed) : n ∈ t.nodes :=
  t.nodes_perm.mem_iff.mpr (mem_append_left _ hn)

lemma join_mem_nodes {b : NodeId × List InstId} (hb : b ∈ t.joins) : b.1 ∈ t.nodes :=
  t.nodes_perm.mem_iff.mpr (mem_append_right _ (mem_map_of_mem hb))

lemma mem_insts_iff : i ∈ t.insts ↔ ∃ b ∈ t.blocks, i ∈ b.2 := by
  induction t with
  | nil => simp [insts, blocks]
  | block id insts rest ih => simp [Tree.insts, blocks, ih]
  | branch id t e join phis rest iht ihe ih =>
    simp only [insts, blocks, mem_append, mem_cons, iht, ihe, ih, or_and_right, exists_or, or_assoc,
      exists_eq_left]
  | loop id body join phis rest ihb ih =>
    simp only [insts, blocks, mem_append, mem_cons, ihb, ih, or_and_right, exists_or, or_assoc,
      exists_eq_left]

lemma joins_subset_blocks (t : Tree) : t.joins ⊆ t.blocks := by
  induction t with
  | nil => exact List.Subset.refl _
  | block id insts rest ih => exact subset_cons_of_subset _ ih
  | branch id t e join phis rest iht ihe ih =>
    intro b hb
    simp only [joins, blocks, mem_append, mem_cons] at hb ⊢
    rcases hb with (hb | hb) | hb | hb
    · exact .inl (.inl (iht hb))
    · exact .inl (.inr (ihe hb))
    · exact .inr (.inl hb)
    · exact .inr (.inr (ih hb))
  | loop id body join phis rest ihb ih =>
    intro b hb
    simp only [joins, blocks, mem_append, mem_cons] at hb ⊢
    rcases hb with hb | hb | hb
    · exact .inl hb
    · exact .inr (.inl (ihb hb))
    · exact .inr (.inr (ih hb))

lemma height_le_length_nodes (t : Tree) : t.height ≤ t.nodes.length := by
  induction t with
  | nil => exact Nat.le_refl _
  | block id insts rest ih =>
    simp only [height, nodes, length_cons]
    omega
  | branch | loop =>
    simp only [height, nodes, length_cons, length_append]
    omega

lemma length_le_of_live {ns : List NodeId} (hnodup : ns.Nodup)
    (hlive : ∀ n ∈ ns, ∃ node, p.node? n = some node) : ns.length ≤ p.nodes.size := by
  have hnodup' : (ns.map NodeId.index).Nodup := by
    refine List.Nodup.map ?_ hnodup
    intro m n hmn
    cases m
    cases n
    exact congrArg NodeId.mk hmn
  have hsub : ns.map NodeId.index ⊆ List.range p.nodes.size := by
    intro i hi
    obtain ⟨n, hn, rfl⟩ := mem_map.mp hi
    obtain ⟨node, hnode⟩ := hlive n hn
    exact mem_range.mpr (Arena.lt_size_of_get? hnode)
  have hle := (List.Nodup.subperm hnodup' hsub).length_le
  rw [length_map, length_range] at hle
  exact hle

lemma Sound.length_nodes_le (h : t.Sound p) : t.nodes.length ≤ p.nodes.size :=
  length_le_of_live h.nodes_nodup h.live

lemma Sound.height_le (h : t.Sound p) : t.height ≤ p.nodes.size :=
  Nat.le_trans t.height_le_length_nodes h.length_nodes_le

/-! ## Only named slots matter -/

lemma blockInsts_congr (h : q.node? id = p.node? id) : q.blockInsts id = p.blockInsts id := by
  rw [blockInsts, blockInsts, h]

lemma line?_congr (h : q.inst? i = p.inst? i) : q.line? i = p.line? i := by
  rw [line?, line?, h]

lemma phi?_congr (h : q.inst? i = p.inst? i) : q.phi? i = p.phi? i := by
  rw [phi?, phi?, h]

lemma fits_congr (hn : ∀ n ∈ t.nodes, q.node? n = p.node? n) (h : t.Fits p) : t.Fits q := by
  induction t with
  | nil => exact trivial
  | block id insts rest ih =>
    simp only [Fits, nodes, mem_cons, forall_eq_or_imp] at h hn ⊢
    rw [hn.1]
    exact ⟨h.1, ih hn.2 h.2⟩
  | branch id t e join phis rest iht ihe ih =>
    simp only [Fits, nodes, mem_cons, mem_append, forall_eq_or_imp] at h hn ⊢
    obtain ⟨hc, ht, he, hj, hr⟩ := h
    obtain ⟨hid, hn⟩ := hn
    rw [hid, blockInsts_congr (hn join (.inr (.inl rfl)))]
    exact ⟨hc, iht (fun n h => hn n (.inl (.inl h))) ht, ihe (fun n h => hn n (.inl (.inr h))) he,
      hj, ih (fun n h => hn n (.inr (.inr h))) hr⟩
  | loop id body join phis rest ihb ih =>
    simp only [Fits, nodes, mem_cons, mem_append, forall_eq_or_imp] at h hn ⊢
    obtain ⟨hc, hb, hj, hr⟩ := h
    obtain ⟨hid, hjoin, hn⟩ := hn
    rw [hid, blockInsts_congr hjoin]
    exact ⟨hc, ihb (fun n h => hn n (.inl h)) hb, hj, ih (fun n h => hn n (.inr h)) hr⟩

lemma code_congr (hn : ∀ n ∈ t.nodes, q.node? n = p.node? n)
    (hi : ∀ i ∈ t.insts, q.inst? i = p.inst? i) : t.code q = t.code p := by
  induction t with
  | nil => rfl
  | block id insts rest ih =>
    simp only [nodes, Tree.insts, mem_cons, mem_append, forall_eq_or_imp] at hn hi
    rw [code, code, ih hn.2 fun i h => hi i (.inr h),
      filterMap_congr fun i h => line?_congr (hi i (.inl h))]
  | branch id t e join phis rest iht ihe ih =>
    simp only [nodes, insts, mem_cons, mem_append, forall_eq_or_imp] at hn hi
    obtain ⟨hid, hn⟩ := hn
    rw [code, code, condition, condition, hid,
      iht (fun n h => hn n (.inl (.inl h))) (fun i h => hi i (.inl (.inl (.inl h)))),
      ihe (fun n h => hn n (.inl (.inr h))) (fun i h => hi i (.inl (.inl (.inr h)))),
      ih (fun n h => hn n (.inr (.inr h))) (fun i h => hi i (.inr h)),
      filterMap_congr fun i h => phi?_congr (hi i (.inl (.inr h)))]
  | loop id body join phis rest ihb ih =>
    simp only [nodes, insts, mem_cons, mem_append, forall_eq_or_imp] at hn hi
    obtain ⟨hid, _, hn⟩ := hn
    rw [code, code, condition, condition, hid,
      ihb (fun n h => hn n (.inl h)) (fun i h => hi i (.inl (.inr h))),
      ih (fun n h => hn n (.inr h)) (fun i h => hi i (.inr h)),
      filterMap_congr fun i h => phi?_congr (hi i (.inl (.inl h)))]

lemma Held.congr (h : t.Held p) (hn : ∀ n ∈ t.nodes, q.node? n = p.node? n)
    (hi : ∀ i ∈ t.insts, q.inst? i = p.inst? i) : t.Held q where
  fits := fits_congr hn h.fits
  live := by
    intro n hmem
    rw [hn n hmem]
    exact h.live n hmem
  recorded := by
    intro b hb i hib
    rw [hi i (mem_insts_iff.mpr ⟨b, hb, hib⟩)]
    exact h.recorded b hb i hib
  phis := by
    intro b hb i hib
    rw [phi?_congr (hi i (mem_insts_iff.mpr ⟨b, joins_subset_blocks t hb, hib⟩))]
    exact h.phis b hb i hib

lemma Sound.congr (h : t.Sound p) (hn : ∀ n ∈ t.nodes, q.node? n = p.node? n)
    (hi : ∀ i ∈ t.insts, q.inst? i = p.inst? i) : t.Sound q :=
  ⟨h.toHeld.congr hn hi, h.nodes_nodup, h.insts_nodup⟩

end Tree

end ActorNet
