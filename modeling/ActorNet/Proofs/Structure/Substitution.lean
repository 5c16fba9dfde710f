import ActorNet.Proofs.Semantics.Substitution
import ActorNet.Proofs.Structure.Sites

/-!
# Procedures whose reads follow a substitution

Replacing a local everywhere in a procedure is a substitution (`yields_replaceUses`). It leaves the
node lists as they are, and the code of a tree follows it (`Tree.code_subst`). So a transformation
that replaces locals changes a list in place up to a substitution of the whole procedure, and such
changes compose (`Rewrites.subst`).
-/

namespace ActorNet

open Procedure

namespace Arena

variable {α : Type}

lemma map_id' {f : α → α} (h : ∀ x, f x = x) (a : Arena α) : a.map f = a := by
  obtain ⟨slots⟩ := a
  have hmap : Option.map f = id := funext fun x => by
    cases x with
    | none => rfl
    | some x => exact congrArg some (h x)
  rw [map, hmap, Array.map_id]

lemma map_map (f g : α → α) (a : Arena α) : (a.map f).map g = a.map fun x => g (f x) := by
  rw [map, map, map, Array.map_map]
  congr 2
  funext x
  cases x <;> rfl

end Arena

def InstData.subst (σ : Subst) (d : InstData) : InstData :=
  { d with inst := d.inst.subst σ, predicate := d.predicate.map (Expr.subst σ) }

def Node.subst (σ : Subst) : Node → Node
  | block insts => block insts
  | branch condition t e join => branch (condition.subst σ) t e join
  | loop condition body join => loop (condition.subst σ) body join

namespace InstData

lemma replaceUse_loc (old : LocalId) (new : VarRef) (d : InstData) :
    (d.replaceUse (.loc old) new).1 = d.subst (.single old new) := by
  obtain ⟨inst, block, predicate⟩ := d
  cases predicate <;> simp only [replaceUse, subst, Inst.replaceUse_fst, map_none, map_some, Expr.replaceVar_fst]

lemma subst_id (d : InstData) : d.subst .id = d := by
  obtain ⟨inst, block, predicate⟩ := d
  cases predicate <;> simp only [subst, Inst.subst_id, map_none, map_some, Expr.subst_id]

lemma subst_subst (σ τ : Subst) (d : InstData) : (d.subst σ).subst τ = d.subst (σ.andThen τ) := by
  obtain ⟨inst, block, predicate⟩ := d
  cases predicate <;> simp only [subst, Inst.subst_subst, map_none, map_some, Expr.subst_subst]

end InstData

namespace Node

lemma replaceUse_loc (old : LocalId) (new : VarRef) (node : Node) :
    (node.replaceUse (.loc old) new).1 = node.subst (.single old new) := by
  cases node with
  | block insts => rfl
  | branch | loop => simp only [replaceUse, subst, Expr.replaceVar_fst]

lemma subst_id (node : Node) : node.subst .id = node := by
  cases node with
  | block insts => rfl
  | branch | loop => rw [subst, Expr.subst_id]

lemma subst_subst (σ τ : Subst) (node : Node) : (node.subst σ).subst τ = node.subst (σ.andThen τ) := by
  cases node with
  | block insts => rfl
  | branch | loop => simp only [subst, Expr.subst_subst]

end Node

namespace Procedure

def subst (σ : Subst) (p : Procedure) : Procedure :=
  { p with insts := p.insts.map (InstData.subst σ), nodes := p.nodes.map (Node.subst σ) }

variable (σ τ : Subst) (p : Procedure)

@[simp] lemma inst?_subst (i : InstId) : (p.subst σ).inst? i = (p.inst? i).map (InstData.subst σ) :=
  Arena.get?_map _ _ _

@[simp] lemma node?_subst (n : NodeId) : (p.subst σ).node? n = (p.node? n).map (Node.subst σ) :=
  Arena.get?_map _ _ _

@[simp] lemma size_insts_subst : (p.subst σ).insts.size = p.insts.size :=
  Arena.size_map _ _

@[simp] lemma size_nodes_subst : (p.subst σ).nodes.size = p.nodes.size :=
  Arena.size_map _ _

lemma subst_id : p.subst .id = p := by
  rw [subst, Arena.map_id' InstData.subst_id, Arena.map_id' Node.subst_id]

lemma subst_subst : (p.subst σ).subst τ = p.subst (σ.andThen τ) := by
  simp only [subst, Arena.map_map, InstData.subst_subst, Node.subst_subst]

/-- Replacing a local everywhere is a substitution. -/
theorem yields_replaceUses {p p' : Procedure} {old : LocalId} {new : VarRef} {n : Nat}
    (h : Yields (replaceUses (.loc old) new) p n p') : p' = p.subst (.single old new) := by
  simp only [replaceUses, yields_modifyGet, InstData.replaceUse_loc, Node.replaceUse_loc] at h
  exact h.2

lemma blockInsts_subst (n : NodeId) : (p.subst σ).blockInsts n = p.blockInsts n := by
  rw [blockInsts, blockInsts, node?_subst]
  rcases p.node? n with _ | _ | _ | _ <;> rfl

lemma isBlock_subst (n : NodeId) : (p.subst σ).isBlock n = p.isBlock n := by
  rw [isBlock, isBlock, node?_subst]
  rcases p.node? n with _ | _ | _ | _ <;> rfl

lemma line?_subst (i : InstId) : (p.subst σ).line? i = (p.line? i).map (substLine σ) := by
  rw [line?, line?, inst?_subst, Option.map_map, Option.map_map]
  rfl

lemma phi?_subst (i : InstId) : (p.subst σ).phi? i = (p.phi? i).map (Phi.subst σ) := by
  rw [phi?, phi?, inst?_subst]
  cases p.inst? i with
  | none => rfl
  | some d =>
    obtain ⟨inst, block, predicate⟩ := d
    cases inst <;> rfl

lemma condition_subst (n : NodeId) : (p.subst σ).condition n = (p.condition n).subst σ := by
  rw [condition, condition, node?_subst]
  rcases p.node? n with _ | _ | _ | _ <;> rfl

lemma listNodes_subst (L : NodeList) : (p.subst σ).listNodes L = p.listNodes L := by
  cases L with
  | body => rfl
  | thenOf n | elseOf n | bodyOf n =>
    simp only [listNodes, node?_subst]
    cases p.node? n with
    | none => rfl
    | some node => cases node <;> rfl

lemma around?_subst (L : NodeList) : (p.subst σ).around? L = (p.around? L).map (Option.map (Node.subst σ)) := by
  cases L with
  | body => rfl
  | thenOf n | elseOf n | bodyOf n =>
    simp only [around?, node?_subst]
    cases p.node? n with
    | none => rfl
    | some node => cases node <;> rfl

end Procedure

/-! ## Trees -/

namespace Tree

variable {p p' : Procedure} {t : Tree}

lemma Fits.subst (h : t.Fits p) (σ : Subst) : t.Fits (p.subst σ) := by
  induction t with
  | nil => exact trivial
  | block id insts rest ih =>
    refine ⟨?_, ih h.2⟩
    rw [node?_subst, h.1]
    rfl
  | branch id t e join phis rest iht ihe ih =>
    obtain ⟨⟨c, hc⟩, ht, he, hj, hr⟩ := h
    refine ⟨⟨c.subst σ, ?_⟩, iht ht, ihe he, (blockInsts_subst σ p join).trans hj, ih hr⟩
    rw [node?_subst, hc]
    rfl
  | loop id body join phis rest ihb ih =>
    obtain ⟨⟨c, hc⟩, hb, hj, hr⟩ := h
    refine ⟨⟨c.subst σ, ?_⟩, ihb hb, (blockInsts_subst σ p join).trans hj, ih hr⟩
    rw [node?_subst, hc]
    rfl

lemma Sound.subst (h : t.Sound p) (σ : Subst) : t.Sound (p.subst σ) where
  fits := h.fits.subst σ
  live := by
    intro n hn
    obtain ⟨node, hnode⟩ := h.live n hn
    exact ⟨node.subst σ, by rw [node?_subst, hnode, map_some]⟩
  recorded := by
    intro b hb i hi
    obtain ⟨d, hd, hblock⟩ := h.recorded b hb i hi
    exact ⟨d.subst σ, by rw [inst?_subst, hd, map_some], hblock⟩
  phis := by
    intro b hb i hi
    obtain ⟨φ, hφ⟩ := h.phis b hb i hi
    exact ⟨φ.subst σ, by rw [phi?_subst, hφ, map_some]⟩
  nodes_nodup := h.nodes_nodup
  insts_nodup := h.insts_nodup

lemma code_subst (σ : Subst) (p : Procedure) (t : Tree) : t.code (p.subst σ) = (t.code p).subst σ := by
  have hphis : ∀ ids : List InstId, ids.filterMap (p.subst σ).phi? = (ids.filterMap p.phi?).map (Phi.subst σ) := by
    intro ids
    rw [List.map_filterMap]
    exact List.filterMap_congr fun i _ => phi?_subst σ p i
  induction t with
  | nil => rfl
  | block id insts rest ih =>
    have hlines : insts.filterMap (p.subst σ).line? = (insts.filterMap p.line?).map (substLine σ) := by
      rw [List.map_filterMap]
      exact List.filterMap_congr fun i _ => line?_subst σ p i
    rw [code, code, Code.subst_append, Code.subst_ofLines, ih, hlines]
  | branch id t e join phis rest iht ihe ih => simp only [code, Code.subst, iht, ihe, ih, hphis, condition_subst]
  | loop id body join phis rest ihb ih => simp only [code, Code.subst, ihb, ih, hphis, condition_subst]

lemma Stays.subst (h : t.Stays p p') (σ : Subst) : t.Stays (p.subst σ) (p'.subst σ) := by
  refine ⟨?_, fun i hi => ?_⟩
  · rw [code_subst, code_subst, h.code]
  · rw [inst?_subst, inst?_subst, h.insts i hi]

end Tree

/-! ## Lists -/

variable {L : NodeList} {t t' : Tree} {p p' : Procedure}

lemma ListAt.subst (h : ListAt L t p) (σ : Subst) : ListAt L t (p.subst σ) where
  sound := h.sound.subst σ
  nodes := (listNodes_subst σ p L).trans h.nodes
  around := by
    obtain ⟨a, ha⟩ := h.around
    exact ⟨a.map (Node.subst σ), by rw [around?_subst, ha, map_some]⟩
  owner := h.owner

lemma Edits.subst {N : List NodeId} {I : List InstId} (h : Edits N I p p') (σ : Subst) :
    Edits N I (p.subst σ) (p'.subst σ) where
  nodes := by
    intro n hn hlt
    rw [size_nodes_subst] at hlt
    rw [node?_subst, node?_subst, h.nodes n hn hlt]
  insts := by
    intro i hi hlt
    rw [size_insts_subst] at hlt
    rw [inst?_subst, inst?_subst, h.insts i hi hlt]
  nodes_size := by
    rw [size_nodes_subst, size_nodes_subst]
    exact h.nodes_size
  insts_size := by
    rw [size_insts_subst, size_insts_subst]
    exact h.insts_size
  params := h.params
  native := h.native
  locals := h.locals
  temps := h.temps

lemma Rewrites.subst (h : Rewrites L t t' p p') (σ : Subst) : Rewrites L t t' (p.subst σ) (p'.subst σ) where
  list := h.list.subst σ
  around := by rw [around?_subst, around?_subst, h.around]
  body := h.body
  edits := h.edits.subst σ
  nodes := by
    rw [size_nodes_subst]
    exact h.nodes
  insts := by
    rw [size_insts_subst]
    exact h.insts
  joins := by
    intro b hb
    refine (h.joins b hb).imp (fun hblock => ?_) (And.imp_right fun hsame => ?_)
    · rw [isBlock_subst]
      exact hblock
    · rw [node?_subst, node?_subst, hsame]

lemma SiteKept.subst {id join : NodeId} {phis : List InstId} {r : Tree} {s s' : Site}
    (h : SiteKept L id join phis r s s' p p') (σ : Subst) :
    SiteKept L id join phis r s s' (p.subst σ) (p'.subst σ) where
  rewrites := h.rewrites.subst σ
  condition := by rw [condition_subst, condition_subst, h.condition]
  after := h.after.subst σ
  phis := by
    intro i hi
    rw [inst?_subst, inst?_subst, h.phis i hi]

end ActorNet
