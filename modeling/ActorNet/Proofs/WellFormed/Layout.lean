import ActorNet.Proofs.Semantics.Limits
import ActorNet.Proofs.Structure.Edits
import ActorNet.Proofs.Structure.Parts

/-!
# The check of procedures with layouts

A procedure that a layout fits passes the check (`Layout.Fits.verify`), so a procedure is well
formed exactly if it has a layout and its parameters are live. The places say what is pending and
what was seen whenever a node is visited.

The check of a procedure follows its nodes from the body through node lists and joins
(`Procedure.Reaches`). It finds that these and their instructions are live, that what the
instructions read and define is live, and that joins list nothing but phis
(`Procedure.checked_of_verify`).
-/

namespace ActorNet

open List Procedure

variable {rest : List (NodeId × Place)} {spared : LocalId → Prop} {fuel : Nat} {node : Node} {id n : NodeId}
  {π : Layout} {x : Place} {p : Procedure} {t : Tree} {v : Visit}

namespace Procedure

open Layout

def condition? (p : Procedure) (n : NodeId) : Option Expr :=
  (p.node? n).bind Node.condition?

/-- The conditions of conditionals and loops read live locals. -/
def TestsLive (p : Procedure) : Prop :=
  ∀ node ∈ p.parts, ∀ c ∈ node.condition?, ∀ v ∈ c.uses, ∀ id ∈ v.local?, (p.local? id).isSome
deriving Decidable

lemma TestsLive.liveIn (h : p.TestsLive) : ∀ node ∈ p.parts, ∀ c ∈ node.condition?, p.LiveIn spared c.uses :=
  fun node hnode c hc id hid => .inr (h node hnode c hc _ hid id rfl)

/-- What a layout says about a state of the check: pending nodes have the places that their marks
say, no node was seen that is still pending, and nodes stand under nodes that were seen. -/
structure Expected (π : Layout) (p : Procedure) (v : Visit) (ps : List (NodeId × Place)) : Prop where
  pending : v.pending = ps.map (fun y => (y.1, y.2.isJoin))
  placed : ∀ y ∈ ps, π y.1 = some y.2
  nodup : (ps.map (·.1) ++ v.nodes).Nodup
  live : ∀ n ∈ v.nodes, ∃ node, p.node? n = some node
  under : ∀ n ∈ ps.map (·.1) ++ v.nodes, ∀ x, π n = some x → ∀ o, x.owner? = some o → o ∈ v.nodes
  insts : ∀ i ∈ v.insts, ∃ d, p.inst? i = some d ∧ d.block ∈ v.nodes

/-- Visiting a node: what it contains becomes pending. Nothing of it was pending or seen, for it
would then stand under a node that was seen. -/
lemma Expected.visit {nodes : List NodeId} {insts insts' : List InstId} {pending : List (NodeId × Bool)}
    (h : Expected π p ⟨pending, nodes, insts⟩ ((id, x) :: rest)) (inside : List (NodeId × Place))
    (hlive : ∃ node, p.node? id = some node) (hplaced : ∀ y ∈ inside, π y.1 = some y.2 ∧ y.2.owner? = some id)
    (hnodup : (inside.map (·.1)).Nodup) (hinsts : ∀ i ∈ insts', i ∈ insts ∨ ∃ d, p.inst? i = some d ∧ d.block = id) :
    Expected π p ⟨(inside ++ rest).map (fun y => (y.1, y.2.isJoin)), id :: nodes, insts'⟩ (inside ++ rest) := by
  have hold := h.nodup
  simp only [map_cons, cons_append, nodup_cons, mem_append, not_or] at hold
  have hnew : ∀ y ∈ inside, y.1 ∉ ((id, x) :: rest).map (·.1) ++ nodes := by
    intro y hy hmem
    exact hold.1.2 (h.under y.1 hmem y.2 (hplaced y hy).1 id (hplaced y hy).2)
  refine ⟨rfl, ?_, ?_, ?_, ?_, ?_⟩
  · intro y hy
    rcases mem_append.mp hy with hy | hy
    · exact (hplaced y hy).1
    · exact h.placed y (mem_cons_of_mem _ hy)
  · rw [map_append, List.append_assoc, nodup_append]
    refine ⟨hnodup, nodup_middle.mpr (nodup_cons.mpr ⟨?_, hold.2⟩), ?_⟩
    · simpa only [mem_append, not_or] using hold.1
    · rintro a ha b hb rfl
      obtain ⟨y, hy, rfl⟩ := mem_map.mp ha
      refine hnew y hy ?_
      simp only [map_cons, cons_append, mem_cons, mem_append] at hb ⊢
      tauto
  · intro n hn
    rcases mem_cons.mp hn with rfl | hn
    · exact hlive
    · exact h.live n hn
  · intro n hn y hplace o ho
    have hmem : n ∈ inside.map (·.1) ∨ n ∈ ((id, x) :: rest).map (·.1) ++ nodes := by
      simp only [map_append, map_cons, cons_append, mem_append, mem_cons] at hn ⊢
      tauto
    rcases hmem with hmem | hmem
    · obtain ⟨z, hz, rfl⟩ := mem_map.mp hmem
      obtain ⟨hz1, hz2⟩ := hplaced z hz
      cases hplace.symm.trans hz1
      cases ho.symm.trans hz2
      exact mem_cons_self
    · exact mem_cons_of_mem id (h.under n hmem y hplace o ho)
  · intro i hi
    rcases hinsts i hi with hi | ⟨d, hd, hblock⟩
    · obtain ⟨d, hd, hblock⟩ := h.insts i hi
      exact ⟨d, hd, mem_cons_of_mem id hblock⟩
    · exact ⟨d, hd, hblock ▸ mem_cons_self⟩

/-- The check succeeds if every node has what its place asks for. -/
lemma verifyFrom_of_expected (hstands : ∀ n x, π n = some x → Stands (fun _ => False) π p n x)
    {ps : List (NodeId × Place)} (h : Expected π p v ps)
    (hfuel : p.nodes.size < fuel + v.nodes.length) : p.verifyFrom fuel v = .ok () := by
  induction fuel generalizing v ps with
  | zero =>
    have hle := Tree.length_le_of_live (nodup_append.mp h.nodup).2.1 h.live
    omega
  | succ fuel ih =>
    obtain ⟨pending, nodes, insts⟩ := v
    obtain rfl := h.pending
    cases ps with
    | nil => rfl
    | cons first rest =>
      obtain ⟨id, x⟩ := first
      have hnew : id ∉ nodes := by
        have hnodup := h.nodup
        simp only [map_cons, cons_append, nodup_cons, mem_append, not_or] at hnodup
        exact hnodup.1.2
      have hs := hstands id x (h.placed (id, x) mem_cons_self)
      obtain ⟨node, hid⟩ := hs.live
      have hok : p.verifyInsts id x.isJoin insts (p.blockInsts id) = .ok ((p.blockInsts id).reverse ++ insts) := by
        refine verifyInsts_eq_ok.mpr ⟨rfl, hs.insts_nodup, fun i hi hmem => ?_, hs.listed⟩
        obtain ⟨d, hd, hblock⟩ := hs.recorded i hi
        obtain ⟨d', hd', hblock'⟩ := h.insts i hmem
        cases hd.symm.trans hd'
        exact hnew (hblock ▸ hblock')
      have hnext : p.verifyNode ⟨((id, x) :: rest).map fun y => (y.1, y.2.isJoin), nodes, insts⟩ id x.isJoin
          (rest.map fun y => (y.1, y.2.isJoin)) =
          .ok ⟨(node.inside id ++ rest).map fun y => (y.1, y.2.isJoin),
            id :: nodes, (p.blockInsts id).reverse ++ insts⟩ :=
        verifyNode_eq_ok.mpr ⟨node, _, hid, hnew, hok, by rw [map_append]⟩
      unfold verifyFrom
      simp only [map_cons] at hnext ⊢
      simp only [hnext]
      refine ih (h.visit _ ⟨_, hid⟩ (fun y hy => ⟨?_, Node.owner_of_mem_inside hy⟩) ?_ fun i hi => ?_) ?_
      · exact hs.placed y (inside_eq hid ▸ hy)
      · rw [← inside_eq hid]
        exact hs.nodup
      · rcases mem_append.mp hi with hi | hi
        · exact .inr (hs.recorded i (mem_reverse.mp hi))
        · exact .inl hi
      · simp only [length_cons] at hfuel ⊢
        omega

end Procedure

namespace Layout.Fits

lemma verify (h : π.Fits (fun _ => False) p) (hparams : ∀ id ∈ p.params, (p.local? id).isSome) : p.verify = .ok () := by
  refine verify_eq_ok.mpr ⟨?_, ?_⟩
  · have hexpected : Procedure.Expected π p { pending := p.body.reverse.map (·, false) }
        (p.body.reverse.map (·, .list .body)) := ?_
    · exact verifyFrom_of_expected h.stands hexpected (by simp)
    refine ⟨?_, ?_, ?_, forall_mem_nil _, ?_, forall_mem_nil _⟩
    · simp [Function.comp_def, Place.isJoin]
    · intro y hy
      simp only [mem_map, mem_reverse] at hy
      obtain ⟨n, hn, rfl⟩ := hy
      exact h.body n hn
    · simpa [Function.comp_def] using h.body_nodup
    · intro n hn x hx o ho
      simp only [List.map_map, Function.comp_def, List.map_id', List.append_nil, mem_reverse] at hn
      cases hx.symm.trans (h.body n hn)
      cases ho
  · intro id hid
    obtain ⟨id', hid', heq⟩ := mem_map.mp hid
    cases heq
    exact .inr (hparams id hid')

/-- An instruction of a tree records the node of the tree that lists it, so no other node lists
it. -/
lemma not_mem_insts (h : π.Fits spared p) (ht : t.Spans p) (hn : π n = some x)
    (hout : n ∉ t.nodes) {i : InstId} (hi : i ∈ p.blockInsts n) : i ∉ t.insts := by
  intro hmem
  rw [← flatMap_blockInsts ht.sound.fits] at hmem
  obtain ⟨m, hm, him⟩ := mem_flatMap.mp hmem
  obtain ⟨y, _, hy⟩ := h.place_of_mem ht.roots ht.sound.fits hm
  obtain ⟨d, hd, hrec⟩ := (h.stands n x hn).recorded i hi
  obtain ⟨d', hd', hrec'⟩ := (h.stands m y hy).recorded i him
  cases hd.symm.trans hd'
  exact hout (hrec ▸ hrec' ▸ hm)

lemma children_placed (h : π.Fits spared p) (hn : π n = some x) (hnode : p.node? n = some node) :
    ∀ c ∈ node.children, ∃ y, π c = some y := by
  intro c hc
  obtain ⟨y, hy⟩ := Node.exists_inside hc
  exact ⟨y, (h.stands n x hn).placed (c, y) (inside_eq hnode ▸ hy)⟩

end Layout.Fits

/-! ## What the check finds out about reached nodes -/

def Inst.stored? : Inst → Option VarRef
  | store target _ _ => some target
  | _ => none

namespace Procedure

/-- A node is reached from the body through node lists and joins. -/
inductive Reaches (p : Procedure) : NodeId → Prop where
  | body {n : NodeId} : n ∈ p.body → Reaches p n
  | child {n c : NodeId} {node : Node} : Reaches p n → p.node? n = some node → c ∈ node.children → Reaches p c

/-- The instructions of a block. -/
def listing (p : Procedure) (n : NodeId) : List InstData :=
  (p.blockInsts n).filterMap p.inst?

/-- What the instructions of a node read, guards of phis included, and the locals that they
define. -/
def operands (p : Procedure) (n : NodeId) : List VarRef :=
  (p.listing n).flatMap (·.inst.named)

/-- What the condition of a node and the predicates of its instructions read, and what its
instructions store to. -/
def tests (p : Procedure) (n : NodeId) : List VarRef :=
  (p.condition? n).toList.flatMap Expr.uses ++
    (p.listing n).flatMap fun d => d.inst.stored?.toList ++ d.predicate.toList.flatMap Expr.uses

def callees (p : Procedure) (n : NodeId) : List ProcId :=
  (p.listing n).filterMap (·.inst.callee?)

variable {p : Procedure}

lemma Reaches.placed {spared : LocalId → Prop} {π : Layout} (hfits : π.Fits spared p) {n : NodeId}
    (h : p.Reaches n) : ∃ x, π n = some x := by
  induction h with
  | body hn => exact ⟨_, hfits.body _ hn⟩
  | child _ hnode hc ih =>
    obtain ⟨x, hx⟩ := ih
    obtain ⟨y, hy⟩ := hfits.children_placed hx hnode _ hc
    exact ⟨y, hy⟩

/-- What the check of a procedure finds out about the nodes that it reaches. -/
structure Checked (p : Procedure) : Prop where
  params : ∀ id ∈ p.params, (p.local? id).isSome
  nodes : ∀ n, p.Reaches n → (p.node? n).isSome
  insts : ∀ n, p.Reaches n → ∀ i ∈ p.blockInsts n, ∃ d, p.inst? i = some d ∧ d.block = n
  locals : ∀ n, p.Reaches n → ∀ id, .loc id ∈ p.operands n → (p.local? id).isSome
  phis : ∀ n, p.Reaches n → ∀ j ∈ p.join? n, ∀ d ∈ p.listing j, d.inst.isPhi = true

lemma checked_of_verify (h : p.verify = .ok ()) : p.Checked := by
  obtain ⟨π, hfits⟩ : ∃ π : Layout, π.Fits (fun _ => False) p := exists_layout h
  -- every node that is reached has a place, and what the place asks for
  have hreached : ∀ n, p.Reaches n → ∃ x, Layout.Stands (fun _ => False) π p n x := fun n hn =>
    (hn.placed hfits).imp fun x hx => hfits.stands n x hx
  refine ⟨params_live_of_verify h, fun n hn => ?_, fun n hn => ?_, fun n hn id hid => ?_, fun n hn j hj d hd => ?_⟩
  all_goals obtain ⟨x, hx⟩ := hreached n hn
  · obtain ⟨node, hnode⟩ := hx.live
    exact Option.isSome_of_eq_some hnode
  · exact hx.recorded
  · obtain ⟨d, hd, hnamed⟩ := mem_flatMap.mp hid
    obtain ⟨i, hi, hinst⟩ := mem_filterMap.mp hd
    exact (hx.mentions hi hinst id hnamed).resolve_left not_false
  · obtain ⟨i, hi, hinst⟩ := mem_filterMap.mp hd
    have hinside : (j, .join n) ∈ p.inside n := by
      obtain ⟨node, hnode⟩ := hx.live
      rw [join?, hnode, bind_some] at hj
      rw [inside_eq hnode]
      cases node <;> cases hj <;> exact mem_cons_self
    obtain ⟨d', hd', _, hphi, _⟩ := (hfits.stands j _ (hx.placed _ hinside)).listed i hi
    cases hinst.symm.trans hd'
    exact hphi rfl

end Procedure

end ActorNet
