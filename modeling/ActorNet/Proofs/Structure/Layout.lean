import ActorNet.Proofs.Structure.Tree
import Mathlib.Logic.Function.Basic

/-!
# Layouts of procedures

A layout says where each node of a procedure stands: in a node list, or as the join of a construct.
A layout fits a procedure if every node has what its place asks for, which can be said of each node
on its own (`Layout.Stands`): no node can then be in two places. Some locals may be spared: they may
be named though they are not live.

The check of a procedure works off a list of pending nodes. If it succeeds, a layout fits the
procedure (`Procedure.exists_layout`), in which every node comes before what it contains
(`Layout.Ranked`).

A tree places its nodes (`Tree.places`), and in a layout they have these places (`Tree.placed`).
-/

namespace ActorNet

open List Procedure
open Function (comp_def update_of_ne update_self)

/-! ## Live locals -/

variable {spared : LocalId → Prop} {vars vars' : List VarRef} {p p' : Procedure} {c : Code}

/-- The variables that an instruction reads, and the local that it defines. -/
def Inst.named (i : Inst) : List VarRef :=
  i.uses ++ (i.def?.map VarRef.loc).toList

namespace Procedure

/-- All locals among the variables are live, or spared. -/
def LiveIn (spared : LocalId → Prop) (p : Procedure) (vars : List VarRef) : Prop :=
  ∀ id, VarRef.loc id ∈ vars → spared id ∨ (p.local? id).isSome

/-- Locals that are live stay live. -/
def KeepsLive (p p' : Procedure) : Prop := ∀ id, (p.local? id).isSome → (p'.local? id).isSome

/-- The counter of temporaries has grown by no more than the square of the number of locals. -/
def BoundsTemps (p p' : Procedure) : Prop :=
  p'.nextTemp + p.locals.size * p.locals.size ≤ p.nextTemp + p'.locals.size * p'.locals.size

lemma BoundsTemps.trans {q : Procedure} (h : p.BoundsTemps q) (h' : q.BoundsTemps p') : p.BoundsTemps p' := by
  unfold BoundsTemps at *
  omega

lemma KeepsLive.of_eq (h : p'.locals = p.locals) : p.KeepsLive p' := by
  intro id hid
  rw [local?, h]
  exact hid

lemma KeepsLive.of_locals (h : ∀ x v, p.local? x = some v → p'.local? x = some v) : p.KeepsLive p' := by
  intro id hid
  obtain ⟨v, hv⟩ := isSome_iff_exists.mp hid
  rw [h id v hv]
  rfl

lemma index_lt_of_local? {id : LocalId} (h : (p.local? id).isSome) : id.index < p.locals.size := by
  obtain ⟨v, hv⟩ := isSome_iff_exists.mp h
  exact Arena.lt_size_of_get? hv

lemma LiveIn.mono (h : p.LiveIn spared vars) (hlocals : p.KeepsLive p') : p'.LiveIn spared vars :=
  fun id hid => (h id hid).imp_right (hlocals id)

lemma LiveIn.subset (h : p.LiveIn spared vars) (hsub : vars' ⊆ vars) : p.LiveIn spared vars' :=
  fun id hid => h id (hsub hid)

lemma liveIn_nil : p.LiveIn spared [] := nofun

lemma liveIn_append : p.LiveIn spared (vars ++ vars') ↔ p.LiveIn spared vars ∧ p.LiveIn spared vars' := by
  simp only [LiveIn, mem_append, or_imp, forall_and]

lemma liveIn_cons {v : VarRef} : p.LiveIn spared (v :: vars) ↔ p.LiveIn spared [v] ∧ p.LiveIn spared vars := by
  rw [← singleton_append, liveIn_append]

lemma liveIn_flatMap {α : Type} {l : List α} {f : α → List VarRef} :
    p.LiveIn spared (l.flatMap f) ↔ ∀ a ∈ l, p.LiveIn spared (f a) := by
  simp only [LiveIn, mem_flatMap]
  grind

end Procedure

namespace Code

def Live (spared : LocalId → Prop) (p : Procedure) : Code → Prop :=
  Code.Forall (fun i _ => p.LiveIn spared i.named)
    (fun e phis => p.LiveIn spared e.uses ∧ ∀ φ ∈ phis, p.LiveIn spared φ.inst.named)
    (fun e phis => p.LiveIn spared e.uses ∧ ∀ φ ∈ phis, p.LiveIn spared φ.inst.named)

lemma live_iff : c.Live spared p ↔
    (∀ i ∈ c.insts, p.LiveIn spared i.named) ∧ ∀ e ∈ c.conditions, p.LiveIn spared e.uses := by
  unfold Live
  induction c with
  | done => simp [Forall, insts, conditions]
  | inst i predicate rest ih => simp only [Forall, insts, conditions, forall_mem_cons, ih, and_assoc]
  | branch c t e phis rest iht ihe ih =>
    simp only [Forall, insts, conditions, forall_mem_append, forall_mem_cons, forall_mem_map, iht, ihe, ih]
    tauto
  | loop c body phis rest ihb ih =>
    simp only [Forall, insts, conditions, forall_mem_append, forall_mem_cons, forall_mem_map, ihb, ih]
    tauto

lemma Live.mono (h : c.Live spared p) (hlocals : p.KeepsLive p') : c.Live spared p' := by
  obtain ⟨hinsts, hconds⟩ := live_iff.mp h
  exact live_iff.mpr ⟨fun i hi => (hinsts i hi).mono hlocals, fun e he => (hconds e he).mono hlocals⟩

end Code

/-- The node that owns a list, unless it is the list of the procedure itself. -/
def NodeList.owner? : NodeList → Option NodeId
  | .body => none
  | .thenOf node => some node
  | .elseOf node => some node
  | .bodyOf node => some node

/-- Where a node stands. -/
inductive Place where
  | list (L : NodeList)
  | join (owner : NodeId)
deriving DecidableEq

namespace Place

/-- The node under which a node stands. -/
def owner? : Place → Option NodeId
  | list L => L.owner?
  | join owner => some owner

def isJoin : Place → Bool
  | join _ => true
  | list _ => false

end Place

variable {y : NodeId × Place}

namespace Node

/-- What a node contains, with its places: its join, and its lists from the last node to the
first. -/
def inside (id : NodeId) : Node → List (NodeId × Place)
  | block _ => []
  | branch _ thenNodes elseNodes join =>
    (join, .join id) :: (elseNodes.reverse.map (·, .list (.elseOf id)) ++ thenNodes.reverse.map (·, .list (.thenOf id)))
  | loop _ body join => (join, .join id) :: body.reverse.map (·, .list (.bodyOf id))

lemma owner_of_mem_inside {id : NodeId} {node : Node} (hy : y ∈ node.inside id) :
    y.2.owner? = some id := by
  cases node with
  | block => cases hy
  | branch | loop =>
    simp only [inside, mem_cons, mem_append, mem_map] at hy
    rcases hy with rfl | hy
    · rfl
    · grind [Place.owner?, NodeList.owner?]

lemma exists_inside {id c : NodeId} {node : Node} (hc : c ∈ node.children) : ∃ x, (c, x) ∈ node.inside id := by
  cases node with
  | block => cases hc
  | branch | loop =>
    simp only [children, mem_append, mem_singleton] at hc
    simp only [inside, mem_cons, mem_append, mem_map, mem_reverse, Prod.mk.injEq]
    grind

end Node

/-- Where the nodes of a procedure stand. -/
abbrev Layout := NodeId → Option Place

/-- What a node of a procedure contains, with its places. -/
def Procedure.inside (p : Procedure) (n : NodeId) : List (NodeId × Place) :=
  ((p.node? n).map (Node.inside n)).getD []

variable {rest ps : List (NodeId × Place)} {spared spared' : LocalId → Prop} {fuel : Nat} {node : Node} {id n : NodeId}
  {π π' : Layout} {rank : NodeId → Nat} {x : Place} {p : Procedure} {t : Tree} {v : Visit} {L : NodeList}

lemma Procedure.inside_eq (h : p.node? n = some node) : p.inside n = node.inside n := by
  rw [inside, h]
  rfl

lemma Procedure.owner_of_mem_inside (hy : y ∈ p.inside n) : y.2.owner? = some n := by
  unfold inside at hy
  cases hn : p.node? n with
  | none => simp [hn] at hy
  | some node => exact Node.owner_of_mem_inside (by simpa [hn] using hy)

namespace Layout

/-- What is asked of an instruction that a block lists, for the place of the block. -/
def Listed (spared : LocalId → Prop) (p : Procedure) (n : NodeId) (isJoin : Bool) (i : InstId) : Prop :=
  ∃ d, p.inst? i = some d ∧ d.block = n ∧ (isJoin = true → d.inst.isPhi = true) ∧ p.LiveIn spared d.inst.named

/-- What a node has to have in its place. -/
structure Stands (spared : LocalId → Prop) (π : Layout) (p : Procedure) (n : NodeId) (x : Place) : Prop where
  live : ∃ node, p.node? n = some node
  insts_nodup : (p.blockInsts n).Nodup
  listed : ∀ i ∈ p.blockInsts n, Listed spared p n x.isJoin i
  nodup : ((p.inside n).map (·.1)).Nodup
  placed : ∀ y ∈ p.inside n, π y.1 = some y.2

/-- Every node of a layout has what its place asks for, and so has the body. -/
structure Fits (spared : LocalId → Prop) (π : Layout) (p : Procedure) : Prop where
  body_nodup : p.body.Nodup
  body : ∀ n ∈ p.body, π n = some (.list .body)
  stands : ∀ n x, π n = some x → Stands spared π p n x

/-- Nodes have numbers below a bound, and what a node contains has higher ones. -/
structure Ranked (π : Layout) (p : Procedure) (rank : NodeId → Nat) (bound : Nat) : Prop where
  lt_bound : ∀ n x, π n = some x → rank n < bound
  deeper : ∀ n x, π n = some x → ∀ y ∈ p.inside n, rank n < rank y.1

lemma Stands.recorded (h : Stands spared π p n x) : ∀ i ∈ p.blockInsts n, ∃ d, p.inst? i = some d ∧ d.block = n :=
  fun i hi => (h.listed i hi).imp fun _ hd => ⟨hd.1, hd.2.1⟩

lemma Stands.mentions (h : Stands spared π p n x) {i : InstId} (hi : i ∈ p.blockInsts n)
    {d : InstData} (hd : p.inst? i = some d) : p.LiveIn spared d.inst.named := by
  obtain ⟨d', hd', _, _, hlive⟩ := h.listed i hi
  cases hd.symm.trans hd'
  exact hlive

lemma Stands.mono (h : Stands spared π p n x) (hplace : ∀ c y, π c = some y → π' c = some y) : Stands spared π' p n x :=
  { h with placed := fun y hy => hplace y.1 y.2 (h.placed y hy) }

lemma Fits.imp (h : π.Fits spared p) (himp : ∀ vars, p.LiveIn spared vars → p.LiveIn spared' vars) : π.Fits spared' p :=
  ⟨h.body_nodup, h.body, fun n x hx => { h.stands n x hx with
    listed := fun i hi => ((h.stands n x hx).listed i hi).imp fun _ hd => ⟨hd.1, hd.2.1, hd.2.2.1, himp _ hd.2.2.2⟩ }⟩

end Layout

namespace Procedure

open Layout

/-! ## Steps of the check -/

lemma staleLocal?_eq_none {vars : List VarRef} : p.staleLocal? vars = none ↔ p.LiveIn (fun _ => False) vars := by
  simp only [staleLocal?, find?_eq_none, mem_filterMap, LiveIn, false_or, Option.isNone_iff_eq_none]
  constructor
  · exact fun h id hid => Option.isSome_iff_ne_none.mpr (h id ⟨.loc id, hid, rfl⟩)
  · rintro h id ⟨v, hv, hlocal⟩
    cases v with
    | glob g => cases hlocal
    | loc id' =>
      cases hlocal
      exact Option.isSome_iff_ne_none.mp (h id hv)

variable {isJoin : Bool}

lemma verifyInsts_eq_ok {insts seen seen' : List InstId} :
    p.verifyInsts n isJoin seen insts = .ok seen' ↔ seen' = insts.reverse ++ seen ∧ insts.Nodup ∧
      (∀ i ∈ insts, i ∉ seen) ∧ ∀ i ∈ insts, Listed (fun _ => False) p n isJoin i := by
  induction insts generalizing seen with
  | nil => simp [verifyInsts, eq_comm]
  | cons i rest ih =>
    have hstep : p.verifyInsts n isJoin seen (i :: rest) = .ok seen' ↔ i ∉ seen ∧ Listed (fun _ => False) p n isJoin i ∧
        p.verifyInsts n isJoin (i :: seen) rest = .ok seen' := by
      rw [verifyInsts]
      cases hi : p.inst? i with
      | none => simp [Listed, hi]
      | some d =>
        have hlisted : Listed (fun _ => False) p n isJoin i ↔ d.block = n ∧ (isJoin = true → d.inst.isPhi = true) ∧
            p.staleLocal? (d.inst.uses ++ (d.inst.def?.map VarRef.loc).toList) = none := by
          rw [staleLocal?_eq_none]
          simp [Listed, hi, Inst.named]
        rw [hlisted]
        grind
    rw [hstep, ih]
    simp only [reverse_cons, List.append_assoc, singleton_append, nodup_cons, mem_cons, not_or]
    grind

variable {next : Visit}

lemma verifyNode_eq_ok {pending : List (NodeId × Bool)} :
    p.verifyNode v id isJoin pending = .ok next ↔ ∃ node insts, p.node? id = some node ∧
      id ∉ v.nodes ∧ p.verifyInsts id isJoin v.insts (p.blockInsts id) = .ok insts ∧ next =
      ⟨(node.inside id).map (fun y => (y.1, y.2.isJoin)) ++ pending, id :: v.nodes, insts⟩ := by
  unfold verifyNode
  cases hid : p.node? id with
  | none => simp
  | some node =>
    by_cases hseen : id ∈ v.nodes
    · simp [hseen]
    · cases node with
      | block listed =>
        rw [blockInsts_eq hid]
        cases hv : p.verifyInsts id isJoin v.insts listed with
        | error fault => simp [hseen, Except.map, hv]
        | ok insts => simp [hseen, Except.map, hv, Node.inside, eq_comm]
      | branch | loop => simp [blockInsts, hid, hseen, verifyInsts, Node.inside, Place.isJoin, comp_def, eq_comm]

/-! ## A layout from the check -/

/-- What a check of pending nodes settles: the pending nodes are all different and have any places
that their marks allow, and then all nodes under them have places. Nodes are numbered as they are
visited. -/
structure Settled (p : Procedure) (v : Visit) (fuel : Nat) (ps : List (NodeId × Place)) (π : Layout)
    (rank : NodeId → Nat) : Prop extends Ranked π p rank (v.nodes.length + fuel) where
  nodup : (ps.map (·.1)).Nodup
  placed : ∀ y ∈ ps, π y.1 = some y.2
  fresh : ∀ n ∈ v.nodes, π n = none
  later : ∀ n x, π n = some x → v.nodes.length ≤ rank n
  stands : ∀ n x, π n = some x → Stands (fun _ => False) π p n x

lemma settled_nil (p : Procedure) (v : Visit) (fuel : Nat) : p.Settled v fuel [] (fun _ => none) (fun _ => 0) where
  lt_bound := nofun
  deeper := nofun
  nodup := nodup_nil
  placed := forall_mem_nil _
  fresh := fun _ _ => rfl
  later := nofun
  stands := nofun

/-- A node that is visited first gets its place if what it contains and the others have theirs. -/
lemma Settled.visit (hnode : p.node? id = some node) (hnext : next.nodes = id :: v.nodes)
    (hseen : id ∉ v.nodes) (hinsts : (p.blockInsts id).Nodup)
    (hlisted : ∀ i ∈ p.blockInsts id, Listed (fun _ => False) p id x.isJoin i)
    (h : p.Settled next fuel (node.inside id ++ rest) π rank) : p.Settled v (fuel + 1)
    ((id, x) :: rest) (Function.update π id (some x)) (Function.update rank id v.nodes.length) := by
  have hnodup := h.nodup
  rw [map_append, nodup_append] at hnodup
  have hself : π id = none := h.fresh id (hnext ▸ mem_cons_self)
  have hne : ∀ {c y}, π c = some y → c ≠ id := by
    rintro c y hc rfl
    cases hself.symm.trans hc
  have hlength : next.nodes.length = v.nodes.length + 1 := by rw [hnext, length_cons]
  have hother : ∀ c y, π c = some y → Function.update π id (some x) c = some y := by
    intro c y hc
    rw [update_of_ne (hne hc), hc]
  have hinside : ∀ y ∈ p.inside id, π y.1 = some y.2 := by
    intro y hy
    rw [inside_eq hnode] at hy
    exact h.placed y (mem_append_left _ hy)
  have hcases : ∀ {m y}, Function.update π id (some x) m = some y → m = id ∧ y = x ∨ m ≠ id ∧ π m = some y := by
    intro m y hm
    by_cases heq : m = id
    · subst heq
      rw [update_self] at hm
      exact .inl ⟨rfl, (Option.some.inj hm).symm⟩
    · rw [update_of_ne heq] at hm
      exact .inr ⟨heq, hm⟩
  refine ⟨⟨fun m y hm => ?_, fun m y hm z hz => ?_⟩, ?_, ?_, fun m hm => ?_, fun m y hm => ?_, fun m y hm => ?_⟩
  · rcases hcases hm with ⟨rfl, _⟩ | ⟨heq, hm⟩
    · rw [update_self]
      omega
    · have hlt := h.lt_bound m y hm
      rw [update_of_ne heq]
      omega
  · rcases hcases hm with ⟨rfl, _⟩ | ⟨heq, hm⟩
    · have hlate := h.later z.1 z.2 (hinside z hz)
      rw [update_self, update_of_ne (hne (hinside z hz))]
      omega
    · rw [update_of_ne heq, update_of_ne (hne ((h.stands m y hm).placed z hz))]
      exact h.deeper m y hm z hz
  · rw [map_cons, nodup_cons]
    refine ⟨fun hmem => ?_, hnodup.2.1⟩
    obtain ⟨y, hy, hyid⟩ := mem_map.mp hmem
    exact hne (h.placed y (mem_append_right _ hy)) hyid
  · refine forall_mem_cons.mpr ⟨update_self id (some x) π, fun y hy => ?_⟩
    exact hother _ _ (h.placed y (mem_append_right _ hy))
  · rw [update_of_ne (show m ≠ id from fun heq => hseen (heq ▸ hm))]
    exact h.fresh m (hnext ▸ mem_cons_of_mem id hm)
  · rcases hcases hm with ⟨rfl, _⟩ | ⟨heq, hm⟩
    · exact Nat.le_of_eq (update_self m _ rank).symm
    · have hlate := h.later m y hm
      rw [update_of_ne heq]
      omega
  · rcases hcases hm with ⟨rfl, rfl⟩ | ⟨_, hm⟩
    · refine ⟨⟨node, hnode⟩, hinsts, hlisted, ?_, fun z hz => hother _ _ (hinside z hz)⟩
      rw [inside_eq hnode]
      exact hnodup.1
    · exact (h.stands m y hm).mono hother

/-- If the check of pending nodes succeeds, it settles them. -/
lemma exists_settled (ps : List (NodeId × Place)) (h : p.verifyFrom fuel v = .ok ())
    (hps : v.pending = ps.map fun y => (y.1, y.2.isJoin)) : ∃ π rank, p.Settled v fuel ps π rank := by
  induction fuel generalizing v ps with
  | zero =>
    cases ps with
    | nil => exact ⟨_, _, settled_nil p v 0⟩
    | cons first rest =>
      unfold verifyFrom at h
      simp [hps] at h
  | succ fuel ih =>
    cases ps with
    | nil => exact ⟨_, _, settled_nil p v _⟩
    | cons first rest =>
      obtain ⟨id, x⟩ := first
      rw [map_cons] at hps
      unfold verifyFrom at h
      simp only [hps] at h
      cases hnext : p.verifyNode v id x.isJoin (rest.map fun y => (y.1, y.2.isJoin)) with
      | error fault => simp [hnext] at h
      | ok next =>
        simp only [hnext] at h
        obtain ⟨node, insts, hnode, hseen, hinsts, rfl⟩ := verifyNode_eq_ok.mp hnext
        obtain ⟨_, hnodup, _, hlisted⟩ := verifyInsts_eq_ok.mp hinsts
        obtain ⟨π, rank, hsettled⟩ := ih (node.inside id ++ rest) h (map_append ..).symm
        exact ⟨_, _, hsettled.visit hnode rfl hseen hnodup hlisted⟩

lemma verify_eq_ok : p.verify = .ok () ↔
    p.verifyFrom (p.nodes.size + 1) { pending := p.body.reverse.map (·, false) } = .ok () ∧
      p.LiveIn (fun _ => False) (p.params.map VarRef.loc) := by
  rw [← staleLocal?_eq_none]
  unfold verify
  cases p.verifyFrom (p.nodes.size + 1) { pending := p.body.reverse.map (·, false) } with
  | error fault => exact iff_of_false nofun fun h => nomatch h.1
  | ok u =>
    cases p.staleLocal? (p.params.map VarRef.loc) with
    | none => exact iff_of_true rfl ⟨rfl, rfl⟩
    | some stale => exact iff_of_false nofun fun h => nomatch h.2

lemma params_live_of_verify (h : p.verify = .ok ()) : ∀ id ∈ p.params, (p.local? id).isSome :=
  fun id hid => ((verify_eq_ok.mp h).2 id (mem_map_of_mem hid)).resolve_left not_false

lemma exists_ranked_size (h : p.verify = .ok ()) :
    ∃ π rank, Fits (fun _ => False) π p ∧ Ranked π p rank (p.nodes.size + 1) := by
  obtain ⟨π, rank, hsettled⟩ := exists_settled (p.body.reverse.map (·, .list .body)) (verify_eq_ok.mp h).1
    (by simp [comp_def, Place.isJoin])
  have hnodup := hsettled.nodup
  simp only [List.map_map, comp_def, List.map_id', nodup_reverse] at hnodup
  have hranked := hsettled.toRanked
  rw [length_nil, Nat.zero_add] at hranked
  exact ⟨π, rank, ⟨hnodup, fun n hn => hsettled.placed (n, .list .body) (by simp [hn]), hsettled.stands⟩, hranked⟩

lemma exists_ranked (h : p.verify = .ok ()) : ∃ π rank bound, Fits (fun _ => False) π p ∧ Ranked π p rank bound := by
  obtain ⟨π, rank, h⟩ := exists_ranked_size h
  exact ⟨π, rank, _, h⟩

lemma exists_layout (h : p.verify = .ok ()) : ∃ π : Layout, π.Fits spared p := by
  obtain ⟨π, _, _, hfits, _⟩ := exists_ranked h
  exact ⟨π, hfits.imp fun vars hvars id hid => .inr ((hvars id hid).resolve_left not_false)⟩

end Procedure

namespace Tree

def places : Tree → NodeList → List (NodeId × Place)
  | nil, _ => []
  | block id _ rest, L => (id, .list L) :: rest.places L
  | branch id t e join _ rest, L =>
    (id, .list L) :: (t.places (.thenOf id) ++ e.places (.elseOf id) ++ (join, .join id) :: rest.places L)
  | loop id body join _ rest, L => (id, .list L) :: (join, .join id) :: (body.places (.bodyOf id) ++ rest.places L)

lemma map_places (t : Tree) (L : NodeList) : (t.places L).map (·.1) = t.nodes := by
  induction t generalizing L with
  | nil => rfl
  | block id insts rest ih => simp only [places, nodes, map_cons, ih]
  | branch id t e join phis rest iht ihe ih => simp only [places, nodes, map_cons, map_append, iht, ihe, ih]
  | loop id body join phis rest ihb ih => simp only [places, nodes, map_cons, map_append, ihb, ih]

lemma mem_places_of_root (hn : n ∈ t.roots) : (n, .list L) ∈ t.places L := by
  induction t with
  | nil => cases hn
  | block id insts rest ih => exact (mem_cons.mp hn).elim (fun h => h ▸ mem_cons_self) fun h => mem_cons_of_mem _ (ih h)
  | branch id t e join phis rest _ _ ih | loop id body join phis rest _ ih =>
    rcases mem_cons.mp hn with rfl | hn
    · exact mem_cons_self
    · simp [places, ih hn]

variable {b : NodeId × List InstId}

lemma exists_place_of_join (hb : b ∈ t.joins) : ∃ o, (b.1, .join o) ∈ t.places L := by
  induction t generalizing L with
  | nil => cases hb
  | block id insts rest ih => exact (ih hb).imp fun _ h => mem_cons_of_mem _ h
  | branch id t e join phis rest iht ihe ih =>
    simp only [joins, mem_append, mem_cons] at hb
    simp only [places, mem_cons, mem_append]
    rcases hb with (hb | hb) | rfl | hb
    · exact (iht hb).imp fun _ h => .inr (.inl (.inl h))
    · exact (ihe hb).imp fun _ h => .inr (.inl (.inr h))
    · exact ⟨id, .inr (.inr (.inl rfl))⟩
    · exact (ih hb).imp fun _ h => .inr (.inr (.inr h))
  | loop id body join phis rest ihb ih =>
    simp only [joins, mem_append, mem_cons] at hb
    simp only [places, mem_cons, mem_append]
    rcases hb with rfl | hb | hb
    · exact ⟨id, .inr (.inl rfl)⟩
    · exact (ihb hb).imp fun _ h => .inr (.inr (.inl h))
    · exact (ih hb).imp fun _ h => .inr (.inr (.inr h))

lemma placed (hfits : t.Fits p) (hstands : ∀ n x, π n = some x → Layout.Stands spared π p n x)
    (hroots : ∀ n ∈ t.roots, π n = some (.list L)) : ∀ y ∈ t.places L, π y.1 = some y.2 := by
  induction t generalizing L with
  | nil => exact forall_mem_nil _
  | block id insts rest ih =>
    simp only [roots, places, forall_mem_cons] at hroots ⊢
    exact ⟨hroots.1, ih hfits.2 hroots.2⟩
  | branch id t e join phis rest iht ihe ih =>
    obtain ⟨⟨c, hid⟩, ht, he, _, hrest⟩ := hfits
    simp only [roots, places, forall_mem_cons, forall_mem_append] at hroots ⊢
    have hs := (hstands id _ hroots.1).placed
    rw [inside_eq hid] at hs
    exact ⟨hroots.1, ⟨iht ht fun n hn => hs (n, _) (by simp [Node.inside, hn]),
      ihe he fun n hn => hs (n, _) (by simp [Node.inside, hn])⟩, hs (join, _) mem_cons_self, ih hrest hroots.2⟩
  | loop id body join phis rest ihb ih =>
    obtain ⟨⟨c, hid⟩, hb, _, hrest⟩ := hfits
    simp only [roots, places, forall_mem_cons, forall_mem_append] at hroots ⊢
    have hs := (hstands id _ hroots.1).placed
    rw [inside_eq hid] at hs
    exact ⟨hroots.1, hs (join, _) mem_cons_self,
      ihb hb fun n hn => hs (n, _) (by simp [Node.inside, hn]), ih hrest hroots.2⟩

/-! ## A tree from a layout -/

lemma nodes_perm_inside (hfits : t.Fits p) :
    t.nodes.Perm (t.roots ++ t.listed.flatMap fun n => (p.inside n).map (·.1)) := by
  rw [perm_iff_count]
  intro n
  induction t with
  | nil => rfl
  | block id insts rest ih => simp [nodes, roots, listed, inside_eq hfits.1, Node.inside, count_cons, ih hfits.2]
  | branch id t e join phis rest iht ihe ih =>
    obtain ⟨⟨c, hid⟩, ht, he, _, hrest⟩ := hfits
    simp [nodes, roots, listed, inside_eq hid, Node.inside, count_cons, iht ht, ihe he, ih hrest, comp_def]
    omega
  | loop id body join phis rest ihb ih =>
    obtain ⟨⟨c, hid⟩, hb, _, hrest⟩ := hfits
    simp [nodes, roots, listed, inside_eq hid, Node.inside, count_cons, ihb hb, ih hrest, comp_def]
    omega

lemma blockInsts_of_mem_blocks (hfits : t.Fits p) (hb : b ∈ t.blocks) :
    p.blockInsts b.1 = b.2 ∧ b.1 ∈ t.nodes := by
  induction t with
  | nil => cases hb
  | block id insts rest ih =>
    simp only [blocks, nodes, mem_cons] at hb ⊢
    rcases hb with rfl | hb
    · exact ⟨blockInsts_eq hfits.1, .inl rfl⟩
    · exact (ih hfits.2 hb).imp_right .inr
  | branch id t e join phis rest iht ihe ih =>
    obtain ⟨_, ht, he, hj, hrest⟩ := hfits
    simp only [blocks, nodes, mem_cons, mem_append] at hb ⊢
    rcases hb with (hb | hb) | rfl | hb
    · exact (iht ht hb).imp_right fun h => .inr (.inl (.inl h))
    · exact (ihe he hb).imp_right fun h => .inr (.inl (.inr h))
    · exact ⟨hj, .inr (.inr (.inl rfl))⟩
    · exact (ih hrest hb).imp_right fun h => .inr (.inr (.inr h))
  | loop id body join phis rest ihb ih =>
    obtain ⟨_, hb', hj, hrest⟩ := hfits
    simp only [blocks, nodes, mem_cons, mem_append] at hb ⊢
    rcases hb with rfl | hb | hb
    · exact ⟨hj, .inr (.inl rfl)⟩
    · exact (ihb hb' hb).imp_right fun h => .inr (.inr (.inl h))
    · exact (ih hrest hb).imp_right fun h => .inr (.inr (.inr h))

end Tree

namespace Layout

variable {bound : Nat}

/-- A list is the roots of a tree. The induction is on how far the numbers of its nodes are below
the bound. -/
lemma Ranked.exists_tree (hr : Ranked π p rank bound)
    (hstands : ∀ n x, π n = some x → Stands spared π p n x) (k : Nat) {L : NodeList} {ns : List NodeId}
    (hns : ∀ n ∈ ns, π n = some (.list L) ∧ bound ≤ rank n + k) : ∃ t : Tree, t.roots = ns ∧ t.Fits p := by
  induction k generalizing L ns with
  | zero =>
    cases ns with
    | nil => exact ⟨.nil, rfl, trivial⟩
    | cons n rest =>
      obtain ⟨hn, hle⟩ := hns n mem_cons_self
      exact absurd (hr.lt_bound n _ hn) (Nat.not_lt.mpr hle)
  | succ k ihk =>
    induction ns with
    | nil => exact ⟨.nil, rfl, trivial⟩
    | cons n rest ih =>
      obtain ⟨⟨hn, hle⟩, hrest⟩ := forall_mem_cons.mp hns
      obtain ⟨r, rfl, hr'⟩ := ih hrest
      have hs := hstands n _ hn
      obtain ⟨node, hnode⟩ := hs.live
      have hinside := hs.placed
      have hdeeper := hr.deeper n _ hn
      rw [inside_eq hnode] at hinside hdeeper
      have hunder : ∀ (M : NodeList) (ms : List NodeId), (∀ m ∈ ms, (m, .list M) ∈ node.inside n) →
          ∃ t : Tree, t.roots = ms ∧ t.Fits p := by
        intro M ms hms
        refine ihk fun m hm => ⟨hinside _ (hms m hm), ?_⟩
        have hlt : rank n < rank m := hdeeper _ (hms m hm)
        omega
      cases node with
      | block insts => exact ⟨.block n insts r, rfl, hnode, hr'⟩
      | branch c ts es j =>
        obtain ⟨t, rfl, ht⟩ := hunder (.thenOf n) ts fun m hm => by simp [Node.inside, hm]
        obtain ⟨e, rfl, he⟩ := hunder (.elseOf n) es fun m hm => by simp [Node.inside, hm]
        exact ⟨.branch n t e j (p.blockInsts j) r, rfl, ⟨c, hnode⟩, ht, he, rfl, hr'⟩
      | loop c bs j =>
        obtain ⟨b, rfl, hb⟩ := hunder (.bodyOf n) bs fun m hm => by simp [Node.inside, hm]
        exact ⟨.loop n b j (p.blockInsts j) r, rfl, ⟨c, hnode⟩, hb, rfl, hr'⟩

namespace Fits

lemma place_of_mem (h : π.Fits spared p) (hroots : t.roots = p.body) (hfits : t.Fits p)
    (hn : n ∈ t.nodes) : ∃ x, (n, x) ∈ t.places .body ∧ π n = some x := by
  rw [← t.map_places .body] at hn
  obtain ⟨y, hy, rfl⟩ := mem_map.mp hn
  exact ⟨y.2, hy, Tree.placed hfits h.stands (fun n hn => h.body n (hroots ▸ hn)) y hy⟩

lemma held (h : π.Fits spared p) (hroots : t.roots = p.body) (hfits : t.Fits p) : t.Held p where
  fits := hfits
  live := by
    intro n hn
    obtain ⟨x, _, hx⟩ := h.place_of_mem hroots hfits hn
    exact (h.stands n x hx).live
  recorded := by
    intro b hb i hi
    obtain ⟨hinsts, hn⟩ := Tree.blockInsts_of_mem_blocks hfits hb
    obtain ⟨x, _, hx⟩ := h.place_of_mem hroots hfits hn
    exact (h.stands b.1 x hx).recorded i (hinsts ▸ hi)
  phis := by
    intro b hb i hi
    obtain ⟨hinsts, _⟩ := Tree.blockInsts_of_mem_blocks hfits (t.joins_subset_blocks hb)
    obtain ⟨o, ho⟩ := Tree.exists_place_of_join (L := .body) hb
    have hplace := Tree.placed hfits h.stands (fun n hn => h.body n (hroots ▸ hn)) _ ho
    obtain ⟨⟨inst, block, predicate⟩, hd, _, hphi, _⟩ := (h.stands b.1 _ hplace).listed i (hinsts ▸ hi)
    have hphi := hphi rfl
    cases inst with
    | phi target arms => exact ⟨⟨target, arms⟩, phi?_eq_some.mpr ⟨block, predicate, hd⟩⟩
    | _ => cases hphi

lemma count_flatMap_le {l : List NodeId} {f : NodeId → List NodeId} {o c : NodeId}
    (h : ∀ a ∈ l, (f a).count c ≤ if a = o then 1 else 0) : (l.flatMap f).count c ≤ l.count o := by
  induction l with
  | nil => exact Nat.le_refl _
  | cons a l ih =>
    obtain ⟨ha, hl⟩ := forall_mem_cons.mp h
    have hle := ih hl
    simp only [flatMap_cons, count_append, count_cons, beq_iff_eq]
    omega

/-- No node is twice in a tree. The induction is on the numbers of nodes: what stands under a node
is there no more often than the node. -/
lemma nodes_nodup (h : π.Fits spared p) (hr : Ranked π p rank bound) (hroots : t.roots = p.body)
    (hfits : t.Fits p) : t.nodes.Nodup := by
  have hcount : ∀ k n, rank n < k → t.nodes.count n ≤ 1 := by
    intro k
    induction k with
    | zero => exact fun n hn => absurd hn (Nat.not_lt_zero _)
    | succ k ih =>
      intro n hn
      rw [(Tree.nodes_perm_inside hfits).count_eq, count_append]
      by_cases hmem : n ∈ t.listed.flatMap fun o => (p.inside o).map (·.1)
      · obtain ⟨o, ho, hmem⟩ := mem_flatMap.mp hmem
        obtain ⟨y, hy, rfl⟩ := mem_map.mp hmem
        obtain ⟨x, _, hx⟩ := h.place_of_mem hroots hfits (Tree.mem_nodes_of_listed ho)
        have hplace := (h.stands o x hx).placed y hy
        have howner := owner_of_mem_inside hy
        have hroot : y.1 ∉ t.roots := by
          intro hmem
          rw [Option.some.inj (hplace.symm.trans (h.body y.1 (hroots ▸ hmem)))] at howner
          cases howner
        have hunder : (t.listed.flatMap fun o => (p.inside o).map (·.1)).count y.1 ≤ t.listed.count o := by
          refine count_flatMap_le fun a ha => ?_
          obtain ⟨z, _, hz⟩ := h.place_of_mem hroots hfits (Tree.mem_nodes_of_listed ha)
          have hs := h.stands a z hz
          split
          · exact nodup_iff_count_le_one.mp hs.nodup y.1
          · rename_i hne
            refine Nat.le_of_eq (count_eq_zero.mpr fun hmem => hne ?_)
            obtain ⟨y', hy', heq⟩ := mem_map.mp hmem
            have hplace' := hs.placed y' hy'
            rw [heq, hplace] at hplace'
            have howner' := owner_of_mem_inside hy'
            rw [← Option.some.inj hplace', howner] at howner'
            exact (Option.some.inj howner').symm
        have hle : t.listed.count o ≤ t.nodes.count o := by
          rw [t.nodes_perm.count_eq, count_append]
          exact Nat.le_add_right _ _
        have hdeeper := hr.deeper o x hx y hy
        have ho := ih o (by omega)
        rw [count_eq_zero.mpr hroot]
        omega
      · rw [count_eq_zero.mpr hmem]
        exact nodup_iff_count_le_one.mp (hroots ▸ h.body_nodup) n
  exact nodup_iff_count_le_one.mpr fun n => hcount _ n (Nat.lt_succ_self _)

end Fits

end Layout

end ActorNet
