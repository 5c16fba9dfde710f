import ActorNet.Proofs.Structure.Layout
import Mathlib.Data.List.Perm.Basic

/-!
# Well-formed procedures have containment trees

The layout of a well-formed procedure gives it a sound containment tree (`exists_tree_of_verify`),
and the walks through its text list what is in the tree (`nodesIn_body`, `forward_eq`).

`Actor.check` accepts an actor if and only if what is referred to in it is there
(`Actor.Consistent`) and all its procedures are well formed (`Actor.check_eq_ok`). `Actor.Supplied`
says that new action handles are new indeed.
-/

namespace ActorNet

open List

variable {a : Actor} {id : NodeId} {p : Procedure} {t u : Tree}

namespace Tree

lemma held_append : (t.append u).Held p ↔ t.Held p ∧ u.Held p := by
  simp only [held_iff, fits_append, nodes_append, blocks_append, joins_append, forall_mem_append]
  tauto

lemma eq_block_of_roots (hroots : u.roots = [id]) (hfits : u.Fits p) :
    u = block id (p.blockInsts id) nil ∨ p.blockInsts id = [] := by
  have hnil : ∀ rest : Tree, rest.roots = [] → rest = nil := by
    intro rest h
    cases rest with
    | nil => rfl
    | block | branch | loop => cases h
  cases u with
  | nil => cases hroots
  | block id' insts rest =>
    simp only [roots, List.cons.injEq] at hroots
    obtain ⟨rfl, hrest⟩ := hroots
    left
    rw [hnil rest hrest, Procedure.blockInsts, hfits.1]
  | branch | loop =>
    simp only [roots, List.cons.injEq] at hroots
    obtain ⟨⟨c, hc⟩, _⟩ := hfits
    right
    rw [← hroots.1, Procedure.blockInsts, hc]

end Tree

namespace Procedure

open Tree

/-! ## Walks -/

lemma nodesUnder_roots {depth : Nat} (hfits : t.Fits p) (hdepth : t.height ≤ depth) :
    t.roots.flatMap (p.nodesUnder depth) = t.nodes := by
  induction t generalizing depth with
  | nil => rfl
  | block id insts rest ih =>
    simp only [Tree.height] at hdepth
    obtain _ | depth := depth
    · omega
    obtain ⟨hid, hrest⟩ := hfits
    rw [Tree.roots, flatMap_cons, ih hrest (by omega), nodesUnder, hid, Tree.nodes, singleton_append]
  | branch id t e join phis rest iht ihe ih =>
    simp only [Tree.height] at hdepth
    obtain _ | depth := depth
    · omega
    obtain ⟨⟨c, hid⟩, ht, he, _, hrest⟩ := hfits
    rw [Tree.roots, flatMap_cons, ih hrest (by omega), nodesUnder, hid, Tree.nodes]
    simp only [flatMap_append, iht ht (by omega : t.height ≤ depth),
      ihe he (by omega : e.height ≤ depth), cons_append, List.append_assoc, nil_append]
  | loop id body join phis rest ihb ih =>
    simp only [Tree.height] at hdepth
    obtain _ | depth := depth
    · omega
    obtain ⟨⟨c, hid⟩, hb, _, hrest⟩ := hfits
    rw [Tree.roots, flatMap_cons, ih hrest (by omega), nodesUnder, hid, Tree.nodes]
    simp only [ihb hb (by omega : body.height ≤ depth), cons_append]

lemma flatMap_blockInsts (hfits : t.Fits p) : t.nodes.flatMap p.blockInsts = t.insts := by
  induction t with
  | nil => rfl
  | block id insts rest ih =>
    obtain ⟨hid, hrest⟩ := hfits
    rw [Tree.nodes, flatMap_cons, ih hrest, Tree.insts, blockInsts, hid]
  | branch id t e join phis rest iht ihe ih =>
    obtain ⟨⟨c, hid⟩, ht, he, hjoin, hrest⟩ := hfits
    have hnone : p.blockInsts id = [] := by rw [blockInsts, hid]
    simp only [Tree.nodes, Tree.insts, flatMap_cons, flatMap_append, iht ht, ihe he, ih hrest,
      hjoin, hnone, nil_append, List.append_assoc]
  | loop id body join phis rest ihb ih =>
    obtain ⟨⟨c, hid⟩, hb, hjoin, hrest⟩ := hfits
    have hnone : p.blockInsts id = [] := by rw [blockInsts, hid]
    simp only [Tree.nodes, Tree.insts, flatMap_cons, flatMap_append, ihb hb, ih hrest, hjoin, hnone,
      nil_append, List.append_assoc]

lemma nodesIn_body (h : t.Spans p) : p.nodesIn p.body = t.nodes := by
  rw [nodesIn, ← h.roots]
  exact nodesUnder_roots h.sound.fits h.sound.height_le

lemma forward_eq (h : t.Spans p) : p.forward = t.insts := by
  rw [forward, nodesIn_body h]
  exact flatMap_blockInsts h.sound.fits

/-! ## Trees -/

lemma exists_live_tree_of_verify (h : p.verify = .ok ()) : ∃ t : Tree, t.Spans p ∧
    ∀ i ∈ t.insts, ∀ d, p.inst? i = some d → p.LiveIn (fun _ => False) d.inst.named := by
  obtain ⟨π, rank, bound, hfits, hrank⟩ := exists_ranked h
  obtain ⟨t, hroots, ht⟩ := hrank.exists_tree hfits.stands bound fun n hn => ⟨hfits.body n hn, Nat.le_add_left _ _⟩
  have hstands : ∀ n ∈ t.nodes, ∃ x, Layout.Stands (fun _ => False) π p n x := by
    intro n hn
    obtain ⟨x, _, hx⟩ := hfits.place_of_mem hroots ht hn
    exact ⟨x, hfits.stands n x hx⟩
  have hnodes := hfits.nodes_nodup hrank hroots ht
  refine ⟨t, ⟨hroots, hfits.held hroots ht, hnodes, ?_⟩, fun i hi d hd => ?_⟩
  · -- an instruction records the only block that lists it
    rw [← flatMap_blockInsts ht, nodup_flatMap]
    refine ⟨fun n hn => (hstands n hn).elim fun _ hs => hs.insts_nodup,
      hnodes.imp_of_mem fun {m n} hm hn hne i him hin => ?_⟩
    obtain ⟨_, hs⟩ := hstands m hm
    obtain ⟨_, hs'⟩ := hstands n hn
    obtain ⟨d, hd, hblock⟩ := hs.recorded i him
    obtain ⟨d', hd', hblock'⟩ := hs'.recorded i hin
    cases hd.symm.trans hd'
    exact hne (hblock.symm.trans hblock')
  · rw [← flatMap_blockInsts ht] at hi
    obtain ⟨n, hn, hi⟩ := mem_flatMap.mp hi
    obtain ⟨_, hs⟩ := hstands n hn
    exact hs.mentions hi hd

lemma exists_tree_of_verify (h : p.verify = .ok ()) : ∃ t : Tree, t.Spans p := by
  obtain ⟨t, ht, _⟩ := exists_live_tree_of_verify h
  exact ⟨t, ht⟩

end Procedure

namespace Actor

def HasTrees (a : Actor) : Prop :=
  ∀ id p, a.proc? id = some p → ∃ t : Tree, t.Spans p

lemma verify_of_checkProcs {procs : List Procedure} (h : checkProcs procs = .ok ()) : ∀ p ∈ procs, p.verify = .ok () := by
  induction procs with
  | nil => exact nofun
  | cons q rest ih =>
    rw [checkProcs] at h
    cases hq : q.verify with
    | error e => simp [hq] at h
    | ok u =>
      simp only [hq] at h
      intro p hp
      rcases mem_cons.mp hp with rfl | hp
      · exact hq
      · exact ih h p hp

lemma verify_of_check (h : a.check = .ok ()) : ∀ p ∈ a.procs, p.verify = .ok () := by
  refine verify_of_checkProcs ?_
  unfold check at h
  cases hactions : a.checkActions [] a.actions with
  | error fault =>
    rw [hactions] at h
    cases h
  | ok u =>
    cases hfsm : a.checkFsm with
    | error fault =>
      rw [hactions, hfsm] at h
      cases h
    | ok u =>
      cases hprocs : checkProcs a.procs with
      | error fault =>
        rw [hactions, hfsm, hprocs] at h
        cases h
      | ok u => rfl

lemma hasTrees_of_check (h : a.check = .ok ()) : a.HasTrees := by
  intro id p hp
  exact Procedure.exists_tree_of_verify (verify_of_check h p (mem_of_getElem? hp))

end Actor

/-! ## Well-formed actors -/

namespace Actor

/-- Action handles are unique, actions name procedures and ports of the actor, and the state machine
names its actions. -/
structure Consistent (a : Actor) : Prop where
  ids : (a.actions.map (·.id)).Nodup
  procs : ∀ x ∈ a.actions, (a.proc? x.scheduler).isSome ∧ (a.proc? x.body).isSome
  ports : ∀ x ∈ a.actions, a.unknownPort? x = none
  fsm : ∀ m, a.fsm = some m → ∀ t ∈ m.transitions, (a.action? t.action).isSome

/-- The next action handle is above all handles of actions, and there are enough of the `2 ^ 32`
handles left for every action to give way to a new one. -/
@[mk_iff]
structure Supplied (a : Actor) : Prop where
  above : ∀ x ∈ a.actions, x.id.index < a.ids.next.toNat
  room : a.ids.next.toNat + a.actions.length ≤ 4294967296

instance (a : Actor) : Decidable a.Supplied :=
  decidable_of_iff' _ (supplied_iff a)

variable {a : Actor}

lemma action?_eq_some (h : (a.actions.map (·.id)).Nodup) {id : ActionId} {x : Action} :
    a.action? id = some x ↔ x ∈ a.actions ∧ x.id = id := by
  constructor
  · intro hx
    exact ⟨mem_of_find?_eq_some hx, by simpa using find?_some hx⟩
  · rintro ⟨hmem, rfl⟩
    cases hy : a.action? x.id with
    | none =>
      have := find?_eq_none.mp hy x hmem
      simp at this
    | some y =>
      have hy' : y.id = x.id := by simpa using find?_some hy
      rw [inj_on_of_nodup_map h (mem_of_find?_eq_some hy) hmem hy']

lemma action?_isSome {id : ActionId} : (a.action? id).isSome ↔ ∃ x ∈ a.actions, x.id = id := by
  simp [action?, find?_isSome]

/-! ## The check -/

lemma find?_procs_eq_none {x : Action} : ([x.scheduler, x.body].find? fun id => (a.proc? id).isNone) = none ↔
      (a.proc? x.scheduler).isSome ∧ (a.proc? x.body).isSome := by
  simp [Option.isSome_iff_ne_none]

lemma checkActions_eq_ok {seen : List ActionId} {actions : List Action} :
    a.checkActions seen actions = .ok () ↔ (actions.map (·.id)).Nodup ∧
      (∀ x ∈ actions, x.id ∉ seen) ∧ (∀ x ∈ actions, (a.proc? x.scheduler).isSome ∧
      (a.proc? x.body).isSome) ∧ ∀ x ∈ actions, a.unknownPort? x = none := by
  induction actions generalizing seen with
  | nil => simp [checkActions]
  | cons x rest ih =>
    rw [checkActions]
    by_cases hseen : x.id ∈ seen
    · simp [hseen]
    · have hnot : seen.contains x.id = false := by simpa using hseen
      simp only [hnot, Bool.false_eq_true, if_false]
      cases hproc : [x.scheduler, x.body].find? fun id => (a.proc? id).isNone with
      | some id =>
        have hne : ¬ ((a.proc? x.scheduler).isSome ∧ (a.proc? x.body).isSome) := by
          rw [← find?_procs_eq_none, hproc]
          exact Option.some_ne_none id
        simp [hne]
      | none =>
        have hprocs := find?_procs_eq_none.mp hproc
        cases hport : a.unknownPort? x with
        | some port => simp [hport]
        | none =>
          rw [ih]
          simp only [map_cons, nodup_cons, forall_mem_cons, hport, true_and]
          constructor
          · rintro ⟨hnodup, hnew, hrest, hports⟩
            refine ⟨⟨fun hmem => ?_, hnodup⟩, ⟨hseen, fun y hy hys => ?_⟩, ⟨hprocs, hrest⟩, hports⟩
            · obtain ⟨y, hy, hyx⟩ := mem_map.mp hmem
              exact hnew y hy (hyx ▸ mem_cons_self)
            · exact hnew y hy (mem_cons_of_mem _ hys)
          · rintro ⟨⟨hne, hnodup⟩, ⟨_, hnew⟩, ⟨_, hrest⟩, hports⟩
            refine ⟨hnodup, fun y hy hmem => ?_, hrest, hports⟩
            rcases mem_cons.mp hmem with hyx | hys
            · exact hne (hyx ▸ mem_map_of_mem hy)
            · exact hnew y hy hys

lemma checkFsm_eq_ok : a.checkFsm = .ok () ↔
    ∀ m, a.fsm = some m → ∀ t ∈ m.transitions, (a.action? t.action).isSome := by
  unfold checkFsm
  cases hfsm : a.fsm with
  | none => simp
  | some m =>
    simp only [Option.some.injEq, forall_eq']
    cases ht : m.transitions.find? fun t => (a.action? t.action).isNone with
    | none =>
      refine iff_of_true rfl fun t hmem => ?_
      have := find?_eq_none.mp ht t hmem
      simpa [Option.isSome_iff_ne_none] using this
    | some t =>
      refine iff_of_false nofun fun h => ?_
      have hnone : (a.action? t.action).isNone = true := by simpa using find?_some ht
      have hsome := h t (mem_of_find?_eq_some ht)
      rw [Option.isNone_iff_eq_none.mp hnone] at hsome
      cases hsome

lemma checkProcs_eq_ok {procs : List Procedure} : checkProcs procs = .ok () ↔ ∀ p ∈ procs, p.verify = .ok () := by
  refine ⟨verify_of_checkProcs, fun h => ?_⟩
  induction procs with
  | nil => rfl
  | cons p rest ih =>
    rw [checkProcs, h p mem_cons_self]
    exact ih fun q hq => h q (mem_cons_of_mem p hq)

lemma check_eq_ok : a.check = .ok () ↔ a.Consistent ∧ ∀ p ∈ a.procs, p.verify = .ok () := by
  have hsteps : a.check = .ok () ↔
      a.checkActions [] a.actions = .ok () ∧ a.checkFsm = .ok () ∧ checkProcs a.procs = .ok () := by
    unfold check
    rcases a.checkActions [] a.actions with fault | u <;> rcases a.checkFsm with fault | u <;>
      rcases checkProcs a.procs with fault | u <;> simp [Except.mapError, bind, Except.bind]
  rw [hsteps, checkActions_eq_ok, checkFsm_eq_ok, checkProcs_eq_ok]
  constructor
  · rintro ⟨⟨hids, _, hprocs, hports⟩, hfsm, hverify⟩
    exact ⟨⟨hids, hprocs, hports, hfsm⟩, hverify⟩
  · rintro ⟨⟨hids, hprocs, hports, hfsm⟩, hverify⟩
    exact ⟨⟨hids, fun _ _ => not_mem_nil, hprocs, hports⟩, hfsm, hverify⟩

end Actor

end ActorNet
