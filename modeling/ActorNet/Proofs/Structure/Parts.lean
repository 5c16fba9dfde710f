import ActorNet.Proofs.Semantics.Calls
import ActorNet.Proofs.Semantics.Locals

/-!
# What a procedure is made of

The blocks that stand in the node lists of a procedure, and its conditionals and loops with the phis
of their joins. What holds of each of these holds all through the code of the procedure
(`forall_code`), and the instructions of the code are those of the procedure in the order of its
text (`insts_code`).
-/

namespace ActorNet

open List

variable {ids : List InstId} {φ : Phi} {t : Tree}

namespace Node

def listed : Node → List NodeId
  | block _ => []
  | branch _ thenNodes elseNodes _ => thenNodes ++ elseNodes
  | loop _ body _ => body

def edges : Node → List Edge
  | block _ => []
  | branch _ _ _ _ => [.thenEnd, .elseEnd]
  | loop _ _ _ => [.entry, .back]

end Node

def Inst.storesLocal? : Inst → Option LocalId
  | .store target _ _ => target.local?
  | _ => none

namespace Procedure

variable {p : Procedure}

def listed (p : Procedure) : List NodeId :=
  p.body ++ (p.nodesIn p.body).flatMap fun n => ((p.node? n).map Node.listed).getD []

/-- The conditionals and loops of the procedure, and its blocks. -/
def parts (p : Procedure) : List Node :=
  (p.nodesIn p.body).filterMap p.node?

/-- The instructions of the procedure that stand in no join. -/
def listedInsts (p : Procedure) : List InstData :=
  (p.listed.flatMap p.blockInsts).filterMap p.inst?

def allInsts (p : Procedure) : List InstData :=
  p.forward.filterMap p.inst?

def phis (p : Procedure) : List Phi :=
  p.forward.filterMap p.phi?

/-- The phis of the procedure that stand in no join. -/
def listedPhis (p : Procedure) : List Phi :=
  (p.listed.flatMap p.blockInsts).filterMap p.phi?

def storedLocals (p : Procedure) : List LocalId :=
  p.allInsts.filterMap fun d => match d.inst with
    | .store (.loc id) [] _ => some id
    | _ => none

/-- The locals that the procedure writes, once for each instruction that writes them. -/
def written (p : Procedure) : List LocalId :=
  p.allInsts.filterMap fun d => d.inst.writes?.bind VarRef.local?

/-- At most one instruction writes a local, and none writes a parameter. -/
@[mk_iff]
structure SingleAssignment (p : Procedure) : Prop where
  once : p.written.Nodup
  params : ∀ id ∈ p.params, id ∉ p.written

/-- No instruction has a predicate. -/
def Unpredicated (p : Procedure) : Prop :=
  ∀ d ∈ p.allInsts, d.predicate = none
deriving Decidable

instance (p : Procedure) : Decidable p.SingleAssignment :=
  decidable_of_iff' _ (singleAssignment_iff _)

def joinPhis (p : Procedure) (node : Node) : List Phi :=
  match node.join? with
  | some join => (p.blockInsts join).filterMap p.phi?
  | none => []

lemma mem_phis_of_joinPhis {node : Node} {join : NodeId} (hjoin : node.join? = some join)
    (hmem : join ∈ p.nodesIn p.body) (hφ : φ ∈ p.joinPhis node) : φ ∈ p.phis := by
  rw [joinPhis, hjoin] at hφ
  obtain ⟨i, hi, hphi⟩ := mem_filterMap.mp hφ
  exact mem_filterMap.mpr ⟨i, mem_flatMap.mpr ⟨join, hmem, hi⟩, hphi⟩

lemma exists_inst_of_mem_phis (h : φ ∈ p.phis) : ∃ d ∈ p.allInsts, d.inst = φ.inst := by
  obtain ⟨i, hi, hphi⟩ := mem_filterMap.mp h
  obtain ⟨b, predicate, hd⟩ := phi?_eq_some.mp hphi
  exact ⟨_, mem_filterMap.mpr ⟨i, hi, hd⟩, rfl⟩

lemma mem_phis_of_inst {d : InstData} (hd : d ∈ ids.filterMap p.inst?) (hinst : d.inst = φ.inst) :
    φ ∈ ids.filterMap p.phi? := by
  obtain ⟨i, hi, hd⟩ := mem_filterMap.mp hd
  refine mem_filterMap.mpr ⟨i, hi, phi?_eq_some.mpr ⟨d.block, d.predicate, ?_⟩⟩
  rw [hd, ← Phi.inst, ← hinst]

section Code

variable {line : Inst → Option Expr → Prop} {branches loops : Expr → List Phi → Prop}
  (hline : ∀ d ∈ p.listedInsts, d ∈ p.allInsts → line d.inst d.predicate)
  (hbranch : ∀ c ts es j, .branch c ts es j ∈ p.parts → j ∈ p.nodesIn p.body →
    branches c (p.joinPhis (.branch c ts es j)))
  (hloop : ∀ c bs j, .loop c bs j ∈ p.parts → j ∈ p.nodesIn p.body → loops c (p.joinPhis (.loop c bs j)))

include hline hbranch hloop

lemma forall_code_of_subset (hfits : t.Fits p) (hlisted : ∀ n ∈ t.roots, n ∈ p.listed)
    (hnodes : ∀ n ∈ t.nodes, n ∈ p.nodesIn p.body) : (t.code p).Forall line branches loops := by
  have hsub : ∀ (id n : NodeId) (node : Node), id ∈ p.nodesIn p.body → p.node? id = some node → n ∈ node.listed →
      n ∈ p.listed := by
    intro id n node hid hnode hn
    refine mem_append_right _ (mem_flatMap.mpr ⟨id, hid, ?_⟩)
    rw [hnode]
    exact hn
  induction t with
  | nil => exact trivial
  | block id insts rest ih =>
    simp only [Tree.roots, Tree.nodes, mem_cons, forall_eq_or_imp] at hlisted hnodes
    rw [Tree.code, Code.forall_append, Code.forall_ofLines]
    refine ⟨?_, ih hfits.2 hlisted.2 hnodes.2⟩
    intro x hx
    obtain ⟨i, hi, hline'⟩ := mem_filterMap.mp hx
    obtain ⟨d, hd, rfl⟩ := map_eq_some_iff.mp hline'
    have hi : i ∈ p.blockInsts id := by
      rw [blockInsts, hfits.1]
      exact hi
    exact hline d (mem_filterMap.mpr ⟨i, mem_flatMap.mpr ⟨id, hlisted.1, hi⟩, hd⟩)
      (mem_filterMap.mpr ⟨i, mem_flatMap.mpr ⟨id, hnodes.1, hi⟩, hd⟩)
  | branch id t e join phis rest iht ihe ih =>
    simp only [Tree.roots, Tree.nodes, mem_cons, mem_append, forall_eq_or_imp] at hlisted hnodes
    obtain ⟨⟨c, hc⟩, ht, he, hj, hrest⟩ := hfits
    have hcond : p.condition id = c := by
      rw [condition, hc]
      rfl
    refine ⟨?_, iht ht ?_ fun n hn => hnodes.2 n (.inl (.inl hn)), ihe he ?_ fun n hn =>
      hnodes.2 n (.inl (.inr hn)), ih hrest hlisted.2 fun n hn => hnodes.2 n (.inr (.inr hn))⟩
    · rw [hcond, ← hj]
      exact hbranch c _ _ join (mem_filterMap.mpr ⟨id, hnodes.1, hc⟩) (hnodes.2 join (.inr (.inl rfl)))
    · exact fun n hn => hsub id n _ hnodes.1 hc (mem_append_left _ hn)
    · exact fun n hn => hsub id n _ hnodes.1 hc (mem_append_right _ hn)
  | loop id body join phis rest ihb ih =>
    simp only [Tree.roots, Tree.nodes, mem_cons, mem_append, forall_eq_or_imp] at hlisted hnodes
    obtain ⟨⟨c, hc⟩, hb, hj, hrest⟩ := hfits
    have hcond : p.condition id = c := by
      rw [condition, hc]
      rfl
    refine ⟨?_, ihb hb ?_ fun n hn => hnodes.2.2 n (.inl hn), ih hrest hlisted.2 fun n hn => hnodes.2.2 n (.inr hn)⟩
    · rw [hcond, ← hj]
      exact hloop c _ join (mem_filterMap.mpr ⟨id, hnodes.1, hc⟩) hnodes.2.1
    · exact fun n hn => hsub id n _ hnodes.1 hc hn

lemma forall_code (ht : t.Spans p) : (t.code p).Forall line branches loops := by
  refine forall_code_of_subset hline hbranch hloop ht.sound.fits ?_ ?_
  · intro n hn
    rw [ht.roots] at hn
    exact mem_append_left _ hn
  · intro n hn
    rw [nodesIn_body ht]
    exact hn

end Code

lemma map_inst_filterMap_phi? (h : ∀ i ∈ ids, ∃ φ, p.phi? i = some φ) :
    (ids.filterMap p.phi?).map Phi.inst = (ids.filterMap p.inst?).map (·.inst) := by
  induction ids with
  | nil => rfl
  | cons i rest ih =>
    obtain ⟨φ, hφ⟩ := h i mem_cons_self
    obtain ⟨b, predicate, hd⟩ := phi?_eq_some.mp hφ
    rw [filterMap_cons_some hφ, filterMap_cons_some hd, map_cons, map_cons,
      ih fun i hi => h i (mem_cons_of_mem _ hi)]
    rfl

lemma insts_code (hphis : ∀ b ∈ t.joins, ∀ i ∈ b.2, ∃ φ, p.phi? i = some φ) :
    (t.code p).insts = (t.insts.filterMap p.inst?).map (·.inst) := by
  induction t with
  | nil => rfl
  | block id is rest ih =>
    have hline : (is.filterMap p.line?).map (·.1) = (is.filterMap p.inst?).map (·.inst) := by
      rw [map_filterMap, map_filterMap]
      refine filterMap_congr fun i _ => ?_
      rw [line?, Option.map_map]
      rfl
    rw [Tree.code, Code.insts_append, Code.insts_ofLines, ih hphis, hline, Tree.insts,
      filterMap_append, map_append]
  | branch id t e join phis rest iht ihe ih =>
    simp only [Tree.joins, mem_append, mem_cons] at hphis
    rw [Tree.code, Code.insts, iht fun b hb => hphis b (.inl (.inl hb)), ihe fun b hb => hphis b (.inl (.inr hb)),
      ih fun b hb => hphis b (.inr (.inr hb)), map_inst_filterMap_phi? (hphis (join, phis) (.inr (.inl rfl)))]
    simp only [Tree.insts, filterMap_append, map_append]
  | loop id body join phis rest ihb ih =>
    simp only [Tree.joins, mem_append, mem_cons] at hphis
    rw [Tree.code, Code.insts, ihb fun b hb => hphis b (.inr (.inl hb)), ih fun b hb =>
      hphis b (.inr (.inr hb)), map_inst_filterMap_phi? (hphis (join, phis) (.inl rfl))]
    simp only [Tree.insts, filterMap_append, map_append]

lemma insts_code_eq (ht : t.Spans p) : (t.code p).insts = p.allInsts.map (·.inst) := by
  rw [insts_code ht.sound.phis, allInsts, forward_eq ht]

lemma not_hasCall (ht : t.Spans p) (hfree : ∀ d ∈ p.allInsts, d.inst.isCall = false) :
    ¬ p.HasCall t.insts := by
  intro ⟨i, hi, d, hd, hcall⟩
  rw [← forward_eq ht] at hi
  rw [hfree d (mem_filterMap.mpr ⟨i, hi, hd⟩)] at hcall
  cases hcall

lemma writes_code (ht : t.Spans p) : (t.code p).writes = p.written := by
  rw [Code.writes, insts_code_eq ht, written, filterMap_map]
  rfl

/-! ## Live locals -/

def StoresLive (p : Procedure) : Prop :=
  ∀ d ∈ p.allInsts, ∀ id ∈ d.inst.storesLocal?, (p.local? id).isSome
deriving Decidable

lemma StoresLive.written (h : p.StoresLive) (hverify : p.verify = .ok ()) : ∀ id ∈ p.written, (p.local? id).isSome := by
  intro id hid
  obtain ⟨t, ht, hlive⟩ := exists_live_tree_of_verify hverify
  obtain ⟨d, hd, hwrites⟩ := mem_filterMap.mp hid
  obtain ⟨v, hv, hlocal⟩ := bind_eq_some_iff.mp hwrites
  cases v with
  | glob g => cases hlocal
  | loc id' =>
    cases hlocal
    obtain ⟨i, hi, hinst⟩ := mem_filterMap.mp hd
    rw [forward_eq ht] at hi
    by_cases hstore : d.inst.storesLocal? = some id
    · exact h d hd id hstore
    · -- what is not stored is defined
      have hdef : d.inst.def? = some id := by
        cases hd' : d.inst with
        | store target indexes value =>
          rw [hd'] at hv hstore
          cases hv
          exact absurd rfl hstore
        | _ =>
          rw [hd'] at hv
          simpa [Inst.writes?] using hv
      refine (hlive i hi d hinst id (mem_append_right _ ?_)).resolve_left not_false
      rw [hdef]
      exact mem_singleton.mpr rfl

lemma SingleAssignment.fresh_enter (h : p.SingleAssignment) (w : World) (id : ProcId)
    (args : List Value) : (w.enter id p args).Fresh p.written :=
  fun x hx => Env.ofArgs_get?_of_not_mem fun hparam => h.params x hparam hx

end Procedure

end ActorNet
