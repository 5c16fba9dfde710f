import ActorNet.Proofs.PhiLowering.Copies
import ActorNet.Proofs.Structure.Listings
import ActorNet.Proofs.Structure.Sites

/-!
# Lowering a procedure lowers its code

The transformation walks through the lists of a procedure and changes them in place: it appends
copies to the blocks before joins, empties the joins, and replaces the phis of other blocks. Each
step of the walk rewrites the list it is in (`Rewrites`), and the code of the list afterwards is the
lowered code (`lowersLists`). Instructions that are no phis stay as they are, in the same order
(`Keeps`), and the walk counts the phis (`Tally`).
-/

namespace ActorNet

open List Transform

variable {edge : Edge} {phi : InstId} {edges : List Edge} {ids pre phis : List InstId} {zeroed defined : List LocalId}
  {arms : List PhiArm} {target : LocalId} {done done' : Lowered} {depth pos pos' shift : Nat} {b id join : NodeId}
  {φ : Phi} {p1 p p' q : Procedure} {t d r : Tree} {L : NodeList} {s s1 s' : Site} {new new' : List (Edge × Inst)}

variable {i : InstId} {post is : List InstId} {done1 : Lowered}

namespace Procedure

/-- What lowering assigns to the target of a phi for an operand. -/
def copied (p : Procedure) (defined : List LocalId) (target : LocalId) (source : VarRef) : Expr :=
  match source.local?.filter (p.isUnset defined), p.local? target with
  | some _, some v => Expr.zeroOf v.ty
  | _, _ => .var source

/-- Whether an instruction is there and is no phi. -/
def isPlain (p : Procedure) (i : InstId) : Bool :=
  (p.inst? i).any fun d => !d.inst.isPhi

lemma index_lt_of_isPlain (h : p.isPlain i = true) : i.index < p.insts.size := by
  cases hd : p.inst? i with
  | none =>
    rw [isPlain, hd] at h
    cases h
  | some d => exact index_lt_of_inst? hd

/-- Locals and instructions that are no phis are as before, and blocks list these instructions in
the same order. -/
structure Keeps (p p' : Procedure) : Prop where
  locals : p'.locals = p.locals
  params : p'.params = p.params
  insts : ∀ i, p.isPlain i = true → p'.inst? i = p.inst? i
  lists : ∀ n, (p'.blockInsts n).filter p.isPlain = (p.blockInsts n).filter p.isPlain

namespace Keeps

lemma refl (p : Procedure) : Keeps p p := ⟨rfl, rfl, fun _ _ => rfl, fun _ => rfl⟩

lemma trans (h : Keeps p p1) (h' : Keeps p1 p') : Keeps p p' := by
  have hplain : ∀ i, p.isPlain i = true → p1.isPlain i = true := by
    intro i hi
    rw [isPlain, h.insts i hi]
    exact hi
  have hfilter : ∀ l : List InstId, l.filter p.isPlain = (l.filter p1.isPlain).filter p.isPlain := by
    intro l
    rw [filter_filter]
    refine filter_congr fun i _ => ?_
    rw [Bool.eq_iff_iff, Bool.and_eq_true, iff_self_and]
    exact hplain i
  refine ⟨h'.locals.trans h.locals, h'.params.trans h.params, ?_, fun n => ?_⟩
  · exact fun i hi => (h'.insts i (hplain i hi)).trans (h.insts i hi)
  · rw [hfilter, h'.lists, ← hfilter, h.lists]

lemma of_sameListings (h : SameListings p p') : Keeps p p' :=
  ⟨by rw [h.rest], by rw [h.rest], fun i _ => by rw [h.rest]; rfl, fun n => by rw [h.listed]⟩

lemma of_emitted {new pre : List InstId} {added : List (Inst × Option Expr)} (h : Emitted b pre post new added p p')
    (hb : p.node? b = some (.block (pre ++ post))) (hlocals : p'.locals = p.locals) : Keeps p p' := by
  refine ⟨hlocals, by rw [h.rest], fun i hi => h.insts i (index_lt_of_isPlain hi), fun n => ?_⟩
  by_cases hn : n = b
  · have hnew : new.filter p.isPlain = [] :=
      filter_eq_nil_iff.mpr fun i hi hplain => Nat.not_lt.mpr (h.fresh i hi) (index_lt_of_isPlain hplain)
    rw [hn, blockInsts_eq h.block, blockInsts_eq hb, filter_append, filter_append, hnew, List.append_nil, ← filter_append]
  · rw [Tree.blockInsts_congr (h.nodes n hn)]

/-- The list of one block has changed, but not in what is no phi. -/
lemma of_setBlock (is' : List InstId) (hb : p.node? b = some (.block is))
    (hlocals : p'.locals = p.locals) (hparams : p'.params = p.params)
    (hnodes : p'.nodes = (p.setBlock b is').nodes) (hinsts : ∀ i, p.isPlain i = true →
    p'.inst? i = p.inst? i) (hlist : is'.filter p.isPlain = is.filter p.isPlain) : Keeps p p' := by
  refine ⟨hlocals, hparams, hinsts, fun n => ?_⟩
  have hlisted : p'.blockInsts n = (p.setBlock b is').blockInsts n := by
    rw [blockInsts, blockInsts, node?, node?, hnodes]
  rw [hlisted, blockInsts_setBlock hb]
  by_cases hn : n = b
  · rw [if_pos hn, hlist, hn, blockInsts_eq hb]
  · rw [if_neg hn]

end Keeps

/-- What has been done grows by a number of phis; no parameter is among the locals for which zero
was assigned. -/
structure Tally (p : Procedure) (n : Nat) (done done' : Lowered) : Prop where
  phis : done'.phis = done.phis + n
  zeroed : ∀ id ∈ done'.zeroed, id ∈ done.zeroed ∨ id ∉ p.params

lemma Tally.refl (p : Procedure) (done : Lowered) : Tally p 0 done done := ⟨rfl, fun _ => .inl⟩

lemma Tally.trans {m n : Nat} (h : Tally p m done done1) (h' : Tally p1 n done1 done')
    (hkeeps : Keeps p p1) : Tally p (m + n) done done' := by
  refine ⟨by rw [h'.phis, h.phis, Nat.add_assoc], fun id hid => ?_⟩
  rcases h'.zeroed id hid with hid | hid
  · exact h.zeroed id hid
  · rw [hkeeps.params] at hid
    exact .inr hid

lemma Tally.one (h : ∀ id ∈ zeroed, id ∉ p.params) : Tally p 1 done ⟨done.phis + 1, done.zeroed ++ zeroed⟩ :=
  ⟨rfl, fun id hid => (mem_append.mp hid).imp_right (h id)⟩

lemma copied_congr (hlocals : q.locals = p.locals) (hparams : q.params = p.params) :
    q.copied defined = p.copied defined := by
  have hlocal : ∀ id, q.local? id = p.local? id := fun id => by rw [local?, local?, hlocals]
  have hunset : q.isUnset defined = p.isUnset defined := by
    funext id
    rw [isUnset, isUnset, hlocal, isParam, isParam, hparams]
  funext target source
  rw [copied, copied, hunset, hlocal]

lemma yields_copyValue {source : VarRef} {value : Expr}
    (h : Yields (copyValue defined target source) p (value, zeroed) p') :
    value = p.copied defined target source ∧ p' = p ∧ ∀ id ∈ zeroed, id ∉ p.params := by
  rw [copyValue, yields_read] at h
  split at h
  · rename_i id v hid hv
    split at h
    · rename_i zero hzero
      simp only [yields_pure, Prod.mk.injEq] at h
      obtain ⟨⟨rfl, rfl⟩, hp⟩ := h
      refine ⟨?_, hp, fun id' hid' hparam => ?_⟩
      · rw [copied, hid, hv]
        unfold Expr.zero? at hzero
        split at hzero
        · cases hzero
        · exact (Option.some.inj hzero).symm
      · cases mem_singleton.mp hid'
        have hunset := (filter_eq_some_iff.mp hid).2
        simp [isUnset, isParam, hparam] at hunset
    · exact (yields_transform_fail.mp h).elim
  · rename_i hset
    simp only [yields_pure, Prod.mk.injEq] at h
    obtain ⟨⟨rfl, rfl⟩, hp⟩ := h
    refine ⟨?_, hp, fun id hid => by cases hid⟩
    unfold copied
    split
    · exact (hset _ _ ‹_› ‹_›).elim
    · rfl

/-! ## Edges -/

lemma yields_lowerEdges_cons {list : NodeList} {rest : List Edge}
    (h : Yields (lowerEdges defined list target arms pos (edge :: rest)) p (pos', zeroed) p') :
    ∃ arm b inserted p1 i p2 own more, armFor? arms edge = some arm ∧ zeroed = own ++ more ∧
      (∀ id ∈ own, id ∉ p1.params) ∧ Yields (edgeBlock list pos edge) p (b, inserted) p1 ∧
      Yields (appendInst b (.assign target (p1.copied defined target arm.var))) p1 i p2 ∧
      Yields (lowerEdges defined list target arms (if inserted then pos + 1 else pos) rest) p2 (pos', more) p' := by
  rw [lowerEdges] at h
  cases harm : armFor? arms edge with
  | none => simp [harm] at h
  | some arm =>
    simp only [harm, yields_bind, yields_liftM, yields_pure, Prod.mk.injEq] at h
    obtain ⟨⟨b, inserted⟩, p1, hblock, ⟨value, zeroed'⟩, p2, hcopy, i, p3, happend, ⟨pos4, more⟩,
      p4, hrest, ⟨hpos, hzeroed⟩, hp⟩ := h
    obtain ⟨hvalue, hp2, hown⟩ := yields_copyValue hcopy
    subst hvalue hp2 hpos hp
    exact ⟨arm, b, inserted, p2, i, p3, zeroed', more, rfl, hzeroed, hown, hblock, happend, hrest⟩

lemma Keeps.copy {inst : Inst} {inserted : Bool} (hblock : Yields (edgeBlock L pos edge) p (b, inserted) p1)
    (happend : Yields (appendInst b inst) p1 i p') : Keeps p p' := by
  obtain ⟨is, hb, _, hp'⟩ := yields_appendInst.mp happend
  have hb' : p1.node? b = some (.block (is ++ [])) := by rwa [List.append_nil]
  have hemit : Emitted b is [] [⟨p1.insts.size⟩] [(inst, none)] p1 p' := .single hb' hp'
  exact trans (of_sameListings (sameListings_edgeBlock hblock)) (.of_emitted hemit hb' (by rw [hp']; rfl))

end Procedure

open Procedure Tree

/-! ## Joins -/

/-- The copies of a phi that go to the ends of edges. -/
def copiesOn (value : LocalId → VarRef → Expr) (edges : List Edge) (φ : Phi) : List (Edge × Inst) :=
  edges.filterMap fun edge => (armFor? φ.arms edge).map fun arm => (edge, .assign φ.target (value φ.target arm.var))

lemma onEdge_copiesOn (value : LocalId → VarRef → Expr) (hedge : edge ∈ s.edges) (φ : Phi) :
    onEdge edge (copiesOn value s.edges φ) =
      ((armFor? φ.arms edge).map fun arm => .assign φ.target (value φ.target arm.var)).toList := by
  have htwo : ∃ other, other ≠ edge ∧ (s.edges = [edge, other] ∨ s.edges = [other, edge]) := by
    cases s <;> cases edge <;> simp_all [Site.edges]
  obtain ⟨other, hne, hedges | hedges⟩ := htwo <;>
    cases hown : armFor? φ.arms edge <;> cases hother :
      armFor? φ.arms other <;> simp [hedges, copiesOn, onEdge, hown, hother, hne]

lemma ofInsts_copiesOn (value : LocalId → VarRef → Expr) (hedge : edge ∈ s.edges) (phis : List Phi) :
    Code.ofInsts (onEdge edge (phis.flatMap (copiesOn value s.edges))) = Code.copies value edge phis := by
  rw [Code.ofInsts, Code.copies]
  congr 1
  induction phis with
  | nil => rfl
  | cons φ phis ih =>
    rw [flatMap_cons, onEdge_append, map_append, ih, onEdge_copiesOn value hedge, filterMap_cons]
    cases armFor? φ.arms edge <;> rfl

lemma Procedure.Keeps.copied (h : Keeps p p') : p'.copied defined = p.copied defined :=
  copied_congr h.locals h.params

/-- Copies have been put at the ends of the edges into a join; the phis are still there. -/
structure SiteLowered (L : NodeList) (id join : NodeId) (phis : List InstId) (r : Tree) (s s' : Site)
    (new : List (Edge × Inst)) (p p' : Procedure) : Prop extends SiteRewrites L id join phis r s s' new p p' where
  phis : ∀ i ∈ phis, p'.inst? i = p.inst? i
  height : ∀ n, 1 ≤ n → (∀ t ∈ s.trees, t.height ≤ n) → ∀ t ∈ s'.trees, t.height ≤ n
  keeps : Procedure.Keeps p p'

lemma SiteLowered.refl (h : ListAt L (s.tree id join phis r) p) : SiteLowered L id join phis r s s [] p p :=
  ⟨.refl h, fun _ _ => rfl, fun _ _ h => h, .refl p⟩

lemma SiteLowered.trans (h : SiteLowered L id join phis r s s1 new p p1)
    (h' : SiteLowered L id join phis r s1 s' new' p1 p') : SiteLowered L id join phis r s s' (new ++ new') p p' :=
  ⟨h.toSiteRewrites.trans h'.toSiteRewrites, fun i hi => (h'.phis i hi).trans (h.phis i hi),
    fun n hn ht => h'.height n hn (h.height n hn ht), h.keeps.trans h'.keeps⟩

/-- One phi of a join: a copy at the end of each edge. The induction is on the edges that are
left. -/
lemma lowerEdges_rewrites (h : ListAt L (s.tree id join phis r) p)
    (hy : Yields (lowerEdges defined L φ.target φ.arms s.before.roots.length edges) p (pos', zeroed) p') :
    ∃ s', SiteLowered L id join phis r s s' (copiesOn (p.copied defined) edges φ) p p' ∧
      pos' = s'.before.roots.length ∧ ∀ id ∈ zeroed, id ∉ p.params := by
  induction edges generalizing s p zeroed with
  | nil =>
    simp only [lowerEdges, yields_pure, Prod.mk.injEq] at hy
    obtain ⟨⟨hpos, rfl⟩, rfl⟩ := hy
    exact ⟨s, .refl h, hpos, fun id hid => by cases hid⟩
  | cons edge rest ih =>
    obtain ⟨arm, b, inserted, p1, i, p2, own, more, harm, rfl, hown, hblock, happend, hy⟩ := yields_lowerEdges_cons hy
    obtain ⟨s1, hrw, hlength, hphis, hheight⟩ := SiteRewrites.append h hblock rfl (.refl _) happend
    have hkeeps := Procedure.Keeps.copy hblock happend
    have hrest := (sameListings_edgeBlock hblock).rest
    rw [hrest] at hown
    have hcopied1 : p1.copied defined = p.copied defined := by
      rw [hrest]
      exact copied_congr rfl rfl
    have hpos : (if inserted then s.before.roots.length + 1 else s.before.roots.length) = s1.before.roots.length := by
      rw [hlength]
      cases inserted <;> rfl
    rw [hpos] at hy
    obtain ⟨s', hlowered, hpos', hmore⟩ := ih hrw.rewrites.list hy
    rw [hkeeps.copied] at hlowered
    rw [hkeeps.params] at hmore
    have hnew : copiesOn (p.copied defined) (edge :: rest) φ =
        [(edge, .assign φ.target (p1.copied defined φ.target arm.var))] ++ copiesOn (p.copied defined) rest φ := by
      rw [copiesOn, filterMap_cons, harm, hcopied1]
      rfl
    rw [hnew]
    exact ⟨s', SiteLowered.trans ⟨hrw, hphis, hheight, hkeeps⟩ hlowered, hpos', forall_mem_append.mpr ⟨hown, hmore⟩⟩

/-- The phis that are lowered: each is one of the join. -/
lemma yields_lowerPhis_cons {result : Nat × Lowered} (hφ : p.phi? i = some φ)
    (h : Yields (lowerPhis defined L edges pos (i :: ids) done) p result p') : ∃ pos1 zeroed p1,
    Yields (lowerEdges defined L φ.target φ.arms pos edges) p (pos1, zeroed) p1 ∧ Yields
      (lowerPhis defined L edges pos1 ids ⟨done.phis + 1, done.zeroed ++ zeroed⟩) p1 result p' := by
  obtain ⟨b, predicate, hi⟩ := phi?_eq_some.mp hφ
  rw [lowerPhis, yields_read, hi] at h
  simp only [yields_bind] at h
  obtain ⟨⟨pos1, zeroed⟩, p1, hedges, hrest⟩ := h
  exact ⟨pos1, zeroed, p1, hedges, hrest⟩

/-- The phis of a join: copies at the end of each edge. The induction is on the phis that are
left. -/
lemma lowerPhis_rewrites (hids : ids ⊆ phis) (h : ListAt L (s.tree id join phis r) p)
    (hy : Yields (lowerPhis defined L edges s.before.roots.length ids done) p (pos', done') p') :
    ∃ s', SiteLowered L id join phis r s s' ((ids.filterMap p.phi?).flatMap (copiesOn (p.copied defined) edges)) p p' ∧
      pos' = s'.before.roots.length ∧ Tally p (ids.filterMap p.phi?).length done done' := by
  induction ids generalizing s p done with
  | nil =>
    rw [lowerPhis, yields_pure, Prod.mk.injEq] at hy
    obtain ⟨⟨hpos, rfl⟩, rfl⟩ := hy
    exact ⟨s, .refl h, hpos, .refl _ _⟩
  | cons i ids ih =>
    obtain ⟨hi, hrest⟩ := cons_subset.mp hids
    obtain ⟨φ, hφ⟩ := (Site.joinAt h).phis i hi
    obtain ⟨pos1, zeroed, p1, hedges, hy⟩ := yields_lowerPhis_cons hφ hy
    obtain ⟨s1, hs1, rfl, hzeroed⟩ := lowerEdges_rewrites h hedges
    obtain ⟨s', hs', hpos, htally⟩ := ih hrest hs1.rewrites.list hy
    have hphis : ids.filterMap p1.phi? = ids.filterMap p.phi? :=
      filterMap_congr fun j hj => phi?_congr (hs1.phis j (hrest hj))
    rw [hphis, hs1.keeps.copied] at hs'
    rw [hphis] at htally
    rw [filterMap_cons, hφ, flatMap_cons, length_cons, Nat.add_comm]
    exact ⟨s', hs1.trans hs', hpos, (Tally.one hzeroed).trans htally hs1.keeps⟩

lemma yields_lowerJoin (h : Yields (lowerJoin defined L edges pos join done) p (shift, done') p') :
    ∃ after p1, Yields (lowerPhis defined L edges pos (p.blockInsts join) done) p (after, done') p1 ∧
      shift = after - pos ∧ ((p.blockInsts join = [] ∧ p' = p1) ∨ Yields (clearBlock join) p1 () p') := by
  rw [lowerJoin, yields_read] at h
  simp only [yields_bind] at h
  obtain ⟨⟨after, done1⟩, p1, hphis, h⟩ := h
  by_cases hempty : p.blockInsts join = []
  · simp only [hempty, isEmpty_nil, Bool.not_true, Bool.false_eq_true, if_false, yields_pure,
      Prod.mk.injEq] at h
    obtain ⟨⟨hshift, rfl⟩, rfl⟩ := h
    exact ⟨after, _, hphis, hshift, .inl ⟨hempty, rfl⟩⟩
  · have hempty' : (p.blockInsts join).isEmpty = false := by simpa using hempty
    simp only [hempty', Bool.not_false, if_true, yields_pure, Prod.mk.injEq, yields_bind, yields_liftM] at h
    obtain ⟨_, _, hclear, ⟨hshift, rfl⟩, rfl⟩ := h
    exact ⟨after, p1, hphis, hshift, .inr hclear⟩

/-- The join of a construct has been lowered: there are copies at the end of each edge, and the join
is empty. -/
structure JoinLowered (value : LocalId → VarRef → Expr) (L : NodeList) (id join : NodeId)
    (phis : List InstId) (r : Tree) (s s' : Site) (p p' : Procedure) : Prop where
  rewrites : Rewrites L (s.tree id join phis r) (s'.tree id join [] r) p p'
  alike : s.Alike s'
  after : r.Stays p p'
  condition : p'.condition id = p.condition id
  codes : ∀ edge ∈ s.edges, s'.codeAt p' edge = (s.codeAt p edge).append (Code.copies value edge (phis.filterMap p.phi?))
  others : ∀ edge, edge ∉ s.edges → s'.codeAt p' edge = s.codeAt p edge
  height : ∀ n, 1 ≤ n → (∀ t ∈ s.trees, t.height ≤ n) → ∀ t ∈ s'.trees, t.height ≤ n
  keeps : Procedure.Keeps p p'

lemma Procedure.Keeps.cleared {u : Unit} (hlisted : p.blockInsts b = is)
    (hphis : ∀ i ∈ is, ∃ φ, p.phi? i = some φ) (hy : Yields (clearBlock b) p u p') : Keeps p p' := by
  obtain ⟨_, hb, rfl⟩ := yields_clearBlock.mp hy
  cases hlisted.symm.trans (blockInsts_eq hb)
  have hplain : ∀ i ∈ is, p.isPlain i = false := by
    intro i hi
    obtain ⟨φ, hφ⟩ := hphis i hi
    obtain ⟨b, predicate, hd⟩ := phi?_eq_some.mp hφ
    rw [isPlain, hd]
    rfl
  refine .of_setBlock _ hb rfl rfl rfl (fun i hi => ?_) ?_
  · rw [inst?_eraseInsts, if_neg fun hmem => Bool.noConfusion ((hplain i hmem).symm.trans hi), inst?_setBlock]
  · rw [filter_nil, eq_comm, filter_eq_nil_iff]
    exact fun i hi => by rw [hplain i hi]; exact Bool.false_ne_true

lemma lowerJoin_rewrites (h : ListAt L (s.tree id join phis r) p)
    (hy : Yields (lowerJoin defined L s.edges s.before.roots.length join done) p (shift, done') p') :
    ∃ s', JoinLowered (p.copied defined) L id join phis r s s' p p' ∧
      s'.before.roots.length = s.before.roots.length + shift ∧ Tally p (phis.filterMap p.phi?).length done done' := by
  obtain ⟨after, p1, hphis, hshift, hclear⟩ := yields_lowerJoin hy
  rw [(Site.joinAt h).listed] at hphis hclear
  obtain ⟨s', hs', rfl, htally⟩ := lowerPhis_rewrites (List.Subset.refl _) h hphis
  have hlength : s'.before.roots.length = s.before.roots.length + shift := by
    have := hs'.position
    omega
  have hcodes : ∀ edge ∈ s.edges,
      s'.codeAt p1 edge = (s.codeAt p edge).append (Code.copies (p.copied defined) edge (phis.filterMap p.phi?)) := by
    intro edge hedge
    rw [hs'.codes, ofInsts_copiesOn _ hedge]
  have hothers : ∀ edge, edge ∉ s.edges → s'.codeAt p1 edge = s.codeAt p edge := by
    intro edge hedge
    rw [hs'.codes, onEdge_eq_nil fun x hx (heq : x.1 = edge) => hedge (heq ▸ hs'.edges x hx)]
    exact Code.append_done _
  rcases hclear with ⟨rfl, rfl⟩ | hclear
  · exact ⟨s', ⟨hs'.rewrites, hs'.alike,
      hs'.after, hs'.condition, hcodes, hothers, hs'.height, hs'.keeps⟩, hlength, htally⟩
  · have hcleared := cleared_of_clearBlock hclear
    rw [(Site.joinAt hs'.rewrites.list).listed] at hcleared
    obtain ⟨hrw, hr, hsame, hcond⟩ := Site.rewrites_of_cleared hs'.rewrites.list hcleared
    exact ⟨s', ⟨hs'.rewrites.trans hrw, hs'.alike, hs'.after.trans hr, hcond.trans hs'.condition,
      fun edge hedge => (hsame edge).trans (hcodes edge hedge), fun edge hedge => (hsame edge).trans (hothers edge hedge),
      hs'.height, hs'.keeps.trans (.cleared (Site.joinAt hs'.rewrites.list).listed (Site.joinAt hs'.rewrites.list).phis hclear)⟩,
      hlength, htally⟩

/-! ## Phis outside of joins -/

lemma yields_lowerArms_cons {arm : PhiArm} (h : Yields (lowerArms defined phi target (arm :: arms)) p zeroed p') :
    ∃ guard copy p1 p2 own more, arm.guard = some guard ∧ zeroed = own ++ more ∧ (∀ id ∈ own, id ∉ p.params) ∧
      Yields (insertBefore phi (.assign target (p.copied defined target arm.var))) p copy p1 ∧
      Yields (setPredicate copy (some guard)) p1 () p2 ∧ Yields (lowerArms defined phi target arms) p2 more p' := by
  rw [lowerArms] at h
  cases hg : arm.guard with
  | none => simp [hg] at h
  | some guard =>
    simp only [hg, yields_bind, yields_liftM, yields_pure] at h
    obtain ⟨⟨value, own⟩, p0, hcopy, copy, p1, hinsert, _, p2, hset, more, p3, hrest, hzeroed, rfl⟩ := h
    obtain ⟨rfl, rfl, hown⟩ := yields_copyValue hcopy
    exact ⟨guard, copy, p1, p2, own, more, rfl, hzeroed, hown, hinsert, hset, hrest⟩

/-- The guarded copies before a phi. -/
lemma lowerArms_emits (h : ListAt L (d.thenBlock b (pre ++ phi :: post) r) p)
    (hy : Yields (lowerArms defined phi target arms) p zeroed p') : ∃ new, Emitted b pre
    (phi :: post) new (Code.lowerLine (p.copied defined) (.phi target arms) none) p p' ∧
      p'.locals = p.locals ∧ ∀ id ∈ zeroed, id ∉ p.params := by
  induction arms generalizing pre p zeroed with
  | nil =>
    rw [lowerArms, yields_pure] at hy
    obtain ⟨rfl, rfl⟩ := hy
    exact ⟨[], .refl h.blockAt.1, rfl, fun id hid => by cases hid⟩
  | cons arm arms ih =>
    obtain ⟨guard, copy, p1, p2, own, more, hguard, rfl, hown, hinsert, hset, hy⟩ := yields_lowerArms_cons hy
    obtain ⟨hb, _, hrec⟩ := h.blockAt
    obtain ⟨data, hdata, hblock⟩ := hrec phi (by simp)
    obtain ⟨rfl, hp1⟩ := (yields_insertBefore hb h.not_mem_before hdata hblock).mp hinsert
    have hp2 := yields_setPredicate.mp hset
    simp only [hp1, setBlock, Arena.modify_push] at hp2
    have hfirst : Emitted b pre (phi :: post) [⟨p.insts.size⟩]
        [(.assign target (p.copied defined target arm.var), some guard)] p p2 := .single hb hp2
    have hlocals : p2.locals = p.locals := by rw [hp2]
    have hparams : p2.params = p.params := by rw [hp2]
    obtain ⟨hrw, _⟩ := Rewrites.emitted hfirst h
    obtain ⟨new, hrest, hlocals', hmore⟩ := ih hrw.list hy
    rw [copied_congr hlocals hparams] at hrest
    rw [hparams] at hmore
    refine ⟨⟨p.insts.size⟩ :: new, ?_, hlocals'.trans hlocals, forall_mem_append.mpr ⟨hown, hmore⟩⟩
    simp only [Code.lowerLine, filterMap_cons, hguard, map_some] at hrest ⊢
    exact hfirst.trans hrest

/-- The instructions of a block, of which those before `ids` are lowered already. The induction is
on `ids`. -/
lemma lowerHoisted_rewrites (h : ListAt L (d.thenBlock b (pre ++ ids) r) p)
    (hy : Yields (lowerHoisted defined ids done) p done' p') :
    ∃ is', Rewrites L (d.thenBlock b (pre ++ ids) r) (d.thenBlock b is' r) p p' ∧
      d.Stays p p' ∧ r.Stays p p' ∧ Procedure.Keeps p p' ∧
      Tally p ((ids.filterMap p.line?).countP fun line => line.1.isPhi) done done' ∧
      is'.filterMap p'.line? = pre.filterMap p.line? ++ (ids.filterMap p.line?).flatMap
        fun line => Code.lowerLine (p.copied defined) line.1 line.2 := by
  induction ids generalizing pre p done with
  | nil =>
    rw [lowerHoisted, yields_pure] at hy
    obtain ⟨rfl, rfl⟩ := hy
    refine ⟨pre, ?_, Stays.refl d _, Stays.refl r _, .refl _, .refl _ _, (List.append_nil _).symm⟩
    rw [List.append_nil] at h ⊢
    exact Rewrites.refl h
  | cons i ids ih =>
    obtain ⟨hb, hnodup, hrec⟩ := h.blockAt
    obtain ⟨⟨inst, b', predicate⟩, hdata, hblock⟩ := hrec i (by simp)
    rw [lowerHoisted, yields_read, hdata] at hy
    have hline : p.line? i = some (inst, predicate) := by rw [line?, hdata, map_some]
    cases inst with
    | phi target arms =>
      simp only [yields_bind, yields_liftM] at hy
      obtain ⟨zeroed, p1, harms, _, p2, hremove, hy⟩ := hy
      obtain ⟨new, hemit, hlocals1, hzeroed⟩ := lowerArms_emits h harms
      obtain ⟨hrw1, hd1, hr1⟩ := Rewrites.emitted hemit h
      have hold1 : ∀ j ∈ pre ++ i :: ids, p1.inst? j = p.inst? j := fun j hj => hemit.insts j (h.index_lt j hj)
      obtain ⟨hb1, _, _⟩ := hrw1.list.blockAt
      have hfresh := hrw1.list.not_mem_before
      have hdata1 : p1.inst? i = some ⟨.phi target arms, b', predicate⟩ := (hold1 i (by simp)).trans hdata
      obtain ⟨_, hp2⟩ := (yields_removeInst hb1 hfresh hdata1 hblock).mp hremove
      obtain ⟨hrw2, hd2, hr2, hold2⟩ := Rewrites.removal hrw1.list hp2
      have hkeeps2 : Procedure.Keeps p1 p2 := by
        have hphi : p1.isPlain i = false := by
          rw [isPlain, hdata1]
          rfl
        rw [hp2]
        refine .of_setBlock _ hb1 rfl rfl rfl (fun j hj => ?_) ?_
        · rw [inst?_eraseInsts, if_neg, inst?_setBlock]
          intro hmem
          cases mem_singleton.mp hmem
          exact Bool.noConfusion (hphi.symm.trans hj)
        · rw [filter_append, filter_append _ (i :: ids), filter_cons_of_neg (by rw [hphi]; exact Bool.false_ne_true)]
      have hkeeps := (Procedure.Keeps.of_emitted hemit h.blockAt.1 hlocals1).trans hkeeps2
      obtain ⟨is', hrw3, hd3, hr3, hkeeps3, htally, hlines3⟩ := ih hrw2.list hy
      have hids : ids.filterMap p2.line? = ids.filterMap p.line? :=
        filterMap_congr fun j hj =>
          line?_congr ((hold2 j (by simp [hj])).trans (hold1 j (by simp [hj])))
      refine ⟨is', (hrw1.trans hrw2).trans hrw3, (hd1.trans hd2).trans hd3,
        (hr1.trans hr2).trans hr3, hkeeps.trans hkeeps3, ?_, ?_⟩
      · rw [hids] at htally
        rw [filterMap_cons, hline, countP_cons_of_pos (by rfl), Nat.add_comm]
        exact (Tally.one hzeroed).trans htally hkeeps
      have hpre : pre.filterMap p2.line? = pre.filterMap p.line? :=
        filterMap_congr fun j hj =>
          line?_congr ((hold2 j (by simp [hj])).trans (hold1 j (by simp [hj])))
      have hnew : new.filterMap p2.line? = new.filterMap p1.line? :=
        filterMap_congr fun j hj => line?_congr (hold2 j (by simp [hj]))
      rw [hlines3, filterMap_append, hpre, hnew, hids, hemit.lines, hkeeps.copied, filterMap_cons,
        hline, flatMap_cons, List.append_assoc]
      rfl
    | _ =>
      rw [append_cons] at h ⊢
      obtain ⟨is', hrw, hd, hr, hkeeps, htally, hlines⟩ := ih h hy
      refine ⟨is', hrw, hd, hr, hkeeps, ?_, ?_⟩
      · rw [filterMap_cons, hline, countP_cons_of_neg (by exact Bool.false_ne_true)]
        exact htally
      · rw [hlines, filterMap_append, filterMap_cons, filterMap_cons, hline, flatMap_cons, List.append_assoc]
        rfl

/-! ## The walk -/

/-- A list of which the part `t` has been lowered; what stands before it, `d`, was lowered
already. -/
def ListLowered (defined : List LocalId) (L : NodeList) (d t : Tree) (done done' : Lowered) (p p' : Procedure) : Prop :=
  ∃ t' : Tree, Rewrites L (d.append t) t' p p' ∧
    t'.code p' = (d.code p).append ((t.code p).lower (p.copied defined)) ∧ Procedure.Keeps p p' ∧
    Tally p (t.code p).phiCount done done'

/-- One node `x` of a list has been lowered, for which some nodes were put before it. -/
def NodeLowered (defined : List LocalId) (L : NodeList) (d x r : Tree) (shift : Nat)
    (done done' : Lowered) (p p' : Procedure) : Prop :=
  ∃ d' : Tree, Rewrites L (d.append (x.append r)) (d'.append r) p p' ∧
    d'.code p' = (d.code p).append ((x.code p).lower (p.copied defined)) ∧ r.Stays p p' ∧
    d'.roots.length = d.roots.length + shift + 1 ∧ Procedure.Keeps p p' ∧ Tally p (x.code p).phiCount done done'

def LowersLists (defined : List LocalId) (depth : Nat) : Prop :=
  ∀ (L : NodeList) (d t : Tree) (p p' : Procedure) (done done' : Lowered), ListAt L (d.append t) p →
    t.height ≤ depth →
    Yields (visitEach (lowerNode defined depth L) d.roots.length t.roots done) p done' p' →
    ListLowered defined L d t done done' p p'

lemma lowerNode_block (h : ListAt L (d.thenBlock id is r) p)
    (hy : Yields (lowerNode defined (depth + 1) L d.roots.length id done) p (shift, done') p') :
    NodeLowered defined L d (block id is nil) r shift done done' p p' := by
  have hid := h.blockAt.1
  rw [lowerNode, yields_read, hid] at hy
  simp only [yields_bind, yields_pure, Prod.mk.injEq] at hy
  obtain ⟨done1, p1, hy, ⟨rfl, rfl⟩, rfl⟩ := hy
  have h' : ListAt L (d.thenBlock id ([] ++ is) r) p := h
  obtain ⟨is', hrw, hd, hr, hkeeps, htally, hlines⟩ := lowerHoisted_rewrites h' hy
  refine ⟨d.append (block id is' nil), ?_, ?_, hr, ?_, hkeeps, ?_⟩
  · rw [Tree.append_assoc]
    exact hrw
  · rw [code_append, hd.code, Rewrites.code_block, Rewrites.code_block, Code.lower_ofLines, hlines]
    rfl
  · rw [roots_append, length_append]
    rfl
  · rw [Rewrites.code_block, Code.phiCount, Code.insts_ofLines, countP_map]
    exact htally

/-- A list inside of a construct is lowered after the join. -/
lemma lowerInner (edge : Edge) (hlists : LowersLists defined depth) (h : ListAt L (s.tree id join phis r) p)
    (ht : s.inner? edge = some t) (hheight : t.height ≤ depth)
    (hy : Yields (visitEach (lowerNode defined depth (edge.list id)) 0 (p.listNodes (edge.list id)) done) p done' p')
    : ∃ t', SiteKept L id join phis r s (s.withInner edge t') p p' ∧ t'.code p' = (t.code p).lower (p.copied defined) ∧
      (∀ edge', edge' ≠ edge → s.codeAt p' edge' = s.codeAt p edge') ∧ Procedure.Keeps p p' ∧
      Tally p (t.code p).phiCount done done' := by
  have hlist := Site.listAt_inner edge (Site.sound h) ht
  rw [hlist.nodes] at hy
  obtain ⟨t', hrw, hcode, hkeeps, htally⟩ := hlists _ nil t _ _ _ _ hlist hheight hy
  obtain ⟨hkept, hother, _⟩ := SiteKept.inner edge h ht hrw
  exact ⟨t', hkept, hcode, hother, hkeeps, htally⟩

/-- The lists inside of a conditional are lowered after its join: the copies at their ends stay as
they are. -/
lemma lowerNode_branch {e : Tree} (hlists : LowersLists defined depth)
    (h : ListAt L (d.append ((branch id t e join phis nil).append r)) p) (hdepth : 1 ≤ depth) (ht : t.height ≤ depth)
    (he : e.height ≤ depth) (hy : Yields (lowerNode defined (depth + 1) L d.roots.length id done) p (shift, done') p') :
    NodeLowered defined L d (branch id t e join phis nil) r shift done done' p p' := by
  have h : ListAt L ((Site.branch d t e).tree id join phis r) p := h
  obtain ⟨c, hid⟩ := Site.exists_shape h
  rw [lowerNode, yields_read, hid] at hy
  simp only [Site.shape, ↓yields_read, yields_bind, yields_pure, Prod.mk.injEq] at hy
  obtain ⟨⟨shift', done1⟩, p1, hjoin, done2, p2, hthen, done3, p3, helse, ⟨rfl, rfl⟩, rfl⟩ := hy
  obtain ⟨s1, hs1, hlength, htally1⟩ := lowerJoin_rewrites h hjoin
  obtain ⟨d1, t1, e1⟩ | _ := s1
  swap
  · exact hs1.alike.elim
  have hheight := hs1.height depth hdepth (forall_mem_cons.mpr ⟨ht, forall_mem_singleton.mpr he⟩)
  obtain ⟨t2, hk2, ht2, hother2, hkeeps2, htally2⟩ := lowerInner .thenEnd hlists hs1.rewrites.list rfl
    (hheight t1 mem_cons_self) hthen
  obtain ⟨e2, hk3, he3, hother3, hkeeps3, htally3⟩ := lowerInner .elseEnd hlists hk2.rewrites.list rfl
    (hheight e1 (mem_cons_of_mem _ mem_cons_self)) helse
  have hcopied1 : p1.copied defined = p.copied defined := hs1.keeps.copied
  have hcopied2 : p2.copied defined = p1.copied defined := hkeeps2.copied
  have hbefore : d1.code p' = d.code p :=
    (hother3 .entry (by decide)).trans ((hother2 .entry (by decide)).trans (hs1.others .entry (by simp [Site.edges])))
  have hthen1 : t1.code p1 = _ := hs1.codes .thenEnd mem_cons_self
  have helse2 : e1.code p2 = _ := (hother2 .elseEnd (by decide)).trans (hs1.codes .elseEnd (by simp [Site.edges]))
  have hthenCode : t2.code p' = ((t.code p).lower (p.copied defined)).append
      (Code.copies (p.copied defined) .thenEnd (phis.filterMap p.phi?)) := by
    refine (hother3 .thenEnd (by decide)).trans (ht2.trans ?_)
    rw [hthen1, hcopied1, Code.lower_append, Code.lower_copies]
    rfl
  have helseCode : e2.code p' = ((e.code p).lower (p.copied defined)).append
      (Code.copies (p.copied defined) .elseEnd (phis.filterMap p.phi?)) := by
    rw [he3, helse2, hcopied2, hcopied1, Code.lower_append, Code.lower_copies]
    rfl
  rw [hthen1, Code.phiCount_append, Code.phiCount_copies] at htally2
  rw [helse2, Code.phiCount_append, Code.phiCount_copies] at htally3
  have hcount : ((branch id t e join phis nil).code p).phiCount =
      (phis.filterMap p.phi?).length + (t.code p).phiCount + (e.code p).phiCount := by
    simp only [code, Code.phiCount, Code.insts, countP_append, Code.phiCount_insts, countP_nil]
    omega
  rw [NodeLowered, hcount]
  refine ⟨d1.append (branch id t2 e2 join [] nil), ?_, ?_, hs1.after.trans (hk2.after.trans hk3.after), ?_,
    hs1.keeps.trans (hkeeps2.trans hkeeps3), (htally1.trans htally2 hs1.keeps).trans htally3 (hs1.keeps.trans hkeeps2)⟩
  · rw [Tree.append_assoc]
    exact hs1.rewrites.trans (hk2.rewrites.trans hk3.rewrites)
  · rw [code_append, hbefore]
    simp only [code, Code.lower, hthenCode, helseCode, hk3.condition, hk2.condition, hs1.condition, filterMap_nil]
  · rw [roots_append, length_append, show d1.roots.length = _ from hlength]
    rfl

/-- The body of a loop is lowered after its join. -/
lemma lowerNode_loop {body : Tree} (hlists : LowersLists defined depth)
    (h : ListAt L (d.append ((loop id body join phis nil).append r)) p) (hdepth : 1 ≤ depth) (hb : body.height ≤ depth)
    (hy : Yields (lowerNode defined (depth + 1) L d.roots.length id done) p (shift, done') p') :
    NodeLowered defined L d (loop id body join phis nil) r shift done done' p p' := by
  have h : ListAt L ((Site.loop d body).tree id join phis r) p := h
  obtain ⟨c, hid⟩ := Site.exists_shape h
  rw [lowerNode, yields_read, hid] at hy
  simp only [Site.shape, ↓yields_read, yields_bind, yields_pure, Prod.mk.injEq] at hy
  obtain ⟨⟨shift', done1⟩, p1, hjoin, done2, p2, hbody, ⟨rfl, rfl⟩, rfl⟩ := hy
  obtain ⟨s1, hs1, hlength, htally1⟩ := lowerJoin_rewrites h hjoin
  obtain _ | ⟨d1, body1⟩ := s1
  · exact hs1.alike.elim
  obtain ⟨body2, hk2, hb2, hother2, hkeeps2, htally2⟩ := lowerInner .back hlists hs1.rewrites.list rfl
    (hs1.height depth hdepth (forall_mem_singleton.mpr hb) body1 mem_cons_self) hbody
  have hbefore : d1.code p' = (d.code p).append (Code.copies (p.copied defined) .entry (phis.filterMap p.phi?)) :=
    (hother2 .entry (by decide)).trans (hs1.codes .entry mem_cons_self)
  have hback1 : body1.code p1 = _ := hs1.codes .back (by simp [Site.edges])
  have hbodyCode : body2.code p' = ((body.code p).lower (p.copied defined)).append
      (Code.copies (p.copied defined) .back (phis.filterMap p.phi?)) := by
    rw [hb2, hback1, hs1.keeps.copied, Code.lower_append, Code.lower_copies]
    rfl
  rw [hback1, Code.phiCount_append, Code.phiCount_copies] at htally2
  have hcount : ((loop id body join phis nil).code p).phiCount =
    (phis.filterMap p.phi?).length + (body.code p).phiCount := by
    simp only [code, Code.phiCount, Code.insts, countP_append, Code.phiCount_insts, countP_nil, Nat.add_zero]
  rw [NodeLowered, hcount]
  refine ⟨d1.append (loop id body2 join [] nil), ?_, ?_, hs1.after.trans hk2.after, ?_,
    hs1.keeps.trans hkeeps2, htally1.trans htally2 hs1.keeps⟩
  · rw [Tree.append_assoc]
    exact hs1.rewrites.trans hk2.rewrites
  · rw [code_append, hbefore, Code.append_assoc]
    simp only [code, Code.lower, hbodyCode, hk2.condition, hs1.condition, filterMap_nil]
  · rw [roots_append, length_append, show d1.roots.length = _ from hlength]
    rfl

lemma visitEach_cons {α : Type} {visit : Nat → NodeId → α → Transform (Nat × α)} {n : NodeId} {rest : List NodeId}
    {done done' : α} (h : Yields (visitEach visit pos (n :: rest) done) p done' p') :
    ∃ shift done1 p1, Yields (visit pos n done) p (shift, done1) p1 ∧
      Yields (visitEach visit (pos + shift + 1) rest done1) p1 done' p' := by
  rw [visitEach] at h
  simp only [yields_bind] at h
  obtain ⟨⟨shift, done1⟩, p1, hnode, hrest⟩ := h
  exact ⟨shift, done1, p1, hnode, hrest⟩

/-- Lowering a node and then the rest of the list. -/
lemma ListLowered.cons {x : Tree} (hnode : NodeLowered defined L d x r shift done done1 p p1)
    (hrest : ∀ d' : Tree, ListAt L (d'.append r) p1 → d'.roots.length = d.roots.length + shift + 1 →
      ListLowered defined L d' r done1 done' p1 p') : ListLowered defined L d (x.append r) done done' p p' := by
  obtain ⟨d', hrw, hcode, hr, hlength, hkeeps, htally⟩ := hnode
  obtain ⟨t', hrw', hcode', hkeeps', htally'⟩ := hrest d' hrw.list hlength
  refine ⟨t', hrw.trans hrw', ?_, hkeeps.trans hkeeps', ?_⟩
  · rw [hcode', hcode, hr.code, hkeeps.copied, code_append, Code.lower_append, Code.append_assoc]
  · rw [code_append, Code.phiCount_append, ← hr.code]
    exact htally.trans htally' hkeeps

lemma ListLowered.nil (h : ListAt L (d.append nil) p)
    (hy : Yields (visitEach (lowerNode defined depth L) d.roots.length Tree.nil.roots done) p done' p') :
    ListLowered defined L d nil done done' p p' := by
  rw [Tree.roots, visitEach, yields_pure] at hy
  obtain ⟨rfl, rfl⟩ := hy
  refine ⟨d.append Tree.nil, Rewrites.refl h, ?_, .refl _, .refl _ _⟩
  rw [code_append]
  rfl

/-- Lowering walks through a list, and the code of the list becomes lowered code. The induction is
on the depth, and inside of it on what is left of the list. -/
theorem lowersLists (defined : List LocalId) (depth : Nat) : LowersLists defined depth := by
  induction depth with
  | zero =>
    intro L d t p p' done done' h hheight hy
    cases t with
    | nil => exact .nil h hy
    | block | branch | loop =>
      simp only [height] at hheight
      omega
  | succ depth ihdepth =>
    intro L d t p p' done done' h hheight hy
    induction t generalizing d p done with
    | nil => exact .nil h hy
    | block id is rest ih =>
      simp only [height] at hheight
      obtain ⟨shift, done1, p1, hnode, hrest⟩ := visitEach_cons hy
      refine ListLowered.cons (x := block id is nil) (lowerNode_block h hnode) fun d' h' hlength => ?_
      exact ih d' p1 done1 h' (by omega) (hlength ▸ hrest)
    | branch id t e join phis rest _ _ ih =>
      simp only [height] at hheight
      obtain ⟨shift, done1, p1, hnode, hrest⟩ := visitEach_cons hy
      refine ListLowered.cons (x := branch id t e join phis nil)
        (lowerNode_branch ihdepth h (by omega) (by omega) (by omega) hnode) fun d' h' hlength => ?_
      exact ih d' p1 done1 h' (by omega) (hlength ▸ hrest)
    | loop id body join phis rest _ ih =>
      simp only [height] at hheight
      obtain ⟨shift, done1, p1, hnode, hrest⟩ := visitEach_cons hy
      refine ListLowered.cons (x := loop id body join phis nil)
        (lowerNode_loop ihdepth h (by omega) (by omega) hnode) fun d' h' hlength => ?_
      exact ih d' p1 done1 h' (by omega) (hlength ▸ hrest)

end ActorNet
