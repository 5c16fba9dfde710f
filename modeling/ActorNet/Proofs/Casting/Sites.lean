import ActorNet.Proofs.Casting.Lines
import ActorNet.Proofs.PhiLowering.Walk

/-!
# Casts around a construct

Casting changes a conditional or a loop in a list at the ends of the edges into its join
(`castArms_rewrites`), at the phis of the join (`castPhis_rewrites`), and at its condition, whose
instructions are placed in front of the construct.
-/

namespace ActorNet

open Advances List Procedure Tree

variable {edge : Edge} {done done' : JoinCasts} {ids phis is : List InstId} {arms arms' : List PhiArm} {Δ : Scope}
  {required : Ty} {L : NodeList} {id join scratch b : NodeId} {t t0 d r body : Tree} {s : Site} {o : Outside}
  {p0 p p' q q1 q' : Procedure} {T : LocalId → Prop} {K : List Inst} {shift : Nat} {u : Unit} {W : Prop}

/-! ## Phis of the join -/

/-- A phi of the join is replaced by one with other operands. -/
lemma SiteRewrites.replacePhi {i : InstId} {target : LocalId} {old : Inst} (h : ListAt L (s.tree id join phis r) q)
    (hi : i ∈ phis) (hy : Yields (replaceInst i (.phi target arms)) q old q') :
    SiteRewrites L id join phis r s s [] q q' ∧ q'.locals = q.locals ∧ q'.insts.size = q.insts.size ∧
      q'.returnTy = q.returnTy ∧ q'.phi? i = some ⟨target, arms⟩ ∧ ∀ j, j ≠ i → q'.inst? j = q.inst? j := by
  obtain ⟨_, _, _, hq'⟩ := yields_replaceInst.mp hy
  have hinst : ∀ j, q'.inst? j = if j = i then (q.inst? j).map fun d => { d with inst := .phi target arms }
      else q.inst? j := by
    intro j
    rw [hq', inst?_modify]
  have hother : ∀ j, j ≠ i → q'.inst? j = q.inst? j := fun j hj => (hinst j).trans (if_neg hj)
  have hsize : q'.insts.size = q.insts.size := by
    rw [hq']
    exact Arena.size_modify _ _ _
  obtain ⟨hlisted, ⟨node, hnode⟩, hrecorded, hphis⟩ := Site.joinAt h
  have hself : q'.phi? i = some ⟨target, arms⟩ := by
    obtain ⟨data, hdata, _⟩ := hrecorded i hi
    rw [phi?, hinst, if_pos rfl, hdata]
    rfl
  have hjoin : JoinAt q' join phis := by
    refine ⟨?_, ⟨node, ?_⟩, fun j hj => ?_, fun j hj => ?_⟩
    · rw [← hlisted, hq']
      rfl
    · rw [← hnode, hq']
      rfl
    · obtain ⟨data, hdata, hblock⟩ := hrecorded j hj
      rw [hinst, hdata]
      split
      · exact ⟨_, rfl, hblock⟩
      · exact ⟨_, rfl, hblock⟩
    · by_cases hji : j = i
      · exact ⟨_, hji ▸ hself⟩
      · rw [phi?_congr (hother j hji)]
        exact hphis j hj
  have hedits : Edits [] phis q q' := by
    rw [hq']
    exact (Edits.modifyInst q i _).mono (nil_subset _) (by simpa using hi)
  obtain ⟨c, hc⟩ := Site.exists_shape h
  have hid : q'.node? id = q.node? id := by
    rw [hq']
    rfl
  obtain ⟨hrw, hr, hcodes⟩ := Site.rewrites_of_edits h (hedits.mono (nil_subset _) (List.Subset.refl _)) (by rw [hq'])
    ⟨c, hid.trans hc⟩ hjoin (List.Sublist.refl _) (.inr (by rw [hq']; rfl))
  refine ⟨⟨hrw, Site.Alike.refl s, ?_, hr, fun edge => (hcodes edge).trans (Code.append_done _).symm,
    forall_mem_nil _, le_rfl⟩, by rw [hq'], hsize, by rw [hq'], hself, hother⟩
  rw [Procedure.condition, Procedure.condition, hid]

lemma Procedure.Extends.ty? (h : q.Extends q') {globals : List Variable} {v : VarRef} {ty : Ty}
    (hv : (q.scope globals).ty? v = some ty) : (q'.scope globals).ty? v = some ty := by
  have hty := Scope.maps_of_locals h.locals globals v ty hv
  rwa [Subst.apply_id] at hty

lemma ArmsCast.imp {W W' : Prop} {Δ' : Scope} {n m : Nat} {new : List (Edge × Inst)}
    (h : ArmsCast Δ W required n arms new arms' m) (hΔ : ∀ v ty, Δ.ty? v = some ty →
    Δ'.ty? v = some ty) (hW : W' → W) : ArmsCast Δ' W' required n arms new arms' m := by
  induction h with
  | nil n => exact .nil n
  | keep hty hcast _ ih => exact .keep (hΔ _ _ hty) hcast ih
  | cast hty hcast hwiden htemp _ ih => exact .cast (hΔ _ _ hty) hcast (fun h => hwiden (hW h)) (hΔ _ _ htemp) ih

/-- The operands of a phi are cast to the type of its target at the ends of their edges. The
induction is on the operands that are left. -/
theorem castArms_rewrites {n0 : Nat} (h : ListAt L (s.tree id join phis r) q)
    (hn : n0 ≤ q.insts.size) (hpos : done.pos = s.before.roots.length)
    (hy : Yields (castArms o L required done arms) q (arms', done') q') :
    ∃ s' new, SiteRewrites L id join phis r s s' new q q' ∧ q.Extends q' ∧ done'.pos =
      s'.before.roots.length ∧ done'.casts = done.casts + new.length ∧ ArmsCast (q'.scope o.globals)
      (q'.WidensFrom o.globals n0) required q.locals.size arms new arms' q'.locals.size := by
  induction arms generalizing q s done arms' with
  | nil =>
    simp only [castArms, yields_pure, Prod.mk.injEq] at hy
    obtain ⟨⟨rfl, rfl⟩, rfl⟩ := hy
    exact ⟨s, [], SiteRewrites.refl h, Procedure.Extends.refl _, hpos, rfl, .nil _⟩
  | cons arm rest ih =>
    simp only [castArms, yields_bind] at hy
    obtain ⟨ty, q0, hty, hy⟩ := hy
    obtain ⟨hty, rfl⟩ := yields_requireTy.mp hty
    split at hy
    · rename_i hcast
      simp only [yields_bind, yields_liftM, yields_pure, Prod.mk.injEq] at hy
      obtain ⟨⟨b, inserted⟩, q1, hedge, casted, q2, htemp, i, q3, happend, ⟨rest', done1⟩, q4, hy, ⟨rfl, rfl⟩, rfl⟩ := hy
      have hq1 := (sameListings_edgeBlock hedge).rest
      have hext1 := Extends.of_nodes hq1
      obtain ⟨hext2, rfl, hsize2, v, hv, hvty⟩ := Extends.of_newTemp htemp
      obtain ⟨hext3, rfl, hi, hlocals3⟩ := Extends.of_appendInst happend
      have hext := (hext1.trans hext2).trans hext3
      have hlocals1 : q1.locals = q0.locals := by rw [hq1]
      have hq2 : q2 = { q1 with locals := q2.locals, nextTemp := q2.nextTemp } := by rw [(yields_newTemp.mp htemp).2]
      obtain ⟨s1, hrw1, hlength, _⟩ := SiteRewrites.append h (hpos ▸ hedge) hq2 hext2 happend
      obtain ⟨s', new, hrw, hext', hpos', hcount, hcasts⟩ := ih hrw1.rewrites.list (hn.trans hext.insts_size) (by
          rw [hlength, ← hpos]
          cases inserted <;> rfl) hy
      have hty' := (hext.trans hext').ty? hty
      have hwiden : q'.WidensFrom o.globals n0 → ty.Widens required := fun hwide =>
        hwide.cast (i := ⟨q2.insts.size⟩) (Nat.le_trans hn (hext1.trans hext2).insts_size)
          ((hext'.insts _ (index_lt_of_inst? hi)).trans hi) rfl hty'
      have hsize3 : q3.locals.size = q0.locals.size + 1 := by rw [hlocals3, hsize2, hlocals1]
      rw [hsize3] at hcasts
      refine ⟨s', _, hrw1.trans hrw, hext.trans hext', hpos', ?_, ?_⟩
      · rw [hcount, singleton_append, length_cons]
        exact Nat.succ_add_eq_add_succ _ _
      · rw [hlocals1]
        refine .cast hty' hcast hwiden ?_ hcasts
        rw [← hlocals1]
        exact (hext3.trans hext').ty? (map_eq_some_iff.mpr ⟨v, hv, hvty⟩)
    · rename_i hcast
      simp only [yields_bind, yields_pure, Prod.mk.injEq] at hy
      obtain ⟨⟨rest', done1⟩, q1, hy, ⟨rfl, rfl⟩, rfl⟩ := hy
      obtain ⟨s', new, hrw, hext, hpos', hcount, hcasts⟩ := ih h hn hpos hy
      exact ⟨s', new, hrw, hext, hpos', hcount, .keep (hext.ty? hty) (Bool.eq_false_iff.mpr hcast) hcasts⟩

/-- The phis of the join are cast one after the other. The induction is on the phis that are
left. -/
theorem castPhis_rewrites (h : ListAt L (s.tree id join phis r) q) (hids : ids ⊆ phis) (hnodup : ids.Nodup)
    (hold : ∀ i ∈ ids, i.index < p0.insts.size) (hn : p0.insts.size ≤ q.insts.size)
    (hpos : done.pos = s.before.roots.length) (hy : Yields (castPhis o L done ids) q done' q') :
    ∃ s' new, SiteRewrites L id join phis r s s' new q q' ∧ Advances o p0 W T .id q q' ∧
      done'.pos = s'.before.roots.length ∧ done'.casts = done.casts + new.length ∧
      PhisCast (q'.scope o.globals) (q'.WidensFrom o.globals p0.insts.size) q.locals.size (ids.filterMap q.phi?) new
        (ids.filterMap q'.phi?) q'.locals.size ∧ ∀ j, j.index < q.insts.size → j ∉ ids → q'.inst? j = q.inst? j := by
  induction ids generalizing q s done with
  | nil =>
    simp only [castPhis, yields_pure] at hy
    obtain ⟨rfl, rfl⟩ := hy
    exact ⟨s, [], SiteRewrites.refl h, Advances.refl _, hpos, rfl, .nil _, fun _ _ _ => rfl⟩
  | cons i rest ih =>
    obtain ⟨hi, hrest⟩ := cons_subset.mp hids
    obtain ⟨hirest, hnodup'⟩ := nodup_cons.mp hnodup
    obtain ⟨hiold, hold'⟩ := forall_mem_cons.mp hold
    obtain ⟨φ, hφ⟩ := (Site.joinAt h).phis i hi
    obtain ⟨b, predicate, hdata⟩ := phi?_eq_some.mp hφ
    rw [castPhis, yields_read, hdata] at hy
    simp only [yields_bind, yields_liftM] at hy
    obtain ⟨required, q0, hrequest, ⟨arms', done1⟩, q1, hcasts, old, q2, hreplace, hy⟩ := hy
    obtain ⟨hrequired, hq0⟩ := yields_requireTy.mp hrequest
    subst q0
    obtain ⟨s1, new1, hrw1, hext1, hpos1, hcount1, hcasts1⟩ := castArms_rewrites h hn hpos hcasts
    obtain ⟨hrw2, hlocals2, hsize2, hreturn2, hself2, hother2⟩ := SiteRewrites.replacePhi hrw1.rewrites.list hi hreplace
    have hadvance2 : Advances o p0 W T .id q1 q2 := by
      refine of_locals hlocals2 (fun j data hj hdata => ⟨data, ?_, rfl⟩) hsize2.ge hreturn2
      rw [hother2 j, hdata]
      rintro rfl
      exact Nat.not_lt.mpr hj hiold
    have hlt := index_lt_of_inst? hdata
    have hframe : ∀ j, j.index < q.insts.size → j ≠ i → q2.inst? j = q.inst? j := fun j hj hji =>
      (hother2 j hji).trans (hext1.insts j hj)
    have hphis2 : rest.filterMap q2.phi? = rest.filterMap q.phi? := by
      refine filterMap_congr fun j hj => phi?_congr (hframe j ?_ fun hji => hirest (hji ▸ hj))
      obtain ⟨data, hdata, _⟩ := (Site.joinAt h).recorded j (hrest hj)
      exact index_lt_of_inst? hdata
    obtain ⟨s', new', hrw, hadvance, hpos', hcount, hphis, hframe'⟩ := ih hrw2.rewrites.list hrest hnodup' hold'
      (by rw [hsize2]; exact hn.trans hext1.insts_size) hpos1 hy
    have hself : q'.phi? i = some ⟨φ.target, arms'⟩ := by
      rw [← hself2]
      refine phi?_congr (hframe' i ?_ hirest)
      rw [hsize2]
      exact hlt.trans_le hext1.insts_size
    have hadvance1 : Advances o p0 W T .id q1 q' := hadvance2.trans_id hadvance
    have hscope : ∀ v ty, (q1.scope o.globals).ty? v = some ty → (q'.scope o.globals).ty? v = some ty := by
      intro v ty hv
      have hmap := hadvance1.maps v ty hv
      rw [Subst.apply_id] at hmap
      exact hmap
    rw [hphis2, hlocals2] at hphis
    refine ⟨s', new1 ++ new', hrw1.trans (hrw2.trans hrw), (of_extends hext1).trans_id hadvance1,
      hpos', ?_, ?_, fun j hj hmem => ?_⟩
    · rw [hcount, hcount1, length_append]
      omega
    · rw [filterMap_cons, filterMap_cons, hφ, hself]
      exact .cons (hscope _ _ (hext1.ty? hrequired)) (hcasts1.imp hscope hadvance1.widens) hphis
    · obtain ⟨hji, hjrest⟩ := not_or.mp (fun hor => hmem (mem_cons.mpr hor))
      rw [hframe' j _ hjrest, hframe j hj hji]
      rw [hsize2]
      exact hj.trans_le hext1.insts_size

/-! ## The condition -/

section Condition

variable {S : Prop} {ρ τ : Subst} {e e' : Expr} {k lo hi : Nat}

/-- The condition `e` of `p0` has become `e'` in `q`, after instructions that define temporaries in
a range. If it can be cast and all casts widen, the instructions give its truth value to the new
condition. -/
structure ConditionCast (o : Outside) (p0 : Procedure) (W S : Prop) (q : Procedure) (ρ : Subst)
    (lo hi k : Nat) (e : Expr) (K : List Inst) (e' : Expr) : Prop where
  tests : W → ∀ calls, e.Castable (p0.scope o.globals) → q.WidensFrom o.globals p0.insts.size →
    Tests (p0.scope o.globals) calls ρ e K e'
  live : ∀ spared, p0.LiveIn spared e.uses → (∀ i ∈ K, q.LiveIn spared i.named) ∧ q.LiveIn spared e'.uses
  defines : ∀ i ∈ K, i.Defines lo hi
  settled : W → ∀ i ∈ K, i.Settled o S q
  suits : e'.Suits (q.scope o.globals) S (some .bool)
  casts : K.countP Inst.isCast = k
  exact : e.Plain (p0.scope o.globals) → e.Exact (p0.scope o.globals) .bool → K = []

/-- A further step. -/
lemma ConditionCast.advance (h : ConditionCast o p0 W S q ρ lo hi k e K e')
    (hadvance : Advances o p0 W T τ q q') (hlo : p0.locals.size ≤ lo) (hhi : hi ≤ q.locals.size) :
    ConditionCast o p0 W S q' (ρ.andThen τ) lo hi k e (K.map (Inst.subst τ)) (e'.subst τ) where
  tests := by
    intro hW calls hcast hwide
    refine (h.tests hW calls hcast (hadvance.widens hwide)).rename h.defines fun i hi v hv => ?_
    exact (h.defines i hi).spares hadvance.moves (fun x hx => Nat.lt_of_lt_of_le (hx.2 hW) hlo) hhi hv
  live := by
    intro spared he
    obtain ⟨hK, he'⟩ := h.live spared he
    rw [Expr.uses_subst]
    exact ⟨forall_mem_map.mpr fun i hi => hadvance.liveIn_inst (hK i hi), hadvance.liveIn he'⟩
  defines := forall_mem_map.mpr fun i hi => (h.defines i hi).subst τ
  settled := fun hW => hadvance.settled hW h.defines hlo hhi (h.settled hW)
  suits := h.suits.subst hadvance.maps.agrees
  casts := by
    rw [countP_map, ← h.casts]
    exact countP_congr fun i _ => by rw [Function.comp, Inst.isCast_subst]
  exact := fun hplain hexact => by rw [h.exact hplain hexact, map_nil]

/-- A further step without a substitution. -/
lemma ConditionCast.advance_id (h : ConditionCast o p0 W S q ρ lo hi k e K e') (hadvance : Advances o p0 W T .id q q')
    (hlo : p0.locals.size ≤ lo) (hhi : hi ≤ q.locals.size) : ConditionCast o p0 W S q' ρ lo hi k e K e' := by
  have hcast := h.advance hadvance hlo hhi
  rw [Subst.andThen_id, map_congr_left fun i _ => Inst.subst_id i, map_id', Expr.subst_id] at hcast
  exact hcast

/-- The condition of a construct has been cast, with the instructions that it needs in a block of
their own. -/
structure SiteCondition (o : Outside) (p0 : Procedure) (W S : Prop) (L : NodeList)
    (id join : NodeId) (phis : List InstId) (r : Tree) (s : Site) (ρ : Subst) (k : Nat) (e : Expr)
    (scratch : NodeId) (ids : List InstId) (K : List Inst) (q q' : Procedure) : Prop where
  rewrites : Rewrites L (s.tree id join phis r) (s.tree id join phis r) q q'
  after : r.Stays q q'
  codes : ∀ edge, s.codeAt q' edge = s.codeAt q edge
  loose : Loose q (s.tree id join phis r) scratch ids K q'
  grows : q.Extends q'
  casted : ConditionCast o p0 W S q' ρ q.locals.size q'.locals.size k e K (q'.condition id)

lemma castCondition_rewrites (h : ListAt L (s.tree id join phis r) q) (hq : Advances o p0 W T ρ p0 q)
    (hS : S → e.ComparesScalars (p0.scope o.globals)) (hy : Yields (castCondition o id (e.subst ρ)) q (scratch, k) q') :
    ∃ ids K, SiteCondition o p0 W S L id join phis r s ρ k e scratch ids K q q' := by
  simp only [castCondition, yields_bind, yields_liftM, yields_pure, Prod.mk.injEq] at hy
  obtain ⟨block, q1, hnew, ⟨e', m⟩, q2, hcast, _, q3, hset, ⟨rfl, rfl⟩, rfl⟩ := hy
  obtain ⟨rfl, hq1⟩ := yields_newBlock.mp hnew
  have hnode1 : ∀ n, q1.node? n = if n = ⟨q.nodes.size⟩ then some (.block []) else q.node? n := by
    intro n
    rw [hq1, node?_push]
  have hext1 : q.Extends q1 := Extends.of_nodes (by rw [hq1])
  have hat : (Spot.atEnd ⟨q.nodes.size⟩).At ⟨q.nodes.size⟩ [] [] q1 := ⟨rfl, rfl, by rw [hnode1, if_pos rfl]⟩
  have hadvance1 : Advances o p0 W T ρ p0 q1 := hq.trans_id (of_extends hext1 : Advances o p0 W T .id q q1)
  obtain ⟨new, insts, hcasted⟩ := castExpr_runs _ (fun hs => (hS hs).subst hadvance1.maps) hat hadvance1.insts_size hcast
  have hq' := yields_modify.mp hset
  have hext2 := hcasted.emitted.toExtends
  have hext3 : q2.Extends q' := Extends.of_nodes (by rw [hq'])
  have hlt : ∀ n ∈ (s.tree id join phis r).nodes, n.index < q.nodes.size := fun n hn => h.sound.node_lt hn
  obtain ⟨c, hc⟩ := Site.exists_shape h
  have hidlt := index_lt_of_node? hc
  have hne : id ≠ ⟨q.nodes.size⟩ := by
    rintro rfl
    exact Nat.lt_irrefl _ hidlt
  have hnode : ∀ n, n ≠ id → n.index < q.nodes.size → q'.node? n = q.node? n := by
    intro n hn hnlt
    have hns : n ≠ ⟨q.nodes.size⟩ := by
      rintro rfl
      exact Nat.lt_irrefl _ hnlt
    rw [hq', node?_modify, if_neg hn, hcasted.emitted.nodes n hns, hnode1, if_neg hns]
  have hid : q'.node? id = some (s.shape join e') := by
    rw [hq', node?_modify, if_pos rfl, hcasted.emitted.nodes id hne, hnode1, if_neg hne, hc]
    cases s <;> rfl
  have hext := (hext1.trans hext2).trans hext3
  have hnodes_size : q'.nodes.size = q.nodes.size + 1 := by
    rw [hq']
    show (q2.nodes.modify _ _).size = _
    rw [Arena.size_modify, hcasted.emitted.nodes_size, hq1]
    exact Arena.size_push _ _
  have hrest : q'.body = q.body ∧ q'.params = q.params ∧ q'.native = q.native := by
    rw [hq', hcasted.emitted.rest, hq1]
    exact ⟨rfl, rfl, rfl⟩
  have hedits : Edits [id] [] q q' := by
    refine ⟨fun n hn hnlt => hnode n (mem_singleton.not.mp hn) hnlt, fun i _ hi => hext.insts i hi,
      ?_, hext.insts_size, hrest.2.1, hrest.2.2, hext.keepsLive, hext.temps⟩
    rw [hnodes_size]
    exact Nat.le_succ _
  have hout : join ∉ [id] := fun hmem =>
    (nodup_cons.mp (Site.sound_node.mp (Site.sound h)).2.2.2.1).1 (mem_singleton.mp hmem ▸ mem_cons_self)
  have hjoin : JoinAt q' join phis := ((Site.joinAt h).edits hedits hout fun _ _ => not_mem_nil).1
  have hsame : q'.node? join = q.node? join := by
    obtain ⟨node, hnode⟩ := (Site.joinAt h).live
    exact hedits.nodes join hout (index_lt_of_node? hnode)
  obtain ⟨hrw, hr, hcodes⟩ := Site.rewrites_of_edits h (hedits.mono (cons_subset_cons _
    (nil_subset _)) (nil_subset _)) hrest.1 ⟨e', hid⟩ hjoin (List.Sublist.refl _) (.inr hsame)
  have hadvance3 : Advances o p0 W T .id q2 q' := of_extends hext3
  refine ⟨new, insts, hrw, hr, hcodes, ?_, hext, ?_⟩
  · refine ⟨?_, le_rfl, fun hmem => Nat.lt_irrefl _ (hlt _ hmem), hcasted.emitted.nodup, ?_,
      fun i hi => ?_, fun i hi hmem => ?_⟩
    · rw [hq', node?_modify, if_neg hne.symm, hcasted.emitted.block, nil_append, List.append_nil]
    · rw [map_congr_left fun i _ => show q'.inst? i = q2.inst? i by rw [hq']; rfl, hcasted.emitted.data, map_map]
      rfl
    · exact hext1.insts_size.trans (hcasted.emitted.fresh i hi)
    · exact Nat.not_lt.mpr (hext1.insts_size.trans (hcasted.emitted.fresh i hi)) (h.sound.inst_lt hmem)
  · rw [Site.condition_of_shape hid]
    refine ⟨fun _ calls hcastable hwide s s' b hs hb => ?_, fun spared he => ?_, fun i hi => ?_,
      fun _ i hi => ?_, ?_, hcasted.casts, fun hplain hexact => ?_⟩
    · obtain ⟨u', hK, hu', hval, _⟩ := hcasted.evaluates hcastable.plain hcastable.orderly hadvance1.maps
        (hadvance3.widens hwide) calls hs (State.test_eq_some.mp hb)
      exact ⟨u', hK, hu', State.test_eq_some.mpr hval⟩
    · obtain ⟨hinsts, he'⟩ := hcasted.live spared (by rw [Expr.uses_subst]; exact hadvance1.liveIn he)
      exact ⟨fun i hi => (hinsts i hi).mono hadvance3.live, he'.mono hadvance3.live⟩
    · exact (hcasted.defines i hi).mono hext1.locals_size hext3.locals_size
    · exact hadvance3.keeps_settled (hcasted.settled i hi)
    · exact Expr.subst_id e' ▸ hcasted.suits.subst hadvance3.maps.agrees
    · obtain ⟨_, rfl⟩ := castExpr_exact _ (hadvance1.maps.exact hplain hexact) hcast
      exact hcasted.emitted.eq_nil hat.node

end Condition

/-! ## Parts that stay -/

section Stays

variable {e : Tree}

lemma Code.ofLines_append_inj {l : List (Inst × Option Expr)} {c c' : Code}
    (h : (ofLines l).append c = (ofLines l).append c') : c = c' := by
  induction l with
  | nil => exact h
  | cons line rest ih => exact ih (Code.inst.inj h).2.2

lemma Tree.Stays.block (h : ((Tree.block id is nil).append r).Stays p p') :
    (∀ i ∈ is, p'.inst? i = p.inst? i) ∧ r.Stays p p' := by
  obtain ⟨hcode, hinsts⟩ := h
  simp only [Tree.append, Tree.insts, mem_append] at hinsts
  have his : ∀ i ∈ is, p'.inst? i = p.inst? i := fun i hi => hinsts i (.inl hi)
  rw [code_append, code_append, Rewrites.code_block, Rewrites.code_block,
    filterMap_congr fun i hi => line?_congr (his i hi)] at hcode
  exact ⟨his, Code.ofLines_append_inj hcode, fun i hi => hinsts i (.inr hi)⟩

end Stays

/-! ## Placing the instructions of a condition -/

lemma Loose.blockInsts (h : Loose p t scratch ids K q) : q.blockInsts scratch = ids := by
  rw [Procedure.blockInsts, h.node]

lemma Loose.nil_of_isEmpty (h : Loose p t scratch ids K q) (hempty : ids.isEmpty = true) : ids = [] ∧ K = [] := by
  have hids := isEmpty_iff.mp hempty
  have hdata := h.data
  rw [hids] at hdata
  exact ⟨hids, map_eq_nil_iff.mp hdata.symm⟩

/-- The instructions of a condition are moved in front of a conditional, and their block is
freed. -/
lemma placeBefore_rewrites (o : Outside) (p0 : Procedure) (W : Prop) (T : LocalId → Prop)
    (h : Loose p (d.append r) scratch ids K q) (hrw : Rewrites L t0 (d.append r) p q)
    (hy : Yields (placeBefore L d.roots.length scratch) q shift q1) (hfree : Yields (freeNode scratch) q1 u q') :
    ∃ d' : Tree, Rewrites L t0 (d'.append r) p q' ∧ d'.code q' = (d.code q).append (.ofInsts K) ∧ r.Stays q q' ∧
      d'.roots.length = d.roots.length + shift ∧ Advances o p0 W T .id q q' ∧ q'.locals = q.locals := by
  rw [placeBefore, yields_get_bind, h.blockInsts] at hy
  split at hy
  · rename_i hempty
    obtain ⟨rfl, rfl⟩ := h.nil_of_isEmpty hempty
    obtain ⟨rfl, rfl⟩ := yields_pure.mp hy
    obtain ⟨hrw', hstays, hinsts, hsize, hlocals, hreturn⟩ := h.free hrw hfree
    obtain ⟨hd, hr, _⟩ := sound_append.mp hrw.list.sound
    obtain ⟨hdapart, hrapart⟩ := append_apart.mp h.outside
    refine ⟨d, hrw', (hstays d hd hdapart).code.trans (Code.append_done _).symm, hstays r hr hrapart, rfl, ?_, hlocals⟩
    · refine of_locals hlocals (fun i data _ hdata => ⟨data, ?_, rfl⟩) hsize.ge hreturn
      rw [hinsts i not_mem_nil, hdata]
  · simp only [yields_bind, yields_pure] at hy
    obtain ⟨⟨b, inserted⟩, q2, hbefore, _, q3, hmove, rfl, rfl⟩ := hy
    obtain ⟨d0, is, hrw2, hcode2, hr2, hlength, hlocals2⟩ := Rewrites.blockBefore hrw.list hbefore
    have hext2 := Extends.of_nodes (sameListings_blockBefore hbefore).rest
    have hloose := h.rewrites (fun _ ho => hrw.owner_lt ho) hrw2
    obtain ⟨hrw3, hd3, hr3, hblock3, hloose3, hinsts3, hsize3, hlocals3, hreturn3⟩ := hloose.moveTo (hrw.trans hrw2) hmove
    obtain ⟨hrw4, hstays4, hinsts4, hsize4, hlocals4, hreturn4⟩ := hloose3.free hrw3 hfree
    obtain ⟨hd, hxr, _⟩ := sound_append.mp hrw3.list.sound
    obtain ⟨hx, hr, _⟩ := sound_append.mp hxr
    obtain ⟨hdapart, hxrapart⟩ := append_apart.mp hloose3.outside
    obtain ⟨hxapart, hrapart⟩ := append_apart.mp hxrapart
    refine ⟨d0.append (block b (is ++ ids) nil), ?_, ?_, (hr2.trans hr3).trans (hstays4 r hr hrapart), ?_, ?_, ?_⟩
    · rw [Tree.append_assoc]
      exact hrw4
    · rw [code_append, (hstays4 d0 hd hdapart).code, hd3.code, (hstays4 _ hx hxapart).code, hblock3,
        ← Code.append_assoc, ← code_append, hcode2]
      rfl
    · rw [roots_append, length_append, ← hlength]
      rfl
    · have hadvance3 : Advances o p0 W T .id q2 q' := by
        refine of_locals (hlocals4.trans hlocals3) (fun i data _ hdata => ?_) (by rw [hsize4, hsize3])
          (hreturn4.trans hreturn3)
        obtain ⟨data', hdata', hinst⟩ := hinsts3 i data hdata
        exact ⟨data', (hinsts4 i not_mem_nil).trans hdata', hinst⟩
      exact (of_extends hext2).trans_id hadvance3
    · rw [hlocals4, hlocals3, hlocals2]

/-! ## Copies on an edge -/

/-- The operands of the phis of a join on an edge are read for their targets, one after the
other. -/
def Procedure.operandsOn (q : Procedure) (edge : Edge) (ids : List InstId) : Subst :=
  .ofPairs (Phi.pairs edge (ids.filterMap q.phi?))

lemma substitute_eq_subst (pairs : List (LocalId × VarRef)) (i : Inst) :
    substitute (pairs.map fun pair => (.loc pair.1, pair.2)) i = i.subst (.ofPairs pairs) := by
  unfold substitute
  induction pairs generalizing i with
  | nil => exact (Inst.subst_id i).symm
  | cons pair rest ih =>
    rw [map_cons, foldl_cons, ih, Inst.replaceUse_fst, Inst.subst_subst]
    rfl

lemma phiSources_eq_pairs (q : Procedure) (edge : Edge) (ids : List InstId) :
    q.phiSources edge ids = (Phi.pairs edge (ids.filterMap q.phi?)).map fun pair => (.loc pair.1, pair.2) := by
  unfold phiSources Phi.pairs
  induction ids with
  | nil => rfl
  | cons i rest ih =>
    rw [flatMap_cons, ih]
    cases hi : q.inst? i with
    | none =>
      have hphi : q.phi? i = none := by rw [phi?, hi]
      rw [filterMap_cons, hphi]
      rfl
    | some data =>
      obtain ⟨inst, block, predicate⟩ := data
      cases inst with
      | phi target arms =>
        have hphi : q.phi? i = some ⟨target, arms⟩ := by rw [phi?, hi]
        rw [filterMap_cons, hphi, flatMap_cons, map_append, List.map_map]
        rfl
      | assign | load | store | call | ret | cast =>
        have hphi : q.phi? i = none := by rw [phi?, hi]
        rw [filterMap_cons, hphi]
        rfl

lemma copyOnEdge_rewrites (h : ListAt L (d.thenBlock b is r) q) (hnodup : ids.Nodup)
    (hdata : ids.map q.inst? = K.map fun inst => some { inst := inst, block := scratch })
    (hy : Yields (copyOnEdge join edge ids b) q u q') :
    ∃ new, Rewrites L (d.thenBlock b is r) (d.thenBlock b (is ++ new) r) q q' ∧
      d.Stays q q' ∧ r.Stays q q' ∧ q.Extends q' ∧ q'.locals = q.locals ∧ (block b (is ++ new) nil).code q' =
        ((block b is nil).code q).append (.ofInsts (K.map (Inst.subst (q.operandsOn edge (q.blockInsts join))))) ∧
      (∀ i ∈ new, q.insts.size ≤ i.index) ∧
      ∀ inst ∈ K, ∃ i ∈ new, q'.inst? i =
        some { inst := inst.subst (q.operandsOn edge (q.blockInsts join)), block := b } := by
  rw [copyOnEdge, yields_get_bind] at hy
  simp only [yields_bind, yields_modify] at hy
  obtain ⟨copies, q1, hcopies, hq'⟩ := hy
  rw [phiSources_eq_pairs] at hq'
  have hlines : ids.filterMap q.line? = K.map (·, none) := filterMap_line? (by rw [hdata, List.map_map]; rfl)
  obtain ⟨new, _, hcopies', hnew, _, hemit, hrest⟩ := Emitted.copyInsts [] h.blockAt.1 hnodup
    (fun _ _ => not_mem_nil) fun i hi => by
      have hmem : q.inst? i ∈ K.map fun inst => some { inst := inst, block := scratch } := hdata ▸ mem_map_of_mem hi
      obtain ⟨inst, _, hinst⟩ := mem_map.mp hmem
      exact ⟨_, hinst.symm⟩
  obtain ⟨hzip, rfl⟩ := hcopies.unique hcopies'
  have hsnd : copies.map Prod.snd = new := by rw [hzip, nil_append, map_snd_zip (by simp [hnew])]
  rw [hlines] at hemit
  -- the copies read operands for targets
  generalize hσ : q.operandsOn edge (q.blockInsts join) = σ
  have hq'1 : q' = { q1 with insts := new.foldl (fun insts id => insts.modify id.index fun data =>
      { data with inst := data.inst.subst σ }) q1.insts } := by
    rw [hq', ← hsnd, foldl_map, ← hσ]
    simp only [substitute_eq_subst]
    rfl
  have hemit' := hemit.modifyEach hq'1
  have hcopied : (K.map (·, none)).map (fun line : Inst × Option Expr => (line.1.subst σ, line.2)) =
      (K.map (Inst.subst σ)).map (·, none) := by
    rw [List.map_map, List.map_map]
    rfl
  rw [hcopied] at hemit'
  obtain ⟨hrw, hd, hr, hcode⟩ := Rewrites.appended hemit' h
  refine ⟨new, hrw, hd, hr, hemit'.toExtends, ?_, hcode, hemit'.fresh, fun inst hmem => ?_⟩
  · rw [hq'1, hrest]
  · have hcopy : some { inst := inst.subst σ, block := b } ∈ new.map q'.inst? := by
      rw [hemit'.data]
      exact mem_map_of_mem (mem_map_of_mem (mem_map_of_mem hmem))
    obtain ⟨i, hi, heq⟩ := mem_map.mp hcopy
    exact ⟨i, hi, heq⟩

lemma Procedure.ty?_congr (hlocals : q'.locals = q.locals) (globals : List Variable) (v : VarRef) :
    (q'.scope globals).ty? v = (q.scope globals).ty? v := by
  cases v with
  | glob g => rfl
  | loc x =>
    show (q'.locals.get? x.index).map (·.ty) = (q.locals.get? x.index).map (·.ty)
    rw [hlocals]

/-- Instructions have been freed that have copies, under a substitution that keeps types up to
lists. -/
lemma Advances.of_freed {σ : Subst} (hlocals : q'.locals = q.locals)
    (hagrees : (q.scope o.globals).Agrees (q.scope o.globals) σ) (hold : ∀ i data, i ∉ ids →
    q.inst? i = some data → q'.inst? i = some data) (hcopies : ∀ i data, i ∈ ids →
    q.inst? i = some data → ∃ j data', i.index ≤ j.index ∧ q'.inst? j = some data' ∧
      data'.inst = data.inst.subst σ) (hsize : q.insts.size ≤ q'.insts.size)
    (hreturn : q'.returnTy = q.returnTy) : Advances o p0 W T .id q q' := by
  have hkept : (q.scope o.globals).Maps (q'.scope o.globals) .id := by
    intro v ty hty
    rw [Subst.apply_id, ty?_congr hlocals]
    exact hty
  refine ⟨Subst.moves_id _ _ _, .of_eq hlocals, fun x k hk => .inl (VarRef.loc.inj hk).symm, hkept,
    fun hwide => hwide.of_images fun i data hi hdata => ?_, by rw [hlocals], hsize, hreturn⟩
  by_cases hmem : i ∈ ids
  · obtain ⟨j, data', hij, hj, hinst⟩ := hcopies i data hmem hdata
    refine ⟨σ, j, data', fun v ty hty => ?_, hi.trans hij, hj, hinst⟩
    rw [ty?_congr hlocals]
    exact hagrees v ty hty
  · exact ⟨.id, i, data, hkept.agrees, hi, hold i data hmem hdata, (Inst.subst_id _).symm⟩

/-- Reading operands for targets, one after the other, keeps types up to lists if they agree. -/
lemma Scope.Agrees.ofPairs {pairs : List (LocalId × VarRef)}
    (h : ∀ pair ∈ pairs, ∃ ty, Δ.ty? (.loc pair.1) = some ty ∧ (Expr.var pair.2).Fits Δ ty) :
    Δ.Agrees Δ (.ofPairs pairs) := by
  induction pairs with
  | nil =>
    intro v ty hty
    rw [Subst.ofPairs, Subst.apply_id]
    exact ⟨ty, hty, .refl ty⟩
  | cons pair rest ih =>
    obtain ⟨⟨ty, htarget, ty', hoperand, hfits⟩, hrest⟩ := forall_mem_cons.mp h
    intro v a ha
    rw [Subst.ofPairs, Subst.apply_andThen]
    have hfirst : ∃ b, Δ.ty? ((Subst.single pair.1 pair.2).apply v) = some b ∧ b.Agrees a := by
      cases v with
      | glob g => exact ⟨a, ha, .refl a⟩
      | loc x =>
        rw [Subst.apply, Subst.single]
        split
        · rename_i hx
          rw [hx] at ha
          cases htarget.symm.trans ha
          exact ⟨ty', hoperand, hfits⟩
        · exact ⟨a, ha, .refl a⟩
    obtain ⟨b, hb, hab⟩ := hfirst
    obtain ⟨c, hc, hbc⟩ := ih hrest _ b hb
    exact ⟨c, hc, hbc.trans hab⟩

lemma operandsOn_congr (h : ∀ i ∈ phis, q'.inst? i = q.inst? i) : q'.operandsOn edge phis = q.operandsOn edge phis := by
  rw [operandsOn, operandsOn, filterMap_congr fun i hi => phi?_congr (h i hi)]

/-- The instructions of a condition are copied in front of a loop and to the end of its body, and
their block is freed. -/
lemma placeAround_rewrites (p0 : Procedure) (W : Prop) (T : LocalId → Prop)
    (h : Loose p (d.append ((loop id body join phis nil).append r)) scratch ids K q)
    (hrw : Rewrites L t0 (d.append ((loop id body join phis nil).append r)) p q)
    (hagrees : (q.scope o.globals).Agrees (q.scope o.globals) (q.operandsOn .entry phis))
    (hy : Yields (placeAround L d.roots.length id join scratch) q shift q1) (hfree : Yields (freeNode scratch) q1 u q') :
    ∃ d' body' : Tree, Rewrites L t0 (d'.append ((loop id body' join phis nil).append r)) p q' ∧
      d'.code q' = (d.code q).append (.ofInsts (K.map (Inst.subst (q.operandsOn .entry phis)))) ∧
      body'.code q' = (body.code q).append (.ofInsts (K.map (Inst.subst (q.operandsOn .back phis)))) ∧
      q'.condition id = q.condition id ∧ (∀ i ∈ phis, q'.inst? i = q.inst? i) ∧ r.Stays q q' ∧
      d'.roots.length = d.roots.length + shift ∧ q'.locals = q.locals ∧ Advances o p0 W T .id q q' := by
  simp only [placeAround, yields_get_bind, h.blockInsts] at hy
  obtain ⟨hd, hxr, _⟩ := sound_append.mp hrw.list.sound
  split at hy
  · rename_i hempty
    obtain ⟨rfl, rfl⟩ := h.nil_of_isEmpty hempty
    obtain ⟨rfl, rfl⟩ := yields_pure.mp hy
    obtain ⟨hrw', hstays, hinsts, hsize, hlocals, hreturn⟩ := h.free hrw hfree
    obtain ⟨hdapart, hxrapart⟩ := append_apart.mp h.outside
    obtain ⟨hcond, hbody, hphis, hr⟩ := Stays.node (s := .loop d body) (hstays _ hxr hxrapart)
    refine ⟨d, body, hrw', ?_, ?_, hcond, hphis, hr, rfl, hlocals, ?_⟩
    · exact (hstays d hd hdapart).code.trans (Code.append_done _).symm
    · exact (hbody body mem_cons_self).code.trans (Code.append_done _).symm
    · refine of_locals hlocals (fun i data _ hdata => ⟨data, ?_, rfl⟩) hsize.ge hreturn
      rw [hinsts i not_mem_nil, hdata]
  · simp only [yields_bind, yields_pure] at hy
    obtain ⟨⟨b, inserted⟩, q2, hbefore, _, q3, hentry, b', q4, hlast, _, q5, hback, rfl, rfl⟩ := hy
    have howner : ∀ o, L.owner? = some o → o.index < p.nodes.size := fun _ ho => hrw.owner_lt ho
    -- in front of the loop
    obtain ⟨d0, is, hrw2, hcode2, hx2, hlength, hlocals2⟩ := Rewrites.blockBefore hrw.list hbefore
    have hext2 := Extends.of_nodes (sameListings_blockBefore hbefore).rest
    have hloose2 := h.rewrites howner hrw2
    obtain ⟨new, hrw3, hd3, hx3, hext3, hlocals3, hblock3, hfresh3, hcopies3⟩ :=
      copyOnEdge_rewrites hrw2.list h.nodup hloose2.data hentry
    have hloose3 := hloose2.rewrites howner hrw3
    have hrw3' : Rewrites L (d.append ((loop id body join phis nil).append r))
        ((d0.append (block b (is ++ new) nil)).append ((loop id body join phis nil).append r)) q q3 := by
      rw [Tree.append_assoc]
      exact hrw2.trans hrw3
    have hloose3' : Loose p ((d0.append (block b (is ++ new) nil)).append ((loop id body join phis nil).append r))
        scratch ids K q3 := by
      rw [Tree.append_assoc]
      exact hloose3
    have hlist2 : ListAt L ((Site.loop (d0.append (block b is nil)) body).tree id join phis r) q2 := by
      rw [Site.tree, Site.before, Tree.append_assoc]
      exact hrw2.list
    rw [(Site.joinAt hlist2).listed, operandsOn_congr (Stays.node (s := .loop d body) hx2).2.2.1] at hblock3 hcopies3
    have hd3' : (d0.append (block b (is ++ new) nil)).code q3 =
        (d.code q).append (.ofInsts (K.map (Inst.subst (q.operandsOn .entry phis)))) := by
      rw [code_append, hd3.code, hblock3, ← Code.append_assoc, ← code_append, hcode2]
    generalize hd' : d0.append (block b (is ++ new) nil) = d' at hrw3' hloose3' hd3'
    obtain ⟨hl3, hother3⟩ : SiteKept L id join phis r (.loop d body) (.loop d' body) q q3 ∧ _ :=
      SiteKept.front hrw3' (hx2.trans hx3)
    -- at the end of the body
    obtain ⟨body0, is2, hrw4, hcode4, _, hlocals4, _⟩ :=
      Rewrites.ensureLastBlock (Site.listAt_inner .back (Site.sound hl3.rewrites.list) rfl) hlast
    have hext4 := Extends.of_nodes (sameListings_ensureLastBlock hlast).rest
    obtain ⟨hl4, hother4, _⟩ := SiteKept.inner .back hl3.rewrites.list rfl hrw4
    have hloose4 := hloose3'.rewrites howner hl4.rewrites
    have hlist4 : ListAt (.bodyOf id) (body0.thenBlock b' is2 nil) q4 := hrw4.list
    obtain ⟨new2, hrw5, hbody5, _, hext5, hlocals5, hblock5, _, _⟩ :=
      copyOnEdge_rewrites hlist4 h.nodup hloose4.data hback
    have hphis4 : ∀ i ∈ phis, q4.inst? i = q.inst? i := fun i hi => (hl4.phis i hi).trans (hl3.phis i hi)
    rw [(Site.joinAt hl4.rewrites.list).listed, operandsOn_congr hphis4] at hblock5
    obtain ⟨hl5, hother5, _⟩ := SiteKept.inner .back hl4.rewrites.list rfl hrw5
    have hloose5 := hloose4.rewrites howner hl5.rewrites
    have hrw5' := hrw.trans (hl3.rewrites.trans (hl4.rewrites.trans hl5.rewrites))
    obtain ⟨hrw', hstays, hinsts, hsize, hlocals, hreturn⟩ := hloose5.free hrw5' hfree
    obtain ⟨hd6, hxr6, _⟩ := sound_append.mp hrw5'.list.sound
    obtain ⟨hdapart, hxrapart⟩ := append_apart.mp hloose5.outside
    obtain ⟨hcond, hbody, hphis, hr⟩ := Stays.node (hstays _ hxr6 hxrapart)
    have hext := ((hext2.trans hext3).trans hext4).trans hext5
    have hlocals' : q'.locals = q.locals := by rw [hlocals, hlocals5, hlocals4, hlocals3, hlocals2]
    refine ⟨d', body0.append (block b' (is2 ++ new2) nil), hrw', ?_, ?_, ?_, ?_, ?_, ?_, hlocals', ?_⟩
    · exact (hstays d' hd6 hdapart).code.trans
        ((hother5 .entry (by decide)).trans ((hother4 .entry (by decide)).trans hd3'))
    · refine (hbody _ mem_cons_self).code.trans ?_
      show (body0.append (block b' (is2 ++ new2) nil)).code _ = _
      rw [code_append, hbody5.code, hblock5, ← Code.append_assoc, ← code_append, hcode4,
        show body.code q3 = _ from hother3 .back (by decide)]
      rfl
    · rw [hcond, hl5.condition, hl4.condition, hl3.condition]
    · exact fun i hi => (hphis i hi).trans ((hl5.phis i hi).trans (hphis4 i hi))
    · exact ((hl3.after.trans hl4.after).trans hl5.after).trans hr
    · rw [← hd', roots_append, length_append, ← hlength]
      rfl
    · refine of_freed hlocals' hagrees (fun i data (hmem : i ∉ ids) hdata => ?_) (fun i data hmem hdata => ?_) (by
        rw [hsize]
        exact hext.insts_size) (hreturn.trans hext.returnTy)
      · exact (hinsts i hmem).trans ((hext.insts i (index_lt_of_inst? hdata)).trans hdata)
      · obtain ⟨inst, hinst, hinsti⟩ := h.exists_data hmem
        cases hinsti.symm.trans hdata
        obtain ⟨j, hj, hcopy⟩ := hcopies3 inst hinst
        have hjlt : q.insts.size ≤ j.index := hext2.insts_size.trans (hfresh3 j hj)
        have hkept : q'.inst? j = _ := (hinsts j fun hmem' => Nat.not_lt.mpr hjlt (h.lt hmem')).trans
          (((hext4.trans hext5).insts j (index_lt_of_inst? hcopy)).trans hcopy)
        exact ⟨j, _, Nat.le_trans (Nat.le_of_lt (h.lt hmem)) hjlt, hkept, rfl⟩

end ActorNet
