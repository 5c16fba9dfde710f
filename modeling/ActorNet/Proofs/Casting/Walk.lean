import ActorNet.Proofs.Casting.Sites

/-!
# Casting walks through a procedure

Casting walks through the lists of a procedure, as lowering does. A step rewrites the list it is in
up to a substitution of the whole procedure, because a load whose target changes its type has its
target replaced everywhere. What the walk has not reached yet is the code that it was at first, read
through the substitutions so far (`Uncast`); what it has passed is settled, has a number of new
casts, and mimics the code that stood there if all casts widen (`ListCast`). The main result is
`castsLists`.
-/

namespace ActorNet

open List Procedure Transform Tree

variable {W S : Prop} {T' : LocalId → Prop} {casts0 casts casts' depth k : Nat} {scratch : NodeId}
  {q2 : Procedure} {s : Site} {writes : List LocalId} {ids : List InstId}

/-! ## What is left of the walk -/

/-- The substitution `ρ` has been made elsewhere: instructions have followed it, and it moves none
of some locals. -/
structure Unmoved (o : Outside) (p0 : Procedure) (W : Prop) (ρ : Subst) (writes : List LocalId)
    (ids : List InstId) (q : Procedure) : Prop where
  advances : Advances o p0 W (fun _ => True) ρ p0 q
  insts : ∀ i ∈ ids, q.inst? i = (p0.subst ρ).inst? i
  nodup : W → writes.Nodup
  self : W → ∀ x ∈ writes, ρ x = .loc x

/-- The part `t` of a list has not been cast yet. -/
structure Uncast (o : Outside) (p0 : Procedure) (W S : Prop) (ρ : Subst) (t : Tree)
    (q : Procedure) : Prop extends Unmoved o p0 W ρ (t.code p0).writes t.insts q where
  code : t.code q = t.code (p0.subst ρ)
  ready : W → (t.code p0).Ready o p0 S
  within : S → W

section Walk

variable {o : Outside} {p0 q q1 q' : Procedure} {L : NodeList} {id join : NodeId} {d r x t e body : Tree}
  {phis is : List InstId} {ρ τ : Subst} {T : LocalId → Prop} {shift : Nat}

/-- A step that moves none of the locals. -/
lemma Unmoved.advance (h : Unmoved o p0 W ρ writes ids q) (hadvance : Advances o p0 W T τ q q1)
    (hinsts : ∀ i ∈ ids, q1.inst? i = (q.subst τ).inst? i) (hnot : W → ∀ x ∈ writes, ¬ T x) :
    Unmoved o p0 W (ρ.andThen τ) writes ids q1 where
  advances := (h.advances.trans hadvance).mono fun _ _ => trivial
  insts := by
    intro i hi
    rw [hinsts i hi, ← subst_subst, inst?_subst, h.insts i hi, ← inst?_subst]
  nodup := h.nodup
  self := by
    intro hW x hx
    rw [Subst.andThen, h.self hW x hx]
    exact (hadvance.moves x).resolve_right fun hmoved => hnot hW x hx hmoved.1.1

lemma Unmoved.advance_id (h : Unmoved o p0 W ρ writes ids q) (hadvance : Advances o p0 W (fun _ => False) .id q q1)
    (hinsts : ∀ i ∈ ids, q1.inst? i = q.inst? i) : Unmoved o p0 W ρ writes ids q1 := by
  have hunmoved := h.advance hadvance (by rw [subst_id]; exact hinsts) fun _ _ _ hx => hx
  rw [Subst.andThen_id] at hunmoved
  exact hunmoved

lemma Uncast.advance (h : Uncast o p0 W S ρ t q) (hadvance : Advances o p0 W T τ q q1) (hstays : t.Stays (q.subst τ) q1)
    (hnot : W → ∀ x ∈ (t.code p0).writes, ¬ T x) : Uncast o p0 W S (ρ.andThen τ) t q1 where
  toUnmoved := h.toUnmoved.advance hadvance hstays.insts hnot
  code := by rw [hstays.code, code_subst, h.code, ← code_subst, subst_subst]
  ready := h.ready
  within := h.within

lemma Uncast.advance_id (h : Uncast o p0 W S ρ t q) (hadvance : Advances o p0 W (fun _ => False) .id q q1)
    (hstays : t.Stays q q1) : Uncast o p0 W S ρ t q1 :=
  ⟨h.toUnmoved.advance_id hadvance hstays.insts, hstays.code.trans h.code, h.ready, h.within⟩

/-- A part of what is left. -/
lemma Uncast.part (h : Uncast o p0 W S ρ t q) {u : Tree} (hstays : u.Stays (p0.subst ρ) q)
    (hready : W → (u.code p0).Ready o p0 S)
    (hwrites : (u.code p0).writes.Sublist (t.code p0).writes) : Uncast o p0 W S ρ u q :=
  ⟨⟨h.advances, hstays.insts, fun hW => hwrites.nodup (h.nodup hW),
    fun hW x hx => h.self hW x (hwrites.subset hx)⟩, hstays.code, hready, h.within⟩

lemma Uncast.stays (h : Uncast o p0 W S ρ t q) : t.Stays (p0.subst ρ) q := ⟨h.code, h.insts⟩

lemma Uncast.block (h : Uncast o p0 W S ρ ((block id is .nil).append r) q) :
    Uncast o p0 W S ρ (block id is .nil) q ∧ Uncast o p0 W S ρ r q := by
  obtain ⟨his, hr⟩ := h.stays.block
  have hready := h.ready
  have hwrites : (((Tree.block id is .nil).append r).code p0).writes =
      ((Tree.block id is .nil).code p0).writes ++ (r.code p0).writes := by
    rw [code_append, Code.writes_append]
  rw [code_append] at hready
  refine ⟨h.part ⟨?_, fun i hi => his i ?_⟩ (fun hW => (Code.forall_append.mp (hready hW)).1) ?_,
    h.part hr (fun hW => (Code.forall_append.mp (hready hW)).2) ?_⟩
  · rw [Rewrites.code_block, Rewrites.code_block, filterMap_congr fun i hi => line?_congr (his i hi)]
  · rw [Tree.insts, Tree.insts, List.append_nil] at hi
    exact hi
  · rw [hwrites]
    exact sublist_append_left _ _
  · rw [hwrites]
    exact sublist_append_right _ _

/-- What is left of a conditional: its condition, its branches, its phis, and what stands after it.
They write different locals. -/
lemma Uncast.branch (h : Uncast o p0 W S ρ ((branch id t e join phis .nil).append r) q) :
    q.condition id = (p0.condition id).subst ρ ∧ (S → (p0.condition id).ComparesScalars (p0.scope o.globals)) ∧
      Uncast o p0 W S ρ t q ∧ Uncast o p0 W S ρ e q ∧ Unmoved o p0 W ρ ((phis.filterMap p0.phi?).map (·.target)) phis q ∧
      (W → ∀ φ ∈ phis.filterMap p0.phi?, φ.target.index < p0.locals.size) ∧ Uncast o p0 W S ρ r q ∧
      (W → ∀ x ∈ (e.code p0).writes, x ∉ (t.code p0).writes) ∧
      (W → ∀ x ∈ (phis.filterMap p0.phi?).map (·.target), x ∉ (t.code p0).writes ∧ x ∉ (e.code p0).writes) := by
  obtain ⟨hcond, hstays, hphis, hr⟩ := Stays.node (s := .branch .nil t e) h.stays
  obtain ⟨ht, he, _⟩ := forall_mem_cons.mp hstays |>.imp_right forall_mem_cons.mp
  rw [condition_subst] at hcond
  have hready : W → ((S → (p0.condition id).ComparesScalars (p0.scope o.globals)) ∧
      ∀ φ ∈ phis.filterMap p0.phi?, φ.target.index < p0.locals.size) ∧
      (t.code p0).Ready o p0 S ∧ (e.code p0).Ready o p0 S ∧ (r.code p0).Ready o p0 S := h.ready
  have hwrites : (((Tree.branch id t e join phis .nil).append r).code p0).writes =
      (t.code p0).writes ++ ((e.code p0).writes ++ ((phis.filterMap p0.phi?).map (·.target) ++ (r.code p0).writes)) := by
    simp only [append, Tree.code, Code.writes_branch, List.append_assoc]
  have hself := h.self
  have hnodup := h.nodup
  rw [hwrites] at hself hnodup
  have hnodup1 := fun hW : W => (nodup_append.mp (hnodup hW)).2
  have hnodup2 := fun hW : W => (nodup_append.mp (hnodup1 hW).1).2
  refine ⟨hcond, fun hS => (hready (h.within hS)).1.1 hS, h.part ht (fun hW => (hready hW).2.1) ?_,
    h.part he (fun hW => (hready hW).2.2.1) ?_, ⟨h.advances, hphis, fun hW => (nodup_append.mp (hnodup2 hW).1).1,
    fun hW x hx => hself hW x (by simp only [mem_append]; tauto)⟩, fun hW => (hready hW).1.2,
    h.part hr (fun hW => (hready hW).2.2.2) ?_, fun hW x hx hmem => ?_, fun hW x hx => ⟨fun hmem => ?_, fun hmem => ?_⟩⟩
  · rw [hwrites]
    exact sublist_append_left _ _
  · rw [hwrites]
    exact (sublist_append_left _ _).trans (sublist_append_right _ _)
  · rw [hwrites]
    exact (sublist_append_right _ _).trans ((sublist_append_right _ _).trans (sublist_append_right _ _))
  · exact (hnodup1 hW).2 x hmem x (mem_append_left _ hx) rfl
  · exact (hnodup1 hW).2 x hmem x (mem_append_right _ (mem_append_left _ hx)) rfl
  · exact (hnodup2 hW).2 x hmem x (mem_append_left _ hx) rfl

/-- What is left of a loop. -/
lemma Uncast.loop (h : Uncast o p0 W S ρ ((loop id body join phis .nil).append r) q) :
    q.condition id = (p0.condition id).subst ρ ∧ (S → (p0.condition id).ComparesScalars (p0.scope o.globals)) ∧
      Uncast o p0 W S ρ body q ∧ Unmoved o p0 W ρ ((phis.filterMap p0.phi?).map (·.target)) phis q ∧
      (W → ∀ φ ∈ phis.filterMap p0.phi?, φ.target.index < p0.locals.size) ∧ Uncast o p0 W S ρ r q ∧
      (W → ∀ x ∈ (phis.filterMap p0.phi?).map (·.target), x ∉ (body.code p0).writes) := by
  obtain ⟨hcond, hstays, hphis, hr⟩ := Stays.node (s := .loop .nil body) h.stays
  have hbody := hstays body mem_cons_self
  rw [condition_subst] at hcond
  have hready : W → ((S → (p0.condition id).ComparesScalars (p0.scope o.globals)) ∧
      ∀ φ ∈ phis.filterMap p0.phi?, φ.target.index < p0.locals.size) ∧
      (body.code p0).Ready o p0 S ∧ (r.code p0).Ready o p0 S := h.ready
  have hwrites : (((Tree.loop id body join phis .nil).append r).code p0).writes =
      (phis.filterMap p0.phi?).map (·.target) ++ ((body.code p0).writes ++ (r.code p0).writes) := by
    simp only [append, Tree.code, Code.writes_loop, List.append_assoc]
  have hself := h.self
  have hnodup := h.nodup
  rw [hwrites] at hself hnodup
  refine ⟨hcond, fun hS => (hready (h.within hS)).1.1 hS, h.part hbody (fun hW => (hready hW).2.1) ?_,
    ⟨h.advances, hphis, fun hW => (nodup_append.mp (hnodup hW)).1, fun hW x hx => hself hW x (mem_append_left _ hx)⟩,
    fun hW => (hready hW).1.2, h.part hr (fun hW => (hready hW).2.2) ?_, fun hW x hx hmem => ?_⟩
  · rw [hwrites]
    exact (sublist_append_left _ _).trans (sublist_append_right _ _)
  · rw [hwrites]
    exact (sublist_append_right _ _).trans (sublist_append_right _ _)
  · exact (nodup_append.mp (hnodup hW)).2.2 x hx x (mem_append_left _ hmem) rfl

/-! ## Lists and nodes -/

/-- Code names live locals only if it did before it was cast, and it has been cast if `W` holds. -/
def Recast (o : Outside) (p0 : Procedure) (W S : Prop) (q : Procedure) (ρ : Subst) (k : Nat) (c c' : Code) : Prop :=
  c.LivesOn p0 q c' ∧ (W → Casted o p0 S q ρ k c c')

namespace Recast

variable {c c' c1 c1' : Code} {m : Nat}

lemma advance (h : Recast o p0 W S q ρ k c c') (hadvance : Advances o p0 W T τ q q1)
    (hapart : W → ∀ x ∈ c.writes, ¬ T x) (hsize : p0.locals.size ≤ q.locals.size) :
    Recast o p0 W S q1 (ρ.andThen τ) k c (c'.subst τ) :=
  ⟨fun spared hc => hadvance.live_code (h.1 spared hc), fun hW => (h.2 hW).advance hadvance hW (hapart hW) hsize⟩

lemma advance_id (h : Recast o p0 W S q ρ k c c') (hadvance : Advances o p0 W (fun _ => False) .id q q1)
    (hsize : p0.locals.size ≤ q.locals.size) : Recast o p0 W S q1 ρ k c c' :=
  ⟨fun spared hc => (h.1 spared hc).mono hadvance.live, fun hW => (h.2 hW).advance_id hadvance hW hsize⟩

lemma append (h : Recast o p0 W S q ρ k c c') (h' : Recast o p0 W S q ρ m c1 c1') :
    Recast o p0 W S q ρ (k + m) (c.append c1) (c'.append c1') := by
  refine ⟨fun spared hc => ?_, fun hW => (h.2 hW).append (h'.2 hW)⟩
  obtain ⟨hc, hc1⟩ := Code.forall_append.mp hc
  exact Code.forall_append.mpr ⟨h.1 spared hc, h'.1 spared hc1⟩

end Recast

def ListCast (o : Outside) (p0 : Procedure) (W S : Prop) (L : NodeList) (d t : Tree) (ρ : Subst)
    (k : Nat) (q q' : Procedure) : Prop :=
  ∃ (τ : Subst) (t' : Tree) (c' : Code), Rewrites L (d.append t) t' (q.subst τ) q' ∧
    Advances o p0 W (· ∈ (t.code p0).writes) τ q q' ∧ t'.code q' = (d.code (q.subst τ)).append c' ∧
    Recast o p0 W S q' (ρ.andThen τ) k (t.code p0) c'

/-- One node `x` of a list has been cast, for which some nodes were put before it. -/
def NodeCast (o : Outside) (p0 : Procedure) (W S : Prop) (L : NodeList) (d x r : Tree) (shift : Nat)
    (ρ : Subst) (k : Nat) (q q' : Procedure) : Prop :=
  ∃ (τ : Subst) (d' : Tree) (c' : Code), Rewrites L (d.append (x.append r)) (d'.append r) (q.subst τ) q' ∧
    Advances o p0 W (· ∈ (x.code p0).writes) τ q q' ∧ d'.code q' = (d.code (q.subst τ)).append c' ∧
    r.Stays (q.subst τ) q' ∧ d'.roots.length = d.roots.length + shift + 1 ∧
    Recast o p0 W S q' (ρ.andThen τ) k (x.code p0) c'

def CastsLists (o : Outside) (p0 : Procedure) (W S : Prop) (depth : Nat) : Prop :=
  ∀ (L : NodeList) (d t : Tree) (ρ : Subst) (q q' : Procedure) (casts casts' : Nat), ListAt L (d.append t) q →
    Uncast o p0 W S ρ t q → t.height ≤ depth →
    Yields (visitEach (castNode o depth L) d.roots.length t.roots casts) q casts' q' →
    ∃ k, casts' = casts + k ∧ ListCast o p0 W S L d t ρ k q q'

lemma ListCast.nil (h : ListAt L (d.append .nil) q) : ListCast o p0 W S L d .nil ρ 0 q q := by
  refine ⟨.id, d.append .nil, .done, ?_, Advances.refl q, ?_, fun _ _ => trivial,
    fun _ => ⟨Grown.done, fun _ _ _ => Mimics.done⟩⟩
  · rw [subst_id]
    exact Rewrites.refl h
  · rw [subst_id, code_append]
    rfl

/-- Casting a node and then the rest of the list. -/
lemma ListCast.cons (huncast : Uncast o p0 W S ρ r q) (hnodup : W → ((x.append r).code p0).writes.Nodup)
    (hnode : ∃ k, casts = casts0 + k ∧ NodeCast o p0 W S L d x r shift ρ k q q1)
    (hrest : ∀ (d' : Tree) (ρ' : Subst), ListAt L (d'.append r) q1 → d'.roots.length = d.roots.length + shift + 1 →
      Uncast o p0 W S ρ' r q1 → ∃ k, casts' = casts + k ∧ ListCast o p0 W S L d' r ρ' k q1 q') :
    ∃ k, casts' = casts0 + k ∧ ListCast o p0 W S L d (x.append r) ρ k q q' := by
  obtain ⟨k1, rfl, τ1, d', c1, hrw1, hadvance1, hcode1, hr, hlength, hcasted1⟩ := hnode
  rw [code_append, Code.writes_append] at hnodup
  have hdisjoint := fun hW : W => (nodup_append.mp (hnodup hW)).2.2
  obtain ⟨k2, rfl, τ2, t', c2, hrw2, hadvance2, hcode2, hcasted2⟩ := hrest d' (ρ.andThen τ1) hrw1.list hlength
    (huncast.advance hadvance1 hr fun hW y hy hmem => hdisjoint hW y hmem y hy rfl)
  refine ⟨k1 + k2, Nat.add_assoc _ _ _, τ1.andThen τ2, t', (c1.subst τ2).append c2, ?_, ?_, ?_, ?_⟩
  · rw [← subst_subst]
    exact (hrw1.subst τ2).trans hrw2
  · refine (hadvance1.trans hadvance2).mono fun y hy => ?_
    rw [code_append, Code.writes_append]
    exact mem_append.mpr hy
  · rw [hcode2, code_subst, hcode1, Code.subst_append, ← code_subst, subst_subst, Code.append_assoc]
  · rw [code_append, ← Subst.andThen_assoc]
    refine (hcasted1.advance hadvance2 (fun hW y hmem hy => hdisjoint hW y hmem y hy rfl) ?_).append hcasted2
    exact huncast.advances.locals_size.trans hadvance1.locals_size

/-! ## Blocks -/

lemma castNode_block (h : ListAt L (d.thenBlock id is r) q) (huncast : Uncast o p0 W S ρ (block id is .nil) q)
    (hy : Yields (castNode o (depth + 1) L d.roots.length id casts) q (shift, casts') q') :
    ∃ k, casts' = casts + k ∧ NodeCast o p0 W S L d (block id is .nil) r shift ρ k q q' := by
  have hid := h.blockAt.1
  rw [castNode, yields_read, hid] at hy
  simp only [yields_bind, yields_pure, Prod.mk.injEq] at hy
  obtain ⟨k, q1, hy, ⟨rfl, rfl⟩, rfl⟩ := hy
  obtain ⟨⟨hadvance0, hinsts, hnodup, hself⟩, _, hready, hwithin⟩ := huncast
  have hcode : (block id is .nil).code p0 = Code.ofLines (is.filterMap p0.line?) := Rewrites.code_block _ _ _
  rw [hcode] at hnodup hself hready
  have h' : ListAt L (d.thenBlock id ([] ++ is) r) q := h
  have hpart : PartCast o p0 W S L d r id [] is [] (.ofLines (is.filterMap p0.line?)) ρ k q q' :=
    castInsts_rewrites h' hadvance0 (fun i hi => hinsts i (by simpa [Tree.insts] using hi))
      hwithin (fun hW => Code.forall_ofLines.mp (hready hW)) hnodup hself hy
  obtain ⟨τ, new, hrw, hd, hr, _, hadvance, hcasted⟩ := hpart
  rw [nil_append, List.append_nil, nil_append, List.append_nil] at hrw
  refine ⟨k, rfl, τ, d.append (block id new .nil), (block id new .nil).code q', ?_, ?_, ?_, hr, ?_, ?_⟩
  · rw [Tree.append_assoc]
    exact hrw
  · rw [hcode]
    exact hadvance
  · rw [code_append, hd.code]
  · rw [roots_append, length_append]
    rfl
  · rw [hcode, Rewrites.code_block]
    exact hcasted

/-! ## Joins -/

/-- The phis of a join have been cast, after their operands were read through `ρ`. -/
structure JoinCast (o : Outside) (p0 : Procedure) (W : Prop) (ρ : Subst) (phis : List Phi)
    (new : List (Edge × Inst)) (phis' : List Phi) (q q' : Procedure) : Prop where
  reads : Advances o p0 W (fun _ => True) ρ p0 q
  advances : Advances o p0 W (fun _ => False) .id q q'
  casts : PhisCast (q'.scope o.globals) (q'.WidensFrom o.globals p0.insts.size) q.locals.size (phis.map (Phi.subst ρ)) new
    phis' q'.locals.size
  declared : W → ∀ φ ∈ phis, φ.target.index < p0.locals.size
  nodup : W → (phis.map (·.target)).Nodup
  self : W → ∀ φ ∈ phis, ρ φ.target = .loc φ.target

lemma castPhis_join {done done' : JoinCasts} (h : ListAt L (s.tree id join phis r) q)
    (hphis : Unmoved o p0 W ρ ((phis.filterMap p0.phi?).map (·.target)) phis q)
    (hlive : W → ∀ φ ∈ phis.filterMap p0.phi?, φ.target.index < p0.locals.size)
    (hpos : done.pos = s.before.roots.length) (hy : Yields (castPhis o L done phis) q done' q') :
    ∃ s' new, SiteRewrites L id join phis r s s' new q q' ∧ done'.pos = s'.before.roots.length ∧
      done'.casts = done.casts + new.length ∧
      JoinCast o p0 W ρ (phis.filterMap p0.phi?) new (phis.filterMap q'.phi?) q q' := by
  obtain ⟨hadvance, hinsts, hnodup, hself⟩ := hphis
  have hold : ∀ i ∈ phis, i.index < p0.insts.size := by
    intro i hi
    obtain ⟨data, hdata, _⟩ := (Site.joinAt h).recorded i hi
    rw [hinsts i hi] at hdata
    have hlt := index_lt_of_inst? hdata
    rw [size_insts_subst] at hlt
    exact hlt
  obtain ⟨s', new, hrw, hadvance', hpos', hcount, hcasts, _⟩ := castPhis_rewrites (T := fun _ => False) h
    (List.Subset.refl phis) (Site.phis_nodup h) hold hadvance.insts_size hpos hy
  have hphis : phis.filterMap q.phi? = (phis.filterMap p0.phi?).map (Phi.subst ρ) := by
    rw [map_filterMap]
    refine filterMap_congr fun i hi => ?_
    rw [phi?_congr (hinsts i hi), phi?_subst]
  rw [hphis] at hcasts
  exact ⟨s', new, hrw, hpos', hcount, hadvance, hadvance', hcasts, hlive, hnodup, fun hW φ hφ =>
    hself hW _ (mem_map_of_mem hφ)⟩

section Joins

variable {edge : Edge} {edges : List Edge} {new : List (Edge × Inst)} {K : List Inst}
  {phis phis' : List Phi} {lo hi m l : Nat} {c c' : Expr} {a a' b b' : Code} {calls : CallStep}

lemma Phi.countP_isCast (phis : List Phi) : (phis.map Phi.inst).countP Inst.isCast = 0 := by
  rw [countP_eq_zero]
  exact forall_mem_map.mpr nofun

lemma Phi.likes (htargets : phis'.map (·.target) = phis.map (·.target)) :
    ∀ i ∈ phis'.map Phi.inst, ∃ j ∈ phis.map Phi.inst, i.Like j := by
  refine forall_mem_map.mpr fun φ' hφ' => ?_
  have hmem : φ'.target ∈ phis.map (·.target) := htargets ▸ mem_map_of_mem hφ'
  obtain ⟨φ, hφ, heq⟩ := mem_map.mp hmem
  exact ⟨φ.inst, mem_map_of_mem hφ, congrArg (fun x => some (VarRef.loc x)) heq.symm, rfl, rfl⟩

namespace Grown

section

variable (hcond : c'.Suits (q.scope o.globals) S (some .bool)) (hphis : ∀ φ ∈ phis', φ.Settled (q.scope o.globals))
  (htargets : phis'.map (·.target) = phis.map (·.target)) (ha : Grown o p0 S q k a a')
include hcond hphis htargets ha

lemma branch (hb : Grown o p0 S q m b b') :
    Grown o p0 S q (k + m) (.branch c a b phis .done) (.branch c' a' b' phis' .done) where
  lines := by
    simp only [Code.insts, List.append_nil, mem_append]
    rintro i ((hi | hi) | hi)
    · exact (ha.lines i hi).imp_right (Exists.imp fun j h => ⟨.inl (.inl h.1), h.2⟩)
    · exact (hb.lines i hi).imp_right (Exists.imp fun j h => ⟨.inl (.inr h.1), h.2⟩)
    · obtain ⟨j, hj, hlike⟩ := Phi.likes htargets i hi
      exact .inr ⟨j, .inr hj, hlike⟩
  settled := ⟨⟨hcond, hphis⟩, ha.settled, hb.settled, trivial⟩
  casts := by
    have hcasts := ha.casts
    have hcasts' := hb.casts
    simp only [Code.casts, Code.insts, countP_append, Phi.countP_isCast, countP_nil] at hcasts hcasts' ⊢
    omega

lemma loop : Grown o p0 S q k (.loop c a phis .done) (.loop c' a' phis' .done) where
  lines := by
    simp only [Code.insts, List.append_nil, mem_append]
    rintro i (hi | hi)
    · obtain ⟨j, hj, hlike⟩ := Phi.likes htargets i hi
      exact .inr ⟨j, .inl hj, hlike⟩
    · exact (ha.lines i hi).imp_right (Exists.imp fun j h => ⟨.inr h.1, h.2⟩)
  settled := ⟨⟨hcond, hphis⟩, ha.settled, trivial⟩
  casts := by
    have hcasts := ha.casts
    simp only [Code.casts, Code.insts, countP_append, Phi.countP_isCast, countP_nil] at hcasts ⊢
    omega

end

end Grown

lemma Inst.Defines.settled_subst {i : Inst} (h : i.Defines lo hi) (hsettled : i.Settled o S q)
    (hagrees : (q.scope o.globals).Agrees (q.scope o.globals) τ) : (i.subst τ).Settled o S q := by
  cases i with
  | assign target value =>
    obtain ⟨ty, hty, hsuits⟩ := hsettled
    exact ⟨ty, hty, hsuits.subst hagrees⟩
  | cast => trivial
  | load | store | call | phi | ret => exact h.elim

namespace JoinCast

section

variable (h : JoinCast o p0 W ρ phis new phis' q q')
include h

lemma targets : phis'.map (·.target) = phis.map (·.target) := by
  rw [h.casts.targets, List.map_map]
  rfl

lemma spares (hW : W) : ∀ φ ∈ phis, ρ.Spares (.loc φ.target) := fun φ hφ =>
  h.reads.spares (h.declared hW φ hφ) (h.self hW φ hφ)

/-- The casts and the new phis name live locals only if the phis did. -/
lemma lives {spared : LocalId → Prop} (hphis : ∀ φ ∈ phis, p0.LiveIn spared φ.inst.named) :
    (∀ edge, ∀ i ∈ onEdge edge new, q'.LiveIn spared i.named) ∧ ∀ φ ∈ phis', q'.LiveIn spared φ.inst.named := by
  have hread : ∀ φ ∈ phis.map (Phi.subst ρ), q'.LiveIn spared φ.inst.named :=
    forall_mem_map.mpr fun φ hφ => (h.reads.liveIn_inst (hphis φ hφ)).mono h.advances.live
  obtain ⟨hnew, hphis'⟩ := h.casts.live hread
  refine ⟨fun edge i hi => ?_, hphis'⟩
  obtain ⟨x, hx, rfl⟩ := mem_onEdge hi
  exact hnew x hx

/-- Instructions that read the operands of the new phis for their targets name live locals only. -/
lemma lives_copies {spared : LocalId → Prop} (hphis : ∀ φ ∈ phis, p0.LiveIn spared φ.inst.named)
    (hK : ∀ i ∈ K, q'.LiveIn spared i.named) (edge : Edge) : ∀ i ∈ onEdge edge new ++
    K.map (Inst.subst (.ofPairs (Phi.pairs edge phis'))), q'.LiveIn spared i.named := by
  obtain ⟨hnew, hphis'⟩ := h.lives hphis
  refine forall_mem_append.mpr ⟨hnew edge,
    forall_mem_map.mpr fun i hi => Inst.liveIn_ofPairs (fun pair hpair => ?_) (hK i hi)⟩
  obtain ⟨φ, hφ, hpair⟩ := mem_flatMap.mp hpair
  obtain ⟨arm, harm, rfl⟩ := mem_map.mp hpair
  have harms := liveIn_flatMap.mp (liveIn_append.mp (hphis' φ hφ)).1
  exact (liveIn_cons.mp (harms arm (mem_filter.mp harm).1)).1

/-- If all casts widen, the instructions on an edge give the new phis the values that the phis
had. -/
lemma joins (hW : W) (calls : CallStep) (hwide : q'.WidensFrom o.globals p0.insts.size)
    (hcastable : ∀ φ ∈ phis, φ.Castable (p0.scope o.globals) edges) (hedge : edge ∈ edges) :
    Joins (p0.scope o.globals) calls ρ edge phis (onEdge edge new) phis' := by
  refine h.casts.joins calls hwide (h.reads.trans_id h.advances).maps (fun v ty hv => ?_) (fun φ hφ arm harm => ?_)
    (fun φ hφ => (hcastable φ hφ).tagged edge hedge) (h.spares hW)
  · exact VarRef.below_of_ty? (h.reads.maps v ty hv)
  · obtain ⟨ty, hty, _⟩ := (hcastable φ hφ).operands arm harm
    exact ⟨ty, hty⟩

lemma grown (edge : Edge) : Grown o p0 S q' (onEdge edge new).length .done (.ofInsts (onEdge edge new)) := by
  refine Grown.ofInsts (fun i hi => ?_) (fun i hi => ?_) (countP_eq_length.mpr fun i hi => ?_) <;>
    obtain ⟨x, hx, rfl⟩ := mem_onEdge hi
  · exact (h.casts.defines x hx).mono h.reads.locals_size le_rfl
  · have hcast := h.casts.casts x hx
    cases hinst : x.2 with
    | cast => trivial
    | assign | load | store | call | phi | ret => cases hinst ▸ hcast
  · exact h.casts.casts x hx

lemma agrees (edge : Edge) : (q'.scope o.globals).Agrees (q'.scope o.globals) (.ofPairs (Phi.pairs edge phis')) := by
  refine Scope.Agrees.ofPairs fun pair hpair => ?_
  obtain ⟨φ, hφ, hpair⟩ := mem_flatMap.mp hpair
  obtain ⟨arm, harm, rfl⟩ := mem_map.mp hpair
  obtain ⟨ty, htarget, hoperands⟩ := h.casts.settled φ hφ
  exact ⟨ty, htarget, hoperands arm (mem_filter.mp harm).1⟩

end

end JoinCast

lemma length_onEdge {edge' : Edge} (hne : edge ≠ edge') (h : ∀ x ∈ new, x.1 ∈ [edge, edge']) :
    (onEdge edge new).length + (onEdge edge' new).length = new.length := by
  simp only [onEdge, length_map, ← countP_eq_length_filter]
  rw [length_eq_countP_add_countP (fun x => decide (x.1 = edge)) (l := new)]
  refine congrArg (_ + ·) (countP_congr fun x hx => ?_)
  have hx := h x hx
  simp only [mem_cons, not_mem_nil, or_false] at hx
  simp only [decide_eq_true_eq]
  exact ⟨fun heq => heq ▸ hne.symm, fun hnot => hx.resolve_left hnot⟩

namespace JoinCast

/-- The instructions for the condition of a loop stand after the casts on an edge. They read one
operand after the other, which is the same as reading all of them at once if the phis allow it. -/
lemma enters (h : JoinCast o p0 W ρ phis new phis' q q') (hW : W) (hwide : q'.WidensFrom o.globals p0.insts.size)
    (hcastable : ∀ φ ∈ phis, φ.Castable (p0.scope o.globals) edges) (hedge : edge ∈ edges)
    (htests : Tests (p0.scope o.globals) calls ρ c K c') (hdefines : ∀ i ∈ K, i.Defines lo hi)
    (hlo : p0.locals.size ≤ lo) (hhi : hi ≤ q.locals.size)
    (hoperands : ∀ v ty, (p0.scope o.globals).ty? v = some ty → ∀ x : LocalId, ρ.apply v = .loc x →
      ¬ (lo ≤ x.index ∧ x.index < hi)) (horder : K = [] ∨ Phi.Resolved edge phis) :
    Enters (p0.scope o.globals) calls ρ edge phis c
      (onEdge edge new ++ K.map (Inst.subst (.ofPairs (Phi.pairs edge phis')))) phis' c' := by
  have htargets := h.targets
  have hK : K.map (Inst.subst (.ofPairs (Phi.pairs edge phis'))) = K.map (Inst.subst (Phi.sources edge phis')) := by
    rcases horder with rfl | hres
    · rfl
    · rw [Subst.ofPairs_pairs (h.casts.tagged
        (forall_mem_map.mpr fun φ hφ => ((hcastable φ hφ).tagged edge hedge).subst ρ))
        (h.casts.resolved (hres.subst (h.spares hW)) (forall_mem_map.mpr fun φ hφ => ?_))]
      exact Nat.lt_of_lt_of_le (h.declared hW φ hφ) h.reads.locals_size
  rw [hK]
  refine (h.joins hW calls hwide hcastable hedge).enters htests hdefines (h.spares hW) (htargets ▸ h.nodup hW)
    (fun φ' hφ' => ?_) fun φ' hφ' arm' harm' x hx => ?_
  · have hmem : φ'.target ∈ phis.map (·.target) := htargets ▸ mem_map_of_mem hφ'
    obtain ⟨φ, hφ, heq⟩ := mem_map.mp hmem
    rw [← heq]
    exact Nat.lt_of_lt_of_le (h.declared hW φ hφ) hlo
  · rcases h.casts.operands hφ' harm' with ⟨ψ, hψ, arm, harm, hvar⟩ | ⟨j, hj, hlow⟩
    · obtain ⟨φ, hφ, rfl⟩ := mem_map.mp hψ
      obtain ⟨arm0, harm0, rfl⟩ := mem_map.mp harm
      obtain ⟨ty, hty, _⟩ := (hcastable φ hφ).operands arm0 harm0
      exact hoperands _ ty hty x (hvar.symm.trans hx)
    · cases hj.symm.trans hx
      exact fun hrange => Nat.not_lt.mpr (hhi.trans hlow) hrange.2

section

variable (h : JoinCast o p0 W ρ phis new phis' q q') (hcond : ConditionCast o p0 W S q' ρ lo hi k c K c')
  (hlo : p0.locals.size ≤ lo)
include h hcond hlo

/-- A conditional whose parts have been cast. -/
lemma branch (hhi : hi ≤ q'.locals.size) (ha : Recast o p0 W S q' ρ m a a')
    (hb : Recast o p0 W S q' ρ l b b') (hedges : ∀ x ∈ new, x.1 ∈ [Edge.thenEnd, .elseEnd]) :
    Recast o p0 W S q' ρ (k + m + l + new.length) (.branch c a b phis .done)
      ((Code.ofInsts K).append (.branch c' (a'.append (.ofInsts (onEdge .thenEnd new)))
        (b'.append (.ofInsts (onEdge .elseEnd new))) phis' .done)) := by
  refine ⟨?_, fun hW => ?_⟩
  · rintro spared ⟨⟨hc, hphis⟩, hca, hcb, _⟩
    obtain ⟨hK, hc'⟩ := hcond.live spared hc
    obtain ⟨hnew, hphis'⟩ := h.lives hphis
    exact Code.forall_append.mpr ⟨Code.live_ofInsts hK, ⟨hc', hphis'⟩,
      Code.forall_append.mpr ⟨ha.1 spared hca, Code.live_ofInsts (hnew _)⟩,
      Code.forall_append.mpr ⟨hb.1 spared hcb, Code.live_ofInsts (hnew _)⟩, trivial⟩
  replace ha := ha.2 hW
  replace hb := hb.2 hW
  have hbefore : Grown o p0 S q' k .done (.ofInsts K) :=
    Grown.ofInsts (fun i hi => (hcond.defines i hi).mono hlo hhi) (hcond.settled hW) hcond.casts
  have hgrown := hbefore.append (Grown.branch (c := c) hcond.suits h.casts.settled h.targets
    (ha.toGrown.append (h.grown .thenEnd)) (hb.toGrown.append (h.grown .elseEnd)))
  rw [Code.append_done, Code.append_done] at hgrown
  have hlength := length_onEdge (by decide) hedges
  have hcount : k + (m + (onEdge .thenEnd new).length + (l + (onEdge .elseEnd new).length)) = k + m + l + new.length := by
    omega
  refine ⟨hcount ▸ hgrown, ?_⟩
  rintro calls ⟨⟨hc, hphis⟩, hca, hcb, _⟩ hwide
  exact Mimics.branch (hcond.tests hW calls hc hwide) (ha.mimics calls hca hwide) (hb.mimics calls hcb hwide)
    (h.joins hW calls hwide hphis (by simp)) (h.joins hW calls hwide hphis (by simp)) (h.spares hW)

/-- A loop whose parts have been cast. -/
lemma loop (hhi : hi ≤ q.locals.size) (ha : Recast o p0 W S q' ρ m a a')
    (hedges : ∀ x ∈ new, x.1 ∈ [Edge.entry, .back])
    (hoperands : ∀ v ty, (p0.scope o.globals).ty? v = some ty → ∀ x : LocalId, ρ.apply v = .loc x →
      ¬ (lo ≤ x.index ∧ x.index < hi)) : Recast o p0 W S q' ρ (k + m + new.length + k) (.loop c a phis .done)
      ((Code.ofInsts (onEdge .entry new ++ K.map (Inst.subst (.ofPairs (Phi.pairs .entry phis'))))).append
        (.loop c' (a'.append (.ofInsts (onEdge .back new ++ K.map (Inst.subst (.ofPairs (Phi.pairs .back phis'))))))
          phis' .done)) := by
  refine ⟨?_, fun hW => ?_⟩
  · rintro spared ⟨⟨hc, hphis⟩, hca, _⟩
    obtain ⟨hK, hc'⟩ := hcond.live spared hc
    have hcopies := h.lives_copies hphis hK
    exact Code.forall_append.mpr ⟨Code.live_ofInsts (hcopies _), ⟨hc', (h.lives hphis).2⟩,
      Code.forall_append.mpr ⟨ha.1 spared hca, Code.live_ofInsts (hcopies _)⟩, trivial⟩
  replace ha := ha.2 hW
  have hcopies : ∀ edge, Grown o p0 S q' ((onEdge edge new).length + k) .done
      (.ofInsts (onEdge edge new ++ K.map (Inst.subst (.ofPairs (Phi.pairs edge phis'))))) := by
    intro edge
    rw [Code.ofInsts_append]
    refine (h.grown edge).append
      (Grown.ofInsts (forall_mem_map.mpr fun i hi => ?_) (forall_mem_map.mpr fun i hi => ?_) ?_)
    · exact ((hcond.defines i hi).subst _).mono hlo (hhi.trans h.advances.locals_size)
    · exact (hcond.defines i hi).settled_subst (hcond.settled hW i hi) (h.agrees edge)
    · rw [Inst.countP_isCast_subst, hcond.casts]
  have hgrown := (hcopies .entry).append (Grown.loop (c := c) hcond.suits h.casts.settled h.targets
    (ha.toGrown.append (hcopies .back)))
  rw [Code.append_done] at hgrown
  have hlength := length_onEdge (by decide) hedges
  have hcount : (onEdge .entry new).length + k + (m + ((onEdge .back new).length + k)) = k + m + new.length + k := by
    omega
  refine ⟨hcount ▸ hgrown, ?_⟩
  rintro calls ⟨⟨hc, hphis, horder⟩, hca, _⟩ hwide
  have henters : ∀ edge ∈ [Edge.entry, .back], Enters (p0.scope o.globals) calls ρ edge phis c
      (onEdge edge new ++ K.map (Inst.subst (.ofPairs (Phi.pairs edge phis')))) phis' c' := fun edge hedge =>
    h.enters hW hwide hphis hedge (hcond.tests hW calls hc hwide) hcond.defines hlo hhi hoperands
      (horder.imp (hcond.exact hc.plain) fun hres => hres edge hedge)
  exact Mimics.loop (henters .entry (by simp)) (henters .back (by simp)) (ha.mimics calls hca hwide)

end

end JoinCast

end Joins

/-! ## Conditionals -/

/-- The condition of a conditional has been cast, and the instructions that it needs stand before
the conditional. -/
lemma castCondition_branch {u : Unit} (h : ListAt L (d.append ((branch id t e join phis .nil).append r)) q)
    (hadvance : Advances o p0 W (fun _ => True) ρ p0 q)
    (hS : S → (p0.condition id).ComparesScalars (p0.scope o.globals))
    (hcondition : Yields (castCondition o id ((p0.condition id).subst ρ)) q (scratch, k) q1)
    (hplace : Yields (placeBefore L d.roots.length scratch) q1 shift q2) (hfree : Yields (freeNode scratch) q2 u q') :
    ∃ (d' : Tree) (K : List Inst), Rewrites L (d.append ((branch id t e join phis .nil).append r))
        (d'.append ((branch id t e join phis .nil).append r)) q q' ∧
      d'.code q' = (d.code q).append (.ofInsts K) ∧ d'.roots.length = d.roots.length + shift ∧ t.Stays q q' ∧
      e.Stays q q' ∧ (∀ i ∈ phis, q'.inst? i = q.inst? i) ∧ r.Stays q q' ∧ Advances o p0 W (fun _ => False) .id q q' ∧
      ConditionCast o p0 W S q' ρ q.locals.size q'.locals.size k (p0.condition id) K (q'.condition id) := by
  have hsite : ListAt L ((Site.branch d t e).tree id join phis r) q := h
  obtain ⟨ids, K, hcast⟩ : ∃ ids K,
    SiteCondition o p0 W S L id join phis r (.branch d t e) ρ k (p0.condition id) scratch ids
      K q q1 := castCondition_rewrites hsite hadvance hS hcondition
  obtain ⟨d', hrw, hcode, hstays, hlength, hadvance', hlocals⟩ :=
    placeBefore_rewrites o p0 W (fun _ => False) hcast.loose hcast.rewrites hplace hfree
  obtain ⟨hcond, htrees, hphis, hr⟩ := Stays.node (s := .branch d t e) hstays
  obtain ⟨ht, he, _⟩ := forall_mem_cons.mp htrees |>.imp_right forall_mem_cons.mp
  -- casting the condition changes no instruction that was there
  obtain ⟨_, hsound, _⟩ := sound_append.mp h.sound
  have hinst : ∀ i ∈ ((branch id t e join phis .nil).append r).insts, q1.inst? i = q.inst? i := fun i hi =>
    hcast.grows.insts i (hsound.inst_lt hi)
  simp only [Tree.append, Tree.insts, mem_append] at hinst
  have ht1 : t.Stays q q1 := ⟨hcast.codes .thenEnd, fun i hi => hinst i (.inl (.inl (.inl hi)))⟩
  have he1 : e.Stays q q1 := ⟨hcast.codes .elseEnd, fun i hi => hinst i (.inl (.inl (.inr hi)))⟩
  refine ⟨d', K, hrw, ?_, hlength, ht1.trans ht, he1.trans he, fun i hi => (hphis i hi).trans (hinst i (.inl (.inr hi))),
    hcast.after.trans hr, (Advances.of_extends hcast.grows).trans_id hadvance', ?_⟩
  · rw [hcode]
    exact congrArg (Code.append · _) (hcast.codes .entry)
  · rw [hcond, hlocals]
    exact hcast.casted.advance_id hadvance' hadvance.locals_size le_rfl

/-- A list inside of a construct has been cast. -/
lemma castInner (edge : Edge) (hlists : CastsLists o p0 W S depth) (h : ListAt L (s.tree id join phis r) q)
    (ht : s.inner? edge = some t) (huncast : Uncast o p0 W S ρ t q) (hheight : t.height ≤ depth)
    (hy : Yields (visitEach (castNode o depth (edge.list id)) 0 (q.listNodes (edge.list id)) casts) q casts' q')
    : ∃ (τ : Subst) (t' : Tree) (k : Nat), casts' = casts + k ∧
      SiteKept L id join phis r s (s.withInner edge t') (q.subst τ) q' ∧
      (∀ edge', edge' ≠ edge → s.codeAt q' edge' = s.codeAt (q.subst τ) edge') ∧
      (∀ edge' u, edge' ≠ edge → s.inner? edge' = some u → u.Stays (q.subst τ) q') ∧
      Advances o p0 W (· ∈ (t.code p0).writes) τ q q' ∧
      Recast o p0 W S q' (ρ.andThen τ) k (t.code p0) (t'.code q') := by
  have hlist := Site.listAt_inner edge (Site.sound h) ht
  rw [hlist.nodes] at hy
  obtain ⟨k, hk, τ, t', c', hrw, hadvance, hcode, hcasted⟩ := hlists _ .nil t ρ q q' casts casts' hlist huncast hheight hy
  obtain ⟨hkept, hcodes, hstays⟩ := SiteKept.inner edge (h.subst τ) ht hrw
  refine ⟨τ, t', k, hk, hkept, hcodes, hstays, hadvance, ?_⟩
  rw [hcode]
  exact hcasted

/-- Both branches of a conditional have been cast. -/
lemma castLists_branch {casts1 casts2 : Nat} (hlists : CastsLists o p0 W S depth)
    (h : ListAt L (d.append ((branch id t e join phis .nil).append r)) q) (ht : Uncast o p0 W S ρ t q)
    (he : Uncast o p0 W S ρ e q) (hapart : W → ∀ x ∈ (e.code p0).writes, x ∉ (t.code p0).writes) (hht : t.height ≤ depth)
    (hhe : e.height ≤ depth)
    (hthen : Yields (visitEach (castNode o depth (.thenOf id)) 0 (q.listNodes (.thenOf id)) casts) q casts1 q1)
    (helse : Yields (visitEach (castNode o depth (.elseOf id)) 0 (q1.listNodes (.elseOf id)) casts1) q1 casts2 q')
    : ∃ (τ : Subst) (t' e' : Tree) (k m : Nat), casts2 = casts + k + m ∧
      SiteKept L id join phis r (.branch d t e) (.branch d t' e') (q.subst τ) q' ∧ d.code q' = d.code (q.subst τ) ∧
      Advances o p0 W (fun x => x ∈ (t.code p0).writes ∨ x ∈ (e.code p0).writes) τ q q' ∧
      Recast o p0 W S q' (ρ.andThen τ) k (t.code p0) (t'.code q') ∧
      Recast o p0 W S q' (ρ.andThen τ) m (e.code p0) (e'.code q') := by
  have h : ListAt L ((Site.branch d t e).tree id join phis r) q := h
  obtain ⟨τ1, t', k, hk, hk1, hcodes1, hstays1, hadvance1, hcasted1⟩ := castInner .thenEnd hlists h rfl ht hht hthen
  obtain ⟨τ2, e', m, hm, hk2, hcodes2, _, hadvance2, hcasted2⟩ := castInner .elseEnd hlists hk1.rewrites.list rfl
    (he.advance hadvance1 (hstays1 .elseEnd e (by decide) rfl) hapart) hhe helse
  have hbefore1 : d.code q1 = d.code (q.subst τ1) := hcodes1 .entry (by decide)
  have hbefore2 : d.code q' = d.code (q1.subst τ2) := hcodes2 .entry (by decide)
  have hthen2 : t'.code q' = t'.code (q1.subst τ2) := hcodes2 .thenEnd (by decide)
  refine ⟨τ1.andThen τ2, t', e', k, m, by rw [hm, hk], ?_, ?_, hadvance1.trans hadvance2, ?_, ?_⟩
  · rw [← subst_subst]
    exact (hk1.subst τ2).trans hk2
  · rw [hbefore2, code_subst, hbefore1, ← code_subst, subst_subst]
  · rw [hthen2, code_subst, ← Subst.andThen_assoc]
    exact hcasted1.advance hadvance2 (fun hW x hx hmem => hapart hW x hmem hx)
      (ht.advances.locals_size.trans hadvance1.locals_size)
  · rw [← Subst.andThen_assoc]
    exact hcasted2

lemma Advances.after_id (h : Advances o p0 W T .id q q1) (h' : Advances o p0 W T' τ q1 q') :
    Advances o p0 W T' τ q q' := by
  have hsame : Advances o p0 W T' .id q q1 := { h with moves := Subst.moves_id _ _ _ }
  exact (hsame.trans h').mono fun _ hx => hx.elim id id

lemma castNode_branch (hlists : CastsLists o p0 W S depth)
    (h : ListAt L (d.append ((branch id t e join phis .nil).append r)) q)
    (huncast : Uncast o p0 W S ρ ((branch id t e join phis .nil).append r) q) (hht : t.height ≤ depth)
    (hhe : e.height ≤ depth) (hy : Yields (castNode o (depth + 1) L d.roots.length id casts) q (shift, casts') q') :
    ∃ k, casts' = casts + k ∧ NodeCast o p0 W S L d (branch id t e join phis .nil) r shift ρ k q q' := by
  obtain ⟨c, hid⟩ := Site.exists_shape (s := .branch d t e) h
  obtain ⟨hcond, hS, ht, he, hphis, hlive, _, hapart, htargets⟩ := huncast.branch
  have hc : c = (p0.condition id).subst ρ := by
    rw [← hcond, condition, hid]
    rfl
  rw [castNode, yields_read, hid, hc] at hy
  simp only [Site.shape, ↓yields_read, yields_bind, yields_liftM, yields_pure, Prod.mk.injEq] at hy
  obtain ⟨⟨scratch, n⟩, q1, hcondition, shift0, q2, hplace, _, q3, hfree, casts1, q4, hthen, casts2,
    q5, helse, done, q6, hjoin, ⟨hshift, hcasts⟩, rfl⟩ := hy
  -- the condition
  obtain ⟨d1, K, hrw1, hcode1, hlength1, ht1, he1, hphis1, hr1, hadvance1, hcast1⟩ :=
    castCondition_branch h huncast.advances hS hcondition hplace hfree
  -- the branches
  obtain ⟨τ, t', e', k, m, hcasts2, hb, hbefore, hadvance2, hthen', helse'⟩ := castLists_branch hlists hrw1.list
    (ht.advance_id hadvance1 ht1) (he.advance_id hadvance1 he1) hapart hht hhe hthen helse
  -- the join
  have hsite : ListAt L ((Site.branch d1 t' e').tree id join phis r) q5 := hb.rewrites.list
  rw [(Site.joinAt hsite).listed] at hjoin
  have hphis2 := (hphis.advance_id hadvance1 hphis1).advance hadvance2 hb.phis fun hW x hx hmem =>
    hmem.elim (htargets hW x hx).1 (htargets hW x hx).2
  obtain ⟨s', new, hs', hpos, hcount, hcast⟩ := castPhis_join hsite hphis2 hlive hlength1.symm hjoin
  obtain ⟨hrw, halike, hcondition', hr, hcodes, hedges, hposition⟩ := hs'
  cases s' with
  | loop => exact halike.elim
  | branch d' t'' e'' =>
    refine ⟨n + k + m + new.length, ?_, τ, d'.append (branch id t'' e'' join phis .nil),
      (Code.ofInsts (K.map (Inst.subst τ))).append ((branch id t'' e'' join phis .nil).code q'), ?_, ?_, ?_, ?_, ?_, ?_⟩
    · rw [hcasts, hcount, hcasts2]
      simp only [Nat.add_assoc]
    · rw [Tree.append_assoc]
      exact (hrw1.subst τ).trans (hb.rewrites.trans hrw)
    · refine (hadvance1.after_id (hadvance2.trans_id hcast.advances)).mono fun x hx => ?_
      simp only [Tree.code, Code.writes_branch, mem_append]
      tauto
    · have hentry := hcodes .entry
      rw [onEdge_eq_nil fun x hx heq => ?_] at hentry
      · have hd' : d'.code q' = d1.code q5 := hentry.trans (Code.append_done _)
        rw [code_append, hd', hbefore, code_subst, hcode1, Code.subst_append, Code.subst_ofInsts,
          ← code_subst, Code.append_assoc]
      · have hmem := hedges x hx
        rw [heq] at hmem
        simp [Site.edges] at hmem
    · exact ((hr1.subst τ).trans hb.after).trans hr
    · have hposition : d1.roots.length ≤ d'.roots.length := hposition
      have hdone : done.pos = d'.roots.length := hpos
      rw [roots_append, length_append]
      show d'.roots.length + 1 = _
      omega
    · have hN := hphis2.advances.locals_size
      have hcondition2 : q'.condition id = (q3.condition id).subst τ := by
        rw [hcondition', hb.condition, condition_subst]
      have hthenCode : t''.code q' = (t'.code q5).append (.ofInsts (onEdge .thenEnd new)) := hcodes .thenEnd
      have helseCode : e''.code q' = (e'.code q5).append (.ofInsts (onEdge .elseEnd new)) := hcodes .elseEnd
      have hcast2 := (hcast1.advance hadvance2 huncast.advances.locals_size le_rfl).advance_id hcast.advances
        huncast.advances.locals_size hadvance2.locals_size
      simp only [Tree.code, hcondition2, hthenCode, helseCode]
      exact hcast.branch hcast2 huncast.advances.locals_size
        (hadvance2.locals_size.trans hcast.advances.locals_size) (hthen'.advance_id hcast.advances hN)
        (helse'.advance_id hcast.advances hN) hedges

/-! ## Loops -/

/-- Nothing that is read for a declared variable was made while a condition was cast. -/
lemma Advances.apart (h : Advances o p0 W T ρ p0 q) (h' : Advances o p0 W T' τ q1 q2) {v : VarRef} {ty : Ty}
    (hv : (p0.scope o.globals).ty? v = some ty) {x : LocalId} (hx : (ρ.andThen τ).apply v = .loc x) :
    ¬ (q.locals.size ≤ x.index ∧ x.index < q1.locals.size) := by
  rintro ⟨hlow, hhigh⟩
  have hbelow := VarRef.below_of_ty? (h.maps v ty hv)
  rw [Subst.apply_andThen] at hx
  cases hz : ρ.apply v with
  | glob g =>
    rw [hz] at hx
    cases hx
  | loc z =>
    rw [hz] at hx hbelow
    rcases h'.moves z with hself | ⟨_, k, hk, hk1, _⟩
    · cases hself.symm.trans hx
      exact Nat.not_lt.mpr hlow hbelow
    · cases hk.symm.trans hx
      exact Nat.not_lt.mpr hk1 hhigh

/-- The condition of a loop has been cast, with its instructions in a block of their own, and then
its body. -/
lemma castBody_loop (hlists : CastsLists o p0 W S depth)
    (h : ListAt L (d.append ((loop id body join phis .nil).append r)) q)
    (huncast : Uncast o p0 W S ρ ((loop id body join phis .nil).append r) q) (hheight : body.height ≤ depth)
    (hcondition : Yields (castCondition o id ((p0.condition id).subst ρ)) q (scratch, k) q1)
    (hlist : Yields (visitEach (castNode o depth (.bodyOf id)) 0 (q1.listNodes (.bodyOf id)) casts) q1 casts' q')
    : ∃ (τ : Subst) (body' : Tree) (ids : List InstId) (K : List Inst) (m : Nat), casts' = casts + m ∧
      Rewrites L (d.append ((loop id body join phis .nil).append r)) (d.append ((loop id body' join phis .nil).append r))
        (q.subst τ) q' ∧ Loose (q.subst τ) (d.append ((loop id body' join phis .nil).append r)) scratch ids K q' ∧
      d.code q' = d.code (q.subst τ) ∧ r.Stays (q.subst τ) q' ∧
      Unmoved o p0 W (ρ.andThen τ) ((phis.filterMap p0.phi?).map (·.target)) phis q' ∧
      Advances o p0 W (· ∈ (body.code p0).writes) τ q q' ∧ q1.locals.size ≤ q'.locals.size ∧
      (∀ v ty, (p0.scope o.globals).ty? v = some ty → ∀ x : LocalId, (ρ.andThen τ).apply v = .loc x →
        ¬ (q.locals.size ≤ x.index ∧ x.index < q1.locals.size)) ∧
      ConditionCast o p0 W S q' (ρ.andThen τ) q.locals.size q1.locals.size k (p0.condition id) K (q'.condition id) ∧
      Recast o p0 W S q' (ρ.andThen τ) m (body.code p0) (body'.code q') := by
  obtain ⟨_, hS, hbody, hphis, _, _, htargets⟩ := huncast.loop
  have hsite : ListAt L ((Site.loop d body).tree id join phis r) q := h
  obtain ⟨ids, K, hcast⟩ : ∃ ids K,
    SiteCondition o p0 W S L id join phis r (.loop d body) ρ k (p0.condition id) scratch ids
      K q q1 := castCondition_rewrites hsite huncast.advances hS hcondition
  have hadvance1 : Advances o p0 W (fun _ => False) .id q q1 := Advances.of_extends hcast.grows
  have hrw1 : Rewrites L (d.append ((loop id body join phis .nil).append r))
      (d.append ((loop id body join phis .nil).append r)) q q1 := hcast.rewrites
  have hbefore : d.code q1 = d.code q := hcast.codes .entry
  -- casting the condition changes no instruction that was there
  obtain ⟨_, hsound, _⟩ := sound_append.mp h.sound
  have hinst : ∀ i ∈ ((loop id body join phis .nil).append r).insts, q1.inst? i = q.inst? i := fun i hi =>
    hcast.grows.insts i (hsound.inst_lt hi)
  simp only [Tree.append, Tree.insts, mem_append] at hinst
  obtain ⟨τ, body', m, hm, hl, hcodes, _, hadvance2, hcasted⟩ := castInner .back hlists hcast.rewrites.list rfl
    (hbody.advance_id hadvance1 ⟨hcast.codes .back, fun i hi => hinst i (.inl (.inr hi))⟩) hheight hlist
  have hd : d.code q' = d.code (q1.subst τ) := hcodes .entry (by decide)
  have hrw := (hrw1.subst τ).trans hl.rewrites
  refine ⟨τ, body', ids, K.map (Inst.subst τ), m, hm, hrw,
    (hcast.loose.subst τ).rewrites (fun _ hn => hrw.owner_lt hn) hl.rewrites, ?_, (hcast.after.subst τ).trans hl.after,
    (hphis.advance_id hadvance1 fun i hi => hinst i (.inl (.inl hi))).advance hadvance2 hl.phis htargets,
    hadvance1.after_id hadvance2, hadvance2.locals_size, fun v ty hv x hx => huncast.advances.apart hadvance2 hv hx, ?_,
    hcasted⟩
  · rw [hd, code_subst, hbefore, ← code_subst]
  · rw [hl.condition, condition_subst]
    exact hcast.casted.advance hadvance2 huncast.advances.locals_size le_rfl

lemma Procedure.countCasts_eq (q : Procedure) (ids : List InstId) :
    q.countCasts ids = (ids.map q.inst?).countP (Option.any fun data => data.inst.isCast) := by
  rw [countCasts, countP_map]
  refine countP_congr fun i _ => ?_
  rw [Function.comp]
  cases q.inst? i with
  | none => rfl
  | some data =>
    obtain ⟨inst, block, predicate⟩ := data
    cases inst <;> rfl

lemma Loose.countCasts {p : Procedure} {K : List Inst} (h : Loose p t scratch ids K q) :
    q.countCasts (q.blockInsts scratch) = K.countP Inst.isCast := by
  rw [h.blockInsts, countCasts_eq, h.data, countP_map]
  rfl

lemma castNode_loop (hlists : CastsLists o p0 W S depth)
    (h : ListAt L (d.append ((loop id body join phis .nil).append r)) q)
    (huncast : Uncast o p0 W S ρ ((loop id body join phis .nil).append r) q) (hheight : body.height ≤ depth)
    (hy : Yields (castNode o (depth + 1) L d.roots.length id casts) q (shift, casts') q') :
    ∃ k, casts' = casts + k ∧ NodeCast o p0 W S L d (loop id body join phis .nil) r shift ρ k q q' := by
  obtain ⟨c, hid⟩ := Site.exists_shape (s := .loop d body) h
  obtain ⟨hcond, _, _, _, hlive, _, _⟩ := huncast.loop
  have hc : c = (p0.condition id).subst ρ := by
    rw [← hcond, condition, hid]
    rfl
  rw [castNode, yields_read, hid, hc] at hy
  simp only [Site.shape, ↓yields_read, yields_bind, yields_liftM, yields_pure, Prod.mk.injEq] at hy
  obtain ⟨⟨scratch, n⟩, q1, hcondition, casts1, q2, hlist, done, q3, hjoin, shift0, q4, hplace, _,
    q5, hfree, ⟨hshift, hcasts⟩, rfl⟩ := hy
  obtain ⟨τ, body', ids, K, m, hcasts1, hrw2, hloose2, hd2, hr2, hphis, hadvance, hsize, hoperands, hcast2, hcasted⟩ :=
    castBody_loop hlists h huncast hheight hcondition hlist
  -- the join
  have hsite : ListAt L ((Site.loop d body').tree id join phis r) q2 := hrw2.list
  rw [(Site.joinAt hsite).listed] at hjoin
  obtain ⟨s', new, hs', hpos, hcount, hjoined⟩ := castPhis_join hsite hphis hlive rfl hjoin
  cases s' with
  | branch => exact hs'.alike.elim
  | loop d3 body3 =>
    have hrw3 : Rewrites L (d.append ((loop id body' join phis .nil).append r))
        (d3.append ((loop id body3 join phis .nil).append r)) q2 q3 := hs'.rewrites
    have hd3 : d3.code q3 = (d.code q2).append (.ofInsts (onEdge .entry new)) := hs'.codes .entry
    have hbody3 : body3.code q3 = (body'.code q2).append (.ofInsts (onEdge .back new)) := hs'.codes .back
    have hposition : d.roots.length ≤ d3.roots.length := hs'.position
    have hdone : done.pos = d3.roots.length := hpos
    -- the instructions of the condition, on both edges
    rw [hdone] at hplace hshift
    have hrw := hrw2.trans hrw3
    have hloose3 := hloose2.rewrites (fun _ hn => hrw.owner_lt hn) hrw3
    obtain ⟨d', body'', hrw', hd', hbody', hcondition', hphis', hr', hlength, hlocals, hadvance'⟩ :=
      placeAround_rewrites p0 W (fun _ => False) hloose3 hrw (hjoined.agrees .entry) hplace hfree
    have hcast3 := hcast2.advance_id hjoined.advances huncast.advances.locals_size hsize
    have hagain : q3.countCasts (q3.blockInsts scratch) = n := hloose3.countCasts.trans hcast3.casts
    refine ⟨n + m + new.length + n, ?_, τ, d'.append (loop id body'' join phis .nil),
      (Code.ofInsts (onEdge .entry new ++ K.map (Inst.subst (q3.operandsOn .entry phis)))).append
      ((loop id body'' join phis .nil).code q'), ?_, ?_, ?_, ?_, ?_, ?_⟩
    · rw [hcasts, hagain, hcount, hcasts1]
      simp only [Nat.add_assoc]
    · rw [Tree.append_assoc]
      exact hrw'
    · refine ((hadvance.trans_id hjoined.advances).trans_id hadvance').mono fun x hx => ?_
      simp only [Tree.code, Code.writes_loop, mem_append]
      exact .inl (.inr hx)
    · rw [code_append, hd', hd3, hd2, Code.ofInsts_append, Code.append_assoc, Code.append_assoc, Code.append_assoc]
    · exact (hr2.trans hs'.after).trans hr'
    · rw [roots_append, length_append, hlength]
      show d3.roots.length + shift0 + 1 = _
      omega
    · have hN := hphis.advances.locals_size
      have hphis4 : phis.filterMap q'.phi? = phis.filterMap q3.phi? :=
        filterMap_congr fun i hi => phi?_congr (hphis' i hi)
      simp only [Tree.code, hcondition', hs'.condition, hbody', hbody3, hphis4, Code.append_assoc, ← Code.ofInsts_append]
      refine (hjoined.loop hcast3 huncast.advances.locals_size hsize (hcasted.advance_id hjoined.advances hN) hs'.edges
        hoperands).advance_id hadvance' (hN.trans hjoined.advances.locals_size)

/-! ## The walk -/

/-- Casting walks through a list, and the list is cast then. The induction is on the depth, and
inside of it on what is left of the list. -/
theorem castsLists (o : Outside) (p0 : Procedure) (W S : Prop) (depth : Nat) : CastsLists o p0 W S depth := by
  induction depth with
  | zero =>
    intro L d t ρ q q' casts casts' h _ hheight hy
    cases t with
    | nil =>
      obtain ⟨rfl, rfl⟩ := yields_pure.mp hy
      exact ⟨0, rfl, ListCast.nil h⟩
    | block | branch | loop =>
      simp only [height] at hheight
      omega
  | succ depth ihdepth =>
    intro L d t ρ q q' casts casts' h huncast hheight hy
    induction t generalizing d ρ q casts with
    | nil =>
      obtain ⟨rfl, rfl⟩ := yields_pure.mp hy
      exact ⟨0, rfl, ListCast.nil h⟩
    | block id is rest ih =>
      simp only [height] at hheight
      obtain ⟨shift, casts1, q1, hnode, hrest⟩ := visitEach_cons hy
      have hparts : Uncast o p0 W S ρ ((block id is .nil).append rest) q := huncast
      obtain ⟨hblock, hafter⟩ := hparts.block
      refine ListCast.cons (x := block id is .nil) hafter huncast.nodup (castNode_block h hblock hnode)
        fun d' ρ' h' hlength huncast' => ?_
      exact ih d' ρ' q1 casts1 h' huncast' (by omega) (hlength ▸ hrest)
    | branch id t e join phis rest _ _ ih =>
      simp only [height] at hheight
      obtain ⟨shift, casts1, q1, hnode, hrest⟩ := visitEach_cons hy
      have hparts : Uncast o p0 W S ρ ((branch id t e join phis .nil).append rest) q := huncast
      obtain ⟨_, _, _, _, _, _, hafter, _⟩ := hparts.branch
      refine ListCast.cons (x := branch id t e join phis .nil) hafter huncast.nodup
        (castNode_branch ihdepth h huncast (by omega) (by omega) hnode) fun d' ρ' h' hlength huncast' => ?_
      exact ih d' ρ' q1 casts1 h' huncast' (by omega) (hlength ▸ hrest)
    | loop id body join phis rest _ ih =>
      simp only [height] at hheight
      obtain ⟨shift, casts1, q1, hnode, hrest⟩ := visitEach_cons hy
      have hparts : Uncast o p0 W S ρ ((loop id body join phis .nil).append rest) q := huncast
      obtain ⟨_, _, _, _, _, hafter, _⟩ := hparts.loop
      refine ListCast.cons (x := loop id body join phis .nil) hafter huncast.nodup
        (castNode_loop ihdepth h huncast (by omega) hnode) fun d' ρ' h' hlength huncast' => ?_
      exact ih d' ρ' q1 casts1 h' huncast' (by omega) (hlength ▸ hrest)

end Walk

end ActorNet
