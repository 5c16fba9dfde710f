import ActorNet.Proofs.Casting.Walk
import ActorNet.Proofs.PhiLowering.Preservation
import ActorNet.Proofs.Predication.Hoist
import ActorNet.Proofs.SingleStore.Ends
import ActorNet.Proofs.WellFormed.Trees

/-!
# Passes keep layouts

A pass that changes a procedure rewrites its containment tree, and what the new code is made of is
what the code named before, or new locals. So the procedure is laid out again (`Laid.ifConvert`,
`Laid.storeOnce`, `Laid.removePhis`), whether or not locals are assigned once.
-/

namespace ActorNet

open List Procedure

variable {spared : LocalId → Prop} {p p' : Procedure} {n : Nat}

/-! ## Predication -/

variable {predicate : Option Expr}

lemma liveIn_under {c : Expr} (hp : ∀ e ∈ predicate, p.LiveIn spared e.uses)
    (hc : p.LiveIn spared c.uses) : p.LiveIn spared (under predicate c).uses := by
  cases predicate with
  | none => exact hc
  | some e => exact liveIn_append.mpr ⟨hp e rfl, hc⟩

variable {φ : Phi}

lemma Phi.liveIn_guarded {c d : Expr} (h : p.LiveIn spared φ.inst.named) (hc : p.LiveIn spared c.uses)
    (hd : p.LiveIn spared d.uses) : p.LiveIn spared (φ.guarded c d).inst.named := by
  obtain ⟨harms, htarget⟩ := liveIn_append.mp h
  refine liveIn_append.mpr ⟨fun id hid => ?_, htarget⟩
  obtain ⟨_, harm, hid⟩ := mem_flatMap.mp hid
  obtain ⟨arm, hold, rfl⟩ := mem_map.mp harm
  have harm : p.LiveIn spared arm.uses := fun id hid => harms id (mem_flatMap.mpr ⟨arm, hold, hid⟩)
  have hvar : .loc id = arm.var → spared id ∨ (p.local? id).isSome := fun heq => harm id (heq ▸ mem_cons_self)
  unfold guardArm at hid
  split at hid
  · exact (mem_cons.mp hid).elim hvar (hc id)
  · exact (mem_cons.mp hid).elim hvar (hd id)
  · exact harm id hid

lemma Code.Live.flatten {c : Code} (hc : c.Live spared p)
    (hp : ∀ e ∈ predicate, p.LiveIn spared e.uses) : ∀ line ∈ c.flatten predicate, p.LiveIn spared line.1.named := by
  induction c generalizing predicate with
  | done => exact forall_mem_nil _
  | inst i own rest ih => exact forall_mem_cons.mpr ⟨hc.1, ih hc.2 hp⟩
  | branch c t e phis rest iht ihe ih =>
    obtain ⟨⟨hc, hphis⟩, ht, he, hrest⟩ := hc
    have hthen := liveIn_under hp hc
    have helse : p.LiveIn spared (under predicate c.negate).uses := liveIn_under hp hc
    simp only [Code.flatten, forall_mem_append, forall_mem_map]
    refine ⟨⟨⟨iht ht ?_, ihe he ?_⟩, fun φ hφ => Phi.liveIn_guarded (hphis φ hφ) hthen helse⟩, ih hrest hp⟩
    · rintro _ ⟨⟩
      exact hthen
    · rintro _ ⟨⟩
      exact helse
  | loop c body phis rest _ ih => exact ih hc.2.2 hp

namespace Procedure.Laid

lemma exists_predicated (h : p.Laid spared) (hy : Yields ifConvert p n p') :
    ∃ t : Tree, (t.code p).Live spared p ∧ Predicated t p p' := by
  obtain ⟨t, ht, hlive⟩ := h.exists_live
  obtain ⟨⟨π, hfits, _⟩, _⟩ := h
  obtain ⟨q, hq, hpred⟩ := ifConvert_yields hfits ht.spans (hasLoop_of_ifConvert hy)
  obtain ⟨_, rfl⟩ := hy.unique hq
  exact ⟨t, hlive, hpred⟩

lemma ifConvert (h : p.Laid spared) (hy : Yields ifConvert p n p') : p'.Laid spared := by
  obtain ⟨t, hlive, hpred⟩ := h.exists_predicated hy
  have hlocals : p.KeepsLive p' := .of_eq (by rw [hpred.rest])
  refine .of_tree hpred.spans (forall_mem_nil _) ?_ ?_
  · rw [hpred.code_eq]
    refine Code.forall_ofLines.mpr fun line hline => LiveIn.mono ?_ hlocals
    exact hlive.flatten (fun _ hnone => by cases hnone) line hline
  · rw [hpred.rest]
    exact h.params

end Procedure.Laid

/-! ## Lowering phis -/


lemma Expr.usesOf_replicate {e : Expr} (h : e.uses = []) (n : Nat) : Expr.usesOf (List.replicate n e) = [] := by
  induction n with
  | zero => rfl
  | succ n ih => rw [replicate_succ, Expr.usesOf, h, ih, List.append_nil]

lemma Expr.uses_zeroOf (ty : Ty) : (Expr.zeroOf ty).uses = [] := by
  induction ty with
  | list n elem ih =>
    cases n with
    | zero => rfl
    | succ n => exact Expr.usesOf_replicate ih (n + 1)
  | _ => rfl

variable {arm : PhiArm}

namespace Procedure

lemma uses_copied (defined : List LocalId) (target : LocalId) (source : VarRef) :
    (p.copied defined target source).uses ⊆ [source] := by
  unfold copied
  split
  · rw [Expr.uses_zeroOf]
    exact nil_subset _
  · exact List.Subset.refl _

lemma mem_of_armFor? {arms : List PhiArm} {edge : Edge} (h : armFor? arms edge = some arm) :
    arm ∈ arms := by
  unfold armFor? at h
  rcases Option.or_eq_some_iff.mp h with h | ⟨_, h⟩
  · exact mem_of_find?_eq_some h
  · exact mem_of_getElem? (filter_eq_some_iff.mp h).1

end Procedure

namespace Code

variable {value : LocalId → VarRef → Expr}

lemma conditions_lower (c : Code) : (c.lower value).conditions = c.conditions := by
  induction c with
  | done => rfl
  | inst i predicate rest ih => rw [lower, conditions_append, conditions_ofLines, ih]; rfl
  | branch condition t e phis rest iht ihe ih =>
    simp only [lower, conditions, conditions_append, copies, conditions_ofLines, iht, ihe, ih, List.append_nil]
  | loop condition body phis rest ihb ih =>
    simp only [lower, conditions, conditions_append, copies, conditions_ofLines, ihb, ih, List.append_nil, nil_append]

/-- A copy names what the phi names. -/
lemma named_copy (hvalue : ∀ target source, (value target source).uses ⊆ [source])
    (harm : arm ∈ φ.arms) : (Inst.assign φ.target (value φ.target arm.var)).named ⊆ φ.inst.named := by
  refine append_subset.mpr ⟨fun v hv => mem_append_left _ ?_, subset_append_right ..⟩
  cases mem_singleton.mp (hvalue _ _ hv)
  exact mem_flatMap.mpr ⟨arm, harm, mem_cons_self⟩

/-- Lowered code names what the code named. -/
lemma liveIn_lower (hvalue : ∀ target source, (value target source).uses ⊆ [source]) {c : Code}
    (h : ∀ i ∈ c.insts, p.LiveIn spared i.named) : ∀ i ∈ (c.lower value).insts, p.LiveIn spared i.named := by
  have hcopies : ∀ edge phis, (∀ φ ∈ phis, p.LiveIn spared φ.inst.named) →
      ∀ i ∈ (copies value edge phis).insts, p.LiveIn spared i.named := by
    intro edge phis hphis
    rw [copies, insts_ofLines, forall_mem_map]
    intro line hline
    obtain ⟨φ, hφ, hline⟩ := mem_filterMap.mp hline
    obtain ⟨arm, harm, rfl⟩ := map_eq_some_iff.mp hline
    exact (hphis φ hφ).subset (named_copy hvalue (mem_of_armFor? harm))
  induction c with
  | done => exact h
  | inst i predicate rest ih =>
    obtain ⟨hi, hrest⟩ := forall_mem_cons.mp h
    rw [lower, insts_append, insts_ofLines, forall_mem_append, forall_mem_map]
    refine ⟨fun line hline => ?_, ih hrest⟩
    cases i with
    | phi target arms =>
      obtain ⟨arm, harm, hline⟩ := mem_filterMap.mp hline
      obtain ⟨guard, _, rfl⟩ := map_eq_some_iff.mp hline
      exact hi.subset (named_copy (φ := ⟨target, arms⟩) hvalue harm)
    | _ =>
      cases mem_singleton.mp hline
      exact hi
  | branch condition t e phis rest iht ihe ih =>
    simp only [insts, forall_mem_append, forall_mem_map] at h
    obtain ⟨⟨⟨ht, he⟩, hphis⟩, hrest⟩ := h
    simp only [lower, insts, insts_append, forall_mem_append, map_nil]
    exact ⟨⟨⟨⟨iht ht, hcopies _ _ hphis⟩, ihe he, hcopies _ _ hphis⟩, forall_mem_nil _⟩, ih hrest⟩
  | loop condition body phis rest ihb ih =>
    simp only [insts, forall_mem_append, forall_mem_map] at h
    obtain ⟨⟨hphis, hb⟩, hrest⟩ := h
    simp only [lower, insts, insts_append, forall_mem_append, map_nil]
    exact ⟨hcopies _ _ hphis, ⟨forall_mem_nil _, ihb hb, hcopies _ _ hphis⟩, ih hrest⟩

end Code

namespace Procedure

variable {id : LocalId}

lemma not_named_of_mentionCount (h : p.mentionCount (.loc id) = 0) {i : InstId} {d : InstData}
    (hd : p.inst? i = some d) : .loc id ∉ d.inst.named := by
  have hnone := countP_eq_zero.mp (Nat.add_eq_zero_iff.mp h).1 d (Arena.mem_values hd)
  intro hmem
  refine hnone ?_
  have hinst : d.inst.mentions (.loc id) = true := by
    rw [Inst.mentions, Bool.or_eq_true]
    rcases mem_append.mp hmem with huse | hdef
    · exact .inr (contains_iff_mem.mpr huse)
    · refine .inl (decide_eq_true ?_)
      obtain ⟨target, htarget, heq⟩ := map_eq_some_iff.mp (Option.mem_toList.mp hdef)
      cases heq
      cases hi : d.inst with
      | store => rw [hi] at htarget; cases htarget
      | _ => rw [hi] at htarget; simp only [Inst.writes?, htarget, map_some]
  rw [InstData.mentions, hinst, Bool.true_or]

lemma not_read_of_mentionCount (h : p.mentionCount (.loc id) = 0) {n : NodeId} {c : Expr}
    (hc : p.condition? n = some c) : .loc id ∉ c.uses := by
  obtain ⟨node, hnode, hcond⟩ := bind_eq_some_iff.mp hc
  have hnone := countP_eq_zero.mp (Nat.add_eq_zero_iff.mp h).2 node (Arena.mem_values hnode)
  intro hmem
  refine hnone ?_
  rw [Node.mentions, hcond]
  exact contains_iff_mem.mpr hmem

lemma local?_dropUnused (ids : List LocalId) (id : LocalId) : (p.dropUnused ids).local? id =
    if id ∈ ids ∧ p.mentionCount (.loc id) = 0 then none else p.local? id := by
  have hmem : id ∈ ids ∧ p.mentionCount (.loc id) = 0 ↔ id ∈ ids.filter fun id => p.mentionCount (.loc id) = 0 := by
    rw [mem_filter, decide_eq_true_eq]
  simp only [hmem]
  unfold dropUnused local?
  show ((ids.filter fun id => p.mentionCount (.loc id) = 0).foldl
    (fun locals id => locals.erase id.index) p.locals).get? id.index = _
  generalize (ids.filter fun id => p.mentionCount (.loc id) = 0) = unused
  generalize p.locals = locals
  induction unused generalizing locals with
  | nil => rfl
  | cons other rest ih =>
    rw [foldl_cons, ih, Arena.get?_erase]
    by_cases heq : id = other
    · simp [heq]
    · have hne : ¬ other.index = id.index := fun h => heq (LocalId.index_inj.mp h.symm)
      simp [heq, hne]

lemma LiveIn.dropUnused {vars : List VarRef} (h : p.LiveIn spared vars) (ids : List LocalId)
    (hvars : ∀ id, p.mentionCount (.loc id) = 0 → .loc id ∉ vars) : (p.dropUnused ids).LiveIn spared vars := by
  intro id hid
  rw [local?_dropUnused, if_neg fun hmem => hvars id hmem.2 hid]
  exact h id hid

end Procedure

variable {π : Layout}

lemma Layout.Fits.dropUnused (h : π.Fits spared p) (ids : List LocalId) : π.Fits spared (p.dropUnused ids) := by
  refine ⟨h.body_nodup, h.body, fun n x hx => ?_⟩
  have hs := h.stands n x hx
  refine ⟨hs.live, hs.insts_nodup, fun i hi => ?_, hs.nodup, hs.placed⟩
  obtain ⟨d, hd, hblock, hphi, hlive⟩ := hs.listed i hi
  exact ⟨d, hd, hblock, hphi, hlive.dropUnused ids fun id hnone => not_named_of_mentionCount hnone hd⟩

namespace Procedure

variable {t t' : Tree} {zeroed : List LocalId} {q : Procedure}

/-- A lowered procedure has a layout if the procedure had one. -/
lemma LoweredTo.exists_fits (h : LoweredTo t t' zeroed p q p') (ht : t.Spans p)
    (hfits : π.Fits spared p) (hparams : ∀ id ∈ p.params, (p.local? id).isSome) :
    (∃ π' : Layout, π'.Fits spared p') ∧ ∀ id ∈ p'.params, (p'.local? id).isSome := by
  have hlocal : ∀ id, q.local? id = p.local? id := fun id => by rw [local?, local?, h.keeps.locals]
  obtain ⟨π', hfits'⟩ := hfits.rewritten ht h.rewrites fun i hi => by
    rw [h.code] at hi
    exact (Code.liveIn_lower (uses_copied p.definedLocals) (hfits.live_code ht) i hi).mono h.rewrites.edits.locals
  rw [h.dropped]
  refine ⟨⟨π', hfits'.dropUnused zeroed⟩, fun id hid => ?_⟩
  have hid : id ∈ p.params := h.keeps.params ▸ hid
  rw [local?_dropUnused, if_neg fun hmem => h.noParam id hmem.1 hid, hlocal]
  exact hparams id hid

lemma Laid.removePhis (h : p.Laid spared) (hy : Yields removePhis p n p') : p'.Laid spared := by
  obtain ⟨⟨π, hfits, t, ht, htests⟩, hparams⟩ := h
  obtain ⟨_, t', zeroed, q, hlow⟩ := loweredTo_of_removePhis hy ht
  obtain ⟨⟨π', hfits'⟩, hparams'⟩ := hlow.exists_fits ht hfits hparams
  refine ⟨⟨π', hfits', t', hlow.spans, fun e he => ?_⟩, hparams'⟩
  have hcode : t'.code p' = t'.code q := by
    rw [hlow.dropped]
    exact Tree.code_congr (fun n _ => rfl) fun i _ => rfl
  rw [hcode] at he
  have hlive : q.LiveIn spared e.uses := by
    rw [hlow.code, Code.conditions_lower] at he
    exact (htests e he).mono hlow.rewrites.edits.locals
  rw [Tree.conditions_code hlow.rewrites.list.sound.fits] at he
  obtain ⟨n, _, hcond⟩ := mem_filterMap.mp he
  rw [hlow.dropped]
  exact hlive.dropUnused zeroed fun id hnone => not_read_of_mentionCount hnone hcond

end Procedure

/-! ## Storing once -/

def Bindings.Live (spared : LocalId → Prop) (p : Procedure) (b : Bindings) : Prop :=
  ∀ x ∈ b, p.LiveIn spared [.loc x.2]

section Redirect

variable {locals bound : Bindings} {i : Inst} {c : Code}

lemma Inst.live_redirected (hlocals : locals.Live spared p) (hbound : bound.Live spared p)
    (hi : p.LiveIn spared i.named) : p.LiveIn spared (i.redirected locals bound).1.named ∧
    (i.redirected locals bound).2.Live spared p := by
  rcases i.redirected_cases locals bound with ⟨g, value, target, rfl, ht, heq⟩ | ⟨target, g, source, rfl, hs, heq⟩ |
    ⟨target, g, rfl, _, heq⟩ | ⟨_, _, heq⟩
  · have htarget := hlocals _ (mem_of_lookup ht)
    rw [heq]
    exact ⟨liveIn_append.mpr ⟨(liveIn_append.mp hi).1, htarget⟩, forall_mem_cons.mpr ⟨htarget, hbound⟩⟩
  · rw [heq]
    exact ⟨liveIn_append.mpr ⟨hbound _ (mem_of_lookup hs), (liveIn_append.mp hi).2⟩, hbound⟩
  · rw [heq]
    exact ⟨hi, forall_mem_cons.mpr ⟨(liveIn_append.mp hi).2, hbound⟩⟩
  · rw [heq]
    exact ⟨hi, hbound⟩

lemma Code.Live.redirect (hlocals : locals.Live spared p) (hbound : bound.Live spared p)
    (hc : c.Live spared p) : (c.redirect locals bound).Live spared p := by
  induction c generalizing bound with
  | done => exact hc
  | inst i predicate rest ih =>
    obtain ⟨hi, hbound'⟩ := Inst.live_redirected hlocals hbound hc.1
    exact ⟨hi, ih hbound' hc.2⟩
  | branch condition t e phis rest iht ihe ih =>
    obtain ⟨hc, ht, he, hrest⟩ := hc
    exact ⟨hc, iht hbound ht, ihe hbound he, ih hbound hrest⟩
  | loop condition body phis rest ihb ih =>
    obtain ⟨hc, hb, hrest⟩ := hc
    exact ⟨hc, ihb hbound hb, ih hbound hrest⟩

end Redirect

lemma Procedure.Laid.storeOnce {globals : List Variable} (h : p.Laid spared)
    (hy : Yields (storeOnce globals) p n p') : p'.Laid spared := by
  obtain ⟨t, ht, hlive⟩ := h.exists_live
  obtain ⟨_, q, hq, ⟨rfl, _⟩ | ⟨t', locals, seeded, start, tail, _, _, _, hrw, hlocals, _, hstored, _⟩⟩ :=
    storeOnce_yields globals ht.spans
  · obtain ⟨_, rfl⟩ := hy.unique hq
    exact h
  · obtain ⟨_, rfl⟩ := hy.unique hq
    have hown : locals.Live spared p' := by
      intro x hx id hid
      cases mem_singleton.mp hid
      exact .inr (hlocals x hx)
    obtain ⟨_, hmade⟩ := hstored.made
    have hseeded : seeded.Live spared p' := fun x hx => hown x (hmade.sublist.subset hx)
    have hcode := hlive.mono hrw.edits.locals
    rw [hstored.split] at hcode
    obtain ⟨hstart, htail⟩ := Code.forall_append.mp hcode
    refine h.rewritten ht hrw ?_
    rw [hstored.code]
    refine Code.forall_append.mpr ⟨Code.forall_ofLines.mpr ?_,
      Code.forall_append.mpr ⟨Code.Live.redirect hown hseeded hstart,
      Code.forall_append.mpr ⟨Code.forall_ofLines.mpr ?_, htail⟩⟩⟩
    · refine forall_mem_map.mpr fun x hx => liveIn_append.mpr ⟨fun id hid => ?_, hseeded x hx⟩
      cases mem_singleton.mp hid
    · exact forall_mem_map.mpr hown

/-! ## Casting -/

/-- A substitution changes no list and no join. -/
lemma Layout.Fits.subst {spared' : LocalId → Prop} (h : π.Fits spared p) (τ : Subst)
    (himp : ∀ i : Inst, p.LiveIn spared i.named → p.LiveIn spared' (i.subst τ).named) : π.Fits spared' (p.subst τ) := by
  refine ⟨h.body_nodup, h.body, fun n x hx => ?_⟩
  have hs := h.stands n x hx
  obtain ⟨node, hnode⟩ := hs.live
  have hinside : (p.subst τ).inside n = p.inside n := by
    rw [inside, inside, node?_subst, hnode]
    cases node <;> rfl
  refine ⟨⟨node.subst τ, by rw [node?_subst, hnode]; rfl⟩, blockInsts_subst τ p n ▸ hs.insts_nodup,
    fun i hi => ?_, hinside ▸ hs.nodup, hinside ▸ hs.placed⟩
  rw [blockInsts_subst] at hi
  obtain ⟨d, hd, hblock, hphi, hlive⟩ := hs.listed i hi
  refine ⟨d.subst τ, by rw [inst?_subst, hd]; rfl, hblock, fun hx => ?_, himp _ hlive⟩
  have hphi := hphi hx
  cases hinst : d.inst with
  | phi => simp only [InstData.subst, hinst]; rfl
  | assign | load | store | call | ret | cast => cases hinst ▸ hphi

lemma Procedure.Laid.insertCasts
    {o : Outside} (h : p.Laid spared) (hy : Yields (insertCasts o) p n p') : p'.Laid spared := by
  obtain ⟨t, ht, hlive⟩ := h.exists_live
  obtain ⟨⟨π, hfits, _⟩, hparams⟩ := h
  have htree.roots : p.body = t.roots := ht.nodes
  rw [Procedure.insertCasts, yields_read, htree.roots] at hy
  have hstays : t.Stays (p.subst .id) p := by
    rw [subst_id]
    exact Tree.Stays.refl t p
  obtain ⟨_, _, τ, t', c', hrw, hadvance, hcode, hcast⟩ :=
    castsLists o p False False (p.depth + 1) .body .nil t .id p p' 0 n ht
    ⟨⟨Advances.refl p, hstays.insts, False.elim, False.elim⟩, hstays.code, False.elim, id⟩
    (Nat.le_succ_of_le ht.sound.height_le) hy
  have hlive' : (t'.code p').Live spared p' := by
    rw [hcode]
    exact hcast.1 spared hlive
  obtain ⟨hinsts, hconds⟩ := Code.live_iff.mp hlive'
  have hfits : π.Fits (fun id => spared id ∨ (p'.local? id).isSome) (p.subst τ) :=
    hfits.subst τ fun i hi id hid => .inl (hadvance.liveIn_inst hi id hid)
  obtain ⟨π', hfits'⟩ := hfits.rewritten (ht.subst τ).spans hrw fun i hi id hid => .inl (hinsts i hi id hid)
  refine ⟨⟨π', hfits'.imp fun vars hvars id hid => (hvars id hid).elim (fun h => h) .inr, t',
    hrw.list.spans, hconds⟩, fun id hid => hadvance.live id (hparams id ?_)⟩
  rw [hrw.edits.params] at hid
  exact hid

end ActorNet
