import ActorNet.Proofs.SingleStore.WriteBack
import ActorNet.Proofs.Structure.Sites

/-!
# Redirecting a procedure redirects its code

The stores that a procedure lists are those of its code (`wholeStores_eq`), and they determine the
locals that are made (`makeLocals_yields`). Redirecting a list of nodes always succeeds and changes
nothing but loads and stores of whole state variables in their places; afterwards the code of the
list is the redirected code (`redirectEach_yields`).
-/

namespace ActorNet

open List Code Tree

variable {bound1 bound2 : Bindings} {c : Expr} {g : GlobalId} {d : InstData} {I ids : List InstId}
  {depth m n : Nat} {id join : NodeId} {t : Tree}

namespace Procedure

variable {p p' p'' : Procedure} {locals bound : Bindings} {kept : List InstId}

/-! ## The stores of a procedure -/

lemma stores_ofLines (p : Procedure) (nested : Bool) (ids : List InstId) :
    (ofLines (ids.filterMap p.line?)).stores nested = (ids.filterMap p.inst?).filterMap fun d =>
      d.inst.storesWhole?.map fun g => (g, nested || d.predicate.isSome) := by
  induction ids with
  | nil => rfl
  | cons i rest ih =>
    cases hd : p.inst? i with
    | none =>
      have hline : p.line? i = none := by rw [line?, hd, map_none]
      rw [filterMap_cons_none hline, filterMap_cons_none hd, ih]
    | some d =>
      have hline : p.line? i = some (d.inst, d.predicate) := by rw [line?, hd, map_some]
      rw [filterMap_cons_some hline, filterMap_cons_some hd, ofLines, stores, ih,
        filterMap_cons]
      cases d.inst.storesWhole? <;> rfl

lemma wholeStoresUnder_roots (nested : Bool) (hfits : t.Fits p) (hheight : t.height ≤ depth) :
    t.roots.flatMap (p.wholeStoresUnder depth nested) = (t.code p).stores nested := by
  induction t generalizing depth nested with
  | nil => rfl
  | block id is rest ih =>
    simp only [height] at hheight
    obtain _ | depth := depth
    · omega
    rw [roots, flatMap_cons, ih nested hfits.2 (by omega), wholeStoresUnder, hfits.1, code,
      stores_append, stores_ofLines]
  | branch id t e join phis rest iht ihe ih =>
    simp only [height] at hheight
    obtain _ | depth := depth
    · omega
    obtain ⟨⟨c, hid⟩, ht, he, _, hrest⟩ := hfits
    rw [roots, flatMap_cons, ih nested hrest (by omega), wholeStoresUnder, hid, code, stores]
    simp only [flatMap_append]
    rw [iht true ht (by omega), ihe true he (by omega)]
  | loop id body join phis rest ihb ih =>
    simp only [height] at hheight
    obtain _ | depth := depth
    · omega
    obtain ⟨⟨c, hid⟩, hb, _, hrest⟩ := hfits
    rw [roots, flatMap_cons, ih nested hrest (by omega), wholeStoresUnder, hid, code, stores]
    simp only
    rw [ihb true hb (by omega)]

lemma wholeStores_eq (ht : t.Spans p) : p.wholeStores = (t.code p).stores false := by
  rw [wholeStores, ← ht.roots]
  exact wholeStoresUnder_roots false ht.sound.fits (Nat.le_succ_of_le ht.sound.height_le)

lemma storedGlobals_nodup (p : Procedure) : (p.storedGlobals.map (·.1)).Nodup := by
  rw [storedGlobals, List.map_map]
  exact (map_id _).symm ▸ nodup_distinct _

lemma mem_storedGlobals {flag : Bool} : (g, flag) ∈ p.storedGlobals ↔
    g ∈ p.wholeStores.map (·.1) ∧ flag = p.wholeStores.any fun s => s.1 = g && s.2 := by
  rw [storedGlobals, mem_map]
  constructor
  · intro ⟨g', hg', heq⟩
    cases heq
    exact ⟨mem_distinct.mp hg', rfl⟩
  · intro ⟨hg, hflag⟩
    exact ⟨g, mem_distinct.mpr hg, by rw [hflag]⟩

lemma mem_storedGlobals_of_conditional (h : (g, true) ∈ p.wholeStores) : (g, true) ∈ p.storedGlobals := by
  refine mem_storedGlobals.mpr ⟨mem_map_of_mem h, (any_eq_true.mpr ⟨_, h, ?_⟩).symm⟩
  simp

lemma mem_wholeStores_of_unconditional (h : (g, false) ∈ p.storedGlobals) : (g, false) ∈ p.wholeStores := by
  obtain ⟨hg, hflag⟩ := mem_storedGlobals.mp h
  obtain ⟨⟨g', flag⟩, hmem, rfl⟩ := mem_map.mp hg
  cases flag with
  | false => exact hmem
  | true =>
    have hany := any_eq_false.mp hflag.symm _ hmem
    simp at hany

/-! ## Locals for the stores -/

/-- Locals made for state variables. -/
structure Made (globals : List Variable) (stored : List (GlobalId × Bool))
    (locals seeded : Bindings) (p p' : Procedure) : Prop where
  keys : locals.map (·.1) = (stored.map (·.1)).filter fun g => g.index < globals.length
  new : ∀ b ∈ locals, p.locals.size ≤ b.2.index
  nodup : (locals.map (·.2)).Nodup
  sublist : seeded.Sublist locals
  flags : ∀ b ∈ locals, ∃ flag, (b.1, flag) ∈ stored ∧ (flag = true → b ∈ seeded)
  live : ∀ b ∈ locals, (p'.local? b.2).isSome
  keeps : p.Extends p'
  rest : p' = { p with locals := p'.locals, nextTemp := p'.nextTemp }

lemma makeLocals_yields (globals : List Variable) (stored : List (GlobalId × Bool))
    (p : Procedure) : ∃ locals seeded p', Yields (makeLocals globals stored) p (locals, seeded) p' ∧
    Made globals stored locals seeded p p' := by
  induction stored generalizing p with
  | nil =>
    exact ⟨[], [], p, yields_pure.mpr ⟨rfl, rfl⟩, rfl, forall_mem_nil _, nodup_nil,
      List.Sublist.refl [], forall_mem_nil _, forall_mem_nil _, .refl p, rfl⟩
  | cons x rest ih =>
    obtain ⟨g, conditional⟩ := x
    cases hv : globals[g.index]? with
    | none =>
      obtain ⟨locals, seeded, p', hyield, hmade⟩ := ih p
      have hlt : ¬ g.index < globals.length := Nat.not_lt.mpr (List.getElem?_eq_none_iff.mp hv)
      refine ⟨locals, seeded, p', ?_, ?_, hmade.new, hmade.nodup, hmade.sublist, ?_, hmade.live,
        hmade.keeps, hmade.rest⟩
      · rw [makeLocals, hv]
        exact hyield
      · rw [hmade.keys, map_cons, filter_cons_of_neg (by simpa using hlt)]
      · intro b hb
        obtain ⟨flag, hflag, hseeded⟩ := hmade.flags b hb
        exact ⟨flag, mem_cons_of_mem _ hflag, hseeded⟩
    | some v =>
      obtain ⟨id, q, htemp⟩ : ∃ id q, Yields (newTemp v.ty ("local_" ++ v.name)) p id q :=
        ⟨_, _, yields_newTemp.mpr ⟨rfl, rfl⟩⟩
      obtain ⟨-, hq⟩ := yields_newTemp.mp htemp
      obtain ⟨hext, rfl, hsize, _, hlocal, _⟩ := Extends.of_newTemp htemp
      obtain ⟨locals, seeded, p', hyield, hmade⟩ := ih q
      have hlt : g.index < globals.length := by
        by_contra hge
        rw [getElem?_eq_none (Nat.not_lt.mp hge)] at hv
        cases hv
      have hnew : ∀ b ∈ locals, p.locals.size < b.2.index := by
        intro b hb
        have := hmade.new b hb
        omega
      refine ⟨(g, ⟨p.locals.size⟩) :: locals,
        if conditional then (g, ⟨p.locals.size⟩) :: seeded else seeded, p', ?_, ?_, ?_, ?_, ?_, ?_, ?_, ?_, ?_⟩
      · rw [makeLocals, hv]
        simp only [yields_bind, yields_pure]
        exact ⟨_, q, htemp, (locals, seeded), p', hyield, rfl, rfl⟩
      · rw [map_cons, hmade.keys, map_cons, filter_cons_of_pos (by simpa using hlt)]
      · intro b hb
        rcases mem_cons.mp hb with rfl | hb
        · exact Nat.le_refl _
        · exact Nat.le_of_lt (hnew b hb)
      · refine nodup_cons.mpr ⟨fun hmem => ?_, hmade.nodup⟩
        obtain ⟨b, hb, heq⟩ := mem_map.mp hmem
        have := hnew b hb
        rw [heq] at this
        exact Nat.lt_irrefl _ this
      · cases conditional with
        | true => exact hmade.sublist.cons_cons _
        | false => exact hmade.sublist.cons _
      · intro b hb
        rcases mem_cons.mp hb with rfl | hb
        · refine ⟨conditional, mem_cons_self, fun hflag => ?_⟩
          rw [hflag, if_pos rfl]
          exact mem_cons_self
        · obtain ⟨flag, hflag, hseeded⟩ := hmade.flags b hb
          refine ⟨flag, mem_cons_of_mem _ hflag, fun h => ?_⟩
          cases conditional with
          | true => exact mem_cons_of_mem _ (hseeded h)
          | false => exact hseeded h
      · exact forall_mem_cons.mpr ⟨hmade.keeps.keepsLive _ (by rw [hlocal]; rfl), hmade.live⟩
      · exact hext.trans hmade.keeps
      · rw [hmade.rest, hq]

/-! ## Redirection -/

/-- An instruction stays as it is, or it loads or stores a whole state variable and becomes an
assignment. -/
def Redirects (d : InstData) (d' : Option InstData) : Prop :=
  d' = some d ∨ d.inst.isWhole = true ∧ ∃ target value, d' = some { d with inst := .assign target value }

/-- What redirection may change: instructions in their places. -/
structure Touched (I : List InstId) (p p' : Procedure) : Prop where
  insts : ∀ i, i ∉ I → p'.inst? i = p.inst? i
  changed : ∀ i d, p.inst? i = some d → Redirects d (p'.inst? i)
  size : p'.insts.size = p.insts.size
  rest : p' = { p with insts := p'.insts }

lemma Redirects.trans {d' d'' : Option InstData} (h : Redirects d d')
    (h' : ∀ e, d' = some e → Redirects e d'') : Redirects d d'' := by
  rcases h with rfl | ⟨hwhole, target, value, rfl⟩
  · exact h' d rfl
  · rcases h' _ rfl with rfl | ⟨hnot, _⟩
    · exact .inr ⟨hwhole, target, value, rfl⟩
    · cases hnot

lemma Redirects.same {d' : Option InstData} (h : Redirects d d') (hd : d.inst.isWhole = false) : d' = some d :=
  h.resolve_right fun hwhole => Bool.noConfusion (hd.symm.trans hwhole.1)

lemma Redirects.block {d' : Option InstData} (h : Redirects d d') : ∃ e, d' = some e ∧ e.block = d.block := by
  rcases h with rfl | ⟨_, target, value, rfl⟩
  · exact ⟨d, rfl, rfl⟩
  · exact ⟨_, rfl, rfl⟩

namespace Touched

variable {J : List InstId}

lemma refl (I : List InstId) (p : Procedure) : Touched I p p :=
  ⟨fun _ _ => rfl, fun _ _ hd => .inl hd, rfl, rfl⟩

section

variable (h : Touched I p p')
include h

lemma trans (h' : Touched J p' p'') : Touched (I ++ J) p p'' where
  insts := by
    intro i hi
    rw [mem_append, not_or] at hi
    exact (h'.insts i hi.2).trans (h.insts i hi.1)
  changed := fun i d hd => (h.changed i d hd).trans fun e he => h'.changed i e he
  size := h'.size.trans h.size
  rest := by rw [h'.rest, h.rest]

lemma mono (hsub : ∀ i ∈ I, i ∈ J) : Touched J p p' :=
  { h with insts := fun i hi => h.insts i fun hmem => hi (hsub i hmem) }

lemma node? (n : NodeId) : p'.node? n = p.node? n := by
  rw [h.rest]
  rfl

lemma phi? {i : InstId} {φ : Phi} (hφ : p.phi? i = some φ) : p'.phi? i = some φ := by
  obtain ⟨b, predicate, hd⟩ := phi?_eq_some.mp hφ
  exact phi?_eq_some.mpr ⟨b, predicate, (h.changed i _ hd).same rfl⟩

lemma sound (ht : t.Sound p) : t.Sound p' where
  fits := fits_congr (fun n _ => h.node? n) ht.fits
  live := fun n hn => by rw [h.node? n]; exact ht.live n hn
  recorded := by
    intro b hb i hi
    obtain ⟨d, hd, hblock⟩ := ht.recorded b hb i hi
    obtain ⟨e, he, hsame⟩ := (h.changed i d hd).block
    exact ⟨e, he, hsame.trans hblock⟩
  phis := by
    intro b hb i hi
    obtain ⟨φ, hφ⟩ := ht.phis b hb i hi
    exact ⟨φ, h.phi? hφ⟩
  nodes_nodup := ht.nodes_nodup
  insts_nodup := ht.insts_nodup

lemma code_eq (hI : ∀ i ∈ t.insts, i ∉ I) : t.code p' = t.code p :=
  code_congr (fun n _ => h.node? n) fun i hi => h.insts i (hI i hi)

end

lemma replace {id : InstId} {target : LocalId} {value : Expr} (hd : p.inst? id = some d) (hwhole : d.inst.isWhole = true) :
    Touched [id] p { p with insts := p.insts.modify id.index fun d => { d with inst := .assign target value } } where
  insts := by
    intro i hi
    rw [inst?_modify, if_neg fun heq => hi (mem_singleton.mpr heq)]
  changed := by
    intro i e he
    rw [inst?_modify]
    by_cases heq : i = id
    · rw [heq, hd] at he
      cases he
      rw [if_pos heq, heq, hd]
      exact .inr ⟨hwhole, target, value, rfl⟩
    · rw [if_neg heq]
      exact .inl he
  size := Arena.size_modify _ _ _
  rest := rfl

lemma rewrites (h : Touched t.insts p p') (ht : ListAt .body t p) : Rewrites .body t t p p' where
  nodes := fun _ hn => .inl hn
  insts := fun _ hi => .inl hi
  joins := fun b hb => .inr ⟨mem_map_of_mem hb, h.node? b.1⟩
  list := ⟨h.sound ht.sound, by rw [← ht.nodes, h.rest]; rfl, ⟨none, rfl⟩, nofun⟩
  around := rfl
  body := .inl rfl
  edits := ⟨fun n _ _ => h.node? n, fun i hi _ => h.insts i hi, Nat.le_of_eq (by rw [h.rest]), Nat.le_of_eq h.size.symm,
    by rw [h.rest], by rw [h.rest], .of_eq (by rw [h.rest]), by rw [h.rest]; exact Nat.le_refl _⟩

end Touched

lemma redirectInsts_cons (locals bound : Bindings) {id : InstId} (rest : List InstId) (hkept : id ∉ kept)
    (hd : p.inst? id = some d) : ∃ p1, Touched [id] p p1 ∧
      p1.inst? id = some { d with inst := (d.inst.redirected locals bound).1 } ∧
      ∀ bound' n p', Yields (redirectInsts locals kept (d.inst.redirected locals bound).2 rest) p1 (bound', n) p' →
        Yields (redirectInsts locals kept bound (id :: rest)) p
          (bound', n + if d.inst.isRedirected locals = true then 1 else 0) p' := by
  have hcontains : ¬ kept.contains id = true := by simpa using hkept
  obtain ⟨inst, block, predicate⟩ := d
  -- the instruction is replaced, or it stays
  have hreplace : ∀ j : Inst, ∃ old, Yields (replaceInst id j) p old
      { p with insts := p.insts.modify id.index fun d => { d with inst := j } } :=
    fun j => ⟨_, yields_replaceInst.mpr ⟨_, hd, rfl, rfl⟩⟩
  have hnew : ∀ j : Inst, { p with insts := p.insts.modify id.index fun d => { d with inst := j } }.inst? id =
      some ⟨j, block, predicate⟩ := by
    intro j
    rw [inst?_modify, if_pos rfl, hd]
    rfl
  rcases Inst.redirected_cases locals bound inst with ⟨g, value, t, rfl, ht, heq⟩ | ⟨t, g, source, rfl, hg, heq⟩ |
    ⟨t, g, rfl, hg, heq⟩ | ⟨hload, hnone, heq⟩
  · obtain ⟨old, hold⟩ := hreplace (.assign t value)
    rw [heq]
    refine ⟨_, Touched.replace hd rfl, hnew _, fun bound' n p' hrest => ?_⟩
    rw [redirectInsts, if_neg hcontains, yields_get_bind, if_pos (by rw [Inst.isRedirected_store, ht]; rfl)]
    simp only [hd, ht, yields_bind, yields_pure]
    exact ⟨old, _, hold, (bound', n), p', hrest, rfl, rfl⟩
  · obtain ⟨old, hold⟩ := hreplace (.assign t (.var (.loc source)))
    rw [heq]
    refine ⟨_, Touched.replace hd rfl, hnew _, fun bound' n p' hrest => ?_⟩
    rw [redirectInsts, if_neg hcontains, yields_get_bind]
    simp only [hd, hg, yields_bind]
    exact ⟨old, _, hold, hrest⟩
  · rw [heq]
    refine ⟨p, Touched.refl _ p, hd, fun bound' n p' hrest => ?_⟩
    rw [redirectInsts, if_neg hcontains, yields_get_bind]
    simp only [hd, hg]
    exact hrest
  · rw [heq]
    refine ⟨p, Touched.refl _ p, hd, fun bound' n p' hrest => ?_⟩
    have hnot : ¬ inst.isRedirected locals = true := by
      rw [Inst.isRedirected, Option.any_eq_true]
      rintro ⟨g, hg, hsome⟩
      rw [hnone g hg] at hsome
      cases hsome
    rw [redirectInsts, if_neg hcontains, yields_get_bind, hd, if_neg hnot]
    split
    · rename_i hmatch
      cases hmatch
      rw [hnone _ rfl]
      exact hrest
    · rename_i hmatch
      cases hmatch
      cases hload
    · exact hrest

/-- Redirecting the instructions of a block. -/
lemma redirectInsts_yields (locals bound : Bindings) (hkept : ∀ i ∈ ids, i ∉ kept)
    (hlive : ∀ i ∈ ids, ∃ d, p.inst? i = some d) (hnodup : ids.Nodup) :
    ∃ p', Yields (redirectInsts locals kept bound ids) p ((ofLines (ids.filterMap p.line?)).bindings locals bound,
        (ids.filterMap p.line?).countP (·.1.isRedirected locals)) p' ∧ Touched ids p p' ∧
      ofLines (ids.filterMap p'.line?) = (ofLines (ids.filterMap p.line?)).redirect locals bound := by
  induction ids generalizing p bound with
  | nil => exact ⟨p, yields_pure.mpr ⟨rfl, rfl⟩, Touched.refl _ p, rfl⟩
  | cons id rest ih =>
    obtain ⟨hid, hnodup⟩ := nodup_cons.mp hnodup
    obtain ⟨d, hd⟩ := hlive id mem_cons_self
    obtain ⟨p1, htouched, hnew, hcons⟩ := redirectInsts_cons locals bound rest (hkept id mem_cons_self) hd
    have hsame : ∀ i ∈ rest, p1.inst? i = p.inst? i := by
      intro i hi
      refine htouched.insts i fun hmem => hid ?_
      rw [mem_singleton] at hmem
      exact hmem ▸ hi
    have hlines : rest.filterMap p1.line? = rest.filterMap p.line? :=
      filterMap_congr fun i hi => line?_congr (hsame i hi)
    obtain ⟨p', hyield, htouched', hcode⟩ := ih (d.inst.redirected locals bound).2
      (fun i hi => hkept i (mem_cons_of_mem id hi))
      (fun i hi => by rw [hsame i hi]; exact hlive i (mem_cons_of_mem id hi)) hnodup
    have hyield' := hcons _ _ p' hyield
    have hline : p.line? id = some (d.inst, d.predicate) := by rw [line?, hd, map_some]
    have hline' : p'.line? id = some ((d.inst.redirected locals bound).1, d.predicate) := by
      rw [line?, htouched'.insts id hid, hnew, map_some]
    rw [hlines] at hyield' hcode
    refine ⟨p', ?_, htouched.trans htouched', ?_⟩
    · rw [filterMap_cons_some hline, countP_cons]
      exact hyield'
    · rw [filterMap_cons_some hline, filterMap_cons_some hline', ofLines, hcode]
      rfl

lemma redirectEach_cons {redirect : Bindings → NodeId → Edit (Bindings × Nat)} {rest : List NodeId}
    (hfirst : Yields (redirect bound id) p (bound1, m) p')
    (hrest : Yields (redirectEach redirect bound1 rest) p' (bound2, n) p'') :
    Yields (redirectEach redirect bound (id :: rest)) p (bound2, m + n) p'' := by
  rw [redirectEach]
  simp only [yields_bind, yields_pure]
  exact ⟨(bound1, m), p', hfirst, (bound2, n), p'', hrest, rfl, rfl⟩

lemma redirectNode_block {is : List InstId} {bound' : Bindings} (hid : p.node? id = some (.block is))
    (h : Yields (redirectInsts locals kept bound is) p (bound', n) p') :
    Yields (redirectNode locals kept (depth + 1) bound id) p (bound', n) p' := by
  simp only [redirectNode, yields_get_bind, hid]
  exact h

lemma redirectNode_branch {ts es : List NodeId} (hid : p.node? id = some (.branch c ts es join))
    (hthen : Yields (redirectEach (redirectNode locals kept depth) bound ts) p (bound1, m) p')
    (helse : Yields (redirectEach (redirectNode locals kept depth) bound es) p' (bound2, n) p'') :
    Yields (redirectNode locals kept (depth + 1) bound id) p (bound, m + n) p'' := by
  simp only [redirectNode, yields_get_bind]
  simp only [hid, yields_bind, yields_pure]
  exact ⟨(bound1, m), p', hthen, (bound2, n), p'', helse, rfl, rfl⟩

lemma redirectNode_loop {bs : List NodeId} (hid : p.node? id = some (.loop c bs join))
    (hbody : Yields (redirectEach (redirectNode locals kept depth) bound bs) p (bound1, n) p') :
    Yields (redirectNode locals kept (depth + 1) bound id) p (bound, n) p' := by
  simp only [redirectNode, yields_get_bind]
  simp only [hid, yields_bind, yields_pure]
  exact ⟨(bound1, n), p', hbody, rfl, rfl⟩

lemma filterMap_phi?_of_touched (h : Touched I p p') (hphis : ∀ i ∈ ids, ∃ φ, p.phi? i = some φ) :
    ids.filterMap p'.phi? = ids.filterMap p.phi? := by
  refine filterMap_congr fun i hi => ?_
  obtain ⟨φ, hφ⟩ := hphis i hi
  rw [h.phi? hφ, hφ]

lemma condition_of_touched (h : Touched I p p') (id : NodeId) : p'.condition id = p.condition id := by
  rw [condition, condition, h.node? id]

/-- Redirecting a list of nodes. The induction is on the tree; what is bound in the lists of a
conditional or a loop is dropped by the pass and by `Code.redirect` alike. -/
theorem redirectEach_yields (locals bound : Bindings) (hsound : t.Sound p) (hkept : ∀ i ∈ t.insts, i ∉ kept)
    (hheight : t.height ≤ depth) : ∃ p', Yields (redirectEach (redirectNode locals kept depth) bound t.roots) p
        ((t.code p).bindings locals bound, (t.code p).redirectCount locals) p' ∧
      Touched t.insts p p' ∧ t.code p' = (t.code p).redirect locals bound := by
  induction t generalizing p depth bound with
  | nil => exact ⟨p, yields_pure.mpr ⟨rfl, rfl⟩, Touched.refl _ p, rfl⟩
  | block id is rest ih =>
    simp only [height] at hheight
    obtain _ | depth := depth
    · omega
    obtain ⟨hblock, hrest, _, hdisj⟩ := sound_append.mp (show ((block id is nil).append rest).Sound p from hsound)
    obtain ⟨hid, hnodup, hrec⟩ := sound_block.mp hblock
    simp only [Tree.insts, List.append_nil] at hkept hdisj
    obtain ⟨p1, hyield1, htouched1, hcode1⟩ := redirectInsts_yields locals bound
      (fun i hi => hkept i (mem_append_left _ hi)) (fun i hi => (hrec i hi).imp fun _ h => h.1) hnodup
    obtain ⟨p2, hyield2, htouched2, hcode2⟩ := ih ((ofLines (is.filterMap p.line?)).bindings locals bound)
      (htouched1.sound hrest) (fun i hi => hkept i (mem_append_right _ hi)) (show rest.height ≤ depth + 1 by omega)
    have hrestcode : rest.code p1 = rest.code p := htouched1.code_eq fun i hi hmem => hdisj i hmem hi
    have hblockcode : is.filterMap p2.line? = is.filterMap p1.line? :=
      filterMap_congr fun i hi => line?_congr (htouched2.insts i (hdisj i hi))
    rw [hrestcode] at hyield2 hcode2
    refine ⟨p2, ?_, htouched1.trans htouched2, ?_⟩
    · rw [code, bindings_append, redirectCount_append, redirectCount_ofLines]
      exact redirectEach_cons (redirectNode_block hid hyield1) hyield2
    · rw [code, code, redirect_append, hblockcode, hcode1, hcode2]
  | branch id t e join phis rest iht ihe ih =>
    simp only [height] at hheight
    obtain _ | depth := depth
    · omega
    obtain ⟨hbranch, hrest, _, hdisj⟩ :=
      sound_append.mp (show ((branch id t e join phis nil).append rest).Sound p from hsound)
    obtain ⟨⟨c, hid⟩, ht, he, hj, _, hi⟩ := sound_branch.mp hbranch
    simp only [Tree.insts, List.append_nil, mem_append] at hkept hdisj
    have hite : ∀ i ∈ t.insts, i ∉ e.insts := fun i hmem hmem' =>
      (nodup_append.mp (nodup_append.mp hi).2.1).2.2 i hmem i hmem' rfl
    -- one branch after the other, then what follows
    obtain ⟨p1, hyield1, htouched1, hcode1⟩ := iht bound ht (fun i hi => hkept i (.inl (.inl (.inl hi))))
      (show t.height ≤ depth by omega)
    obtain ⟨p2, hyield2, htouched2, hcode2⟩ := ihe bound (htouched1.sound he)
      (fun i hi => hkept i (.inl (.inl (.inr hi)))) (show e.height ≤ depth by omega)
    have hte := htouched1.trans htouched2
    obtain ⟨p3, hyield3, htouched3, hcode3⟩ := ih bound (hte.sound hrest) (fun i hi => hkept i (.inr hi))
      (show rest.height ≤ depth + 1 by omega)
    have hall := hte.trans htouched3
    have hecode : e.code p1 = e.code p := htouched1.code_eq fun i hi hmem => hite i hmem hi
    have hrestcode : rest.code p2 = rest.code p :=
      hte.code_eq fun i hi hmem => hdisj i (.inl (mem_append.mp hmem)) hi
    have hthen' : t.code p3 = t.code p1 :=
      (htouched3.code_eq fun i hi => hdisj i (.inl (.inl hi))).trans (htouched2.code_eq hite)
    have helse' : e.code p3 = e.code p2 := htouched3.code_eq fun i hi => hdisj i (.inl (.inr hi))
    rw [hecode] at hyield2
    rw [hrestcode] at hyield3 hcode3
    refine ⟨p3, ?_, hall.mono fun i hi => ?_, ?_⟩
    · rw [code, redirectCount_branch]
      exact redirectEach_cons (redirectNode_branch hid hyield1 hyield2) hyield3
    · simp only [Tree.insts, mem_append] at hi ⊢
      tauto
    · rw [Tree.code, Tree.code, redirect, hthen', helse', hcode1, hcode2, hcode3, hecode,
        condition_of_touched hall, filterMap_phi?_of_touched hall hj.phis]
  | loop id body join phis rest ihb ih =>
    simp only [height] at hheight
    obtain _ | depth := depth
    · omega
    obtain ⟨hloop, hrest, _, hdisj⟩ :=
      sound_append.mp (show ((loop id body join phis nil).append rest).Sound p from hsound)
    obtain ⟨⟨c, hid⟩, hb, hj, _, _⟩ := sound_loop.mp hloop
    simp only [Tree.insts, List.append_nil, mem_append] at hkept hdisj
    obtain ⟨p1, hyield1, htouched1, hcode1⟩ := ihb bound hb (fun i hi => hkept i (.inl (.inr hi)))
      (show body.height ≤ depth by omega)
    obtain ⟨p2, hyield2, htouched2, hcode2⟩ := ih bound (htouched1.sound hrest) (fun i hi => hkept i (.inr hi))
      (show rest.height ≤ depth + 1 by omega)
    have hall := htouched1.trans htouched2
    have hrestcode : rest.code p1 = rest.code p := htouched1.code_eq fun i hi hmem => hdisj i (.inr hmem) hi
    have hbody' : body.code p2 = body.code p1 := htouched2.code_eq fun i hi => hdisj i (.inr hi)
    rw [hrestcode] at hyield2 hcode2
    refine ⟨p2, ?_, hall.mono fun i hi => ?_, ?_⟩
    · rw [code, redirectCount_loop]
      exact redirectEach_cons (redirectNode_loop hid hyield1) hyield2
    · simp only [Tree.insts, mem_append] at hi ⊢
      tauto
    · rw [Tree.code, Tree.code, redirect, hbody', hcode1, hcode2, condition_of_touched hall,
        filterMap_phi?_of_touched hall hj.phis]

end Procedure

end ActorNet
