import ActorNet.Proofs.SingleStore.Walk
import ActorNet.Proofs.Structure.Rewrites

/-!
# The first and the last block of a redirected procedure

Loads are put at the front of the first block and left out by redirection (`redirectEach_opened`),
and stores at the end of the last block, before a return that stands there
(`insertEpilogue_yields`). Together they give the code of a procedure after the pass
(`storeOnce_yields`).

A list has a first and a last block, if need be a new one (`ensureFirstBlock_yields`,
`ensureLastBlock_yields`).
-/

namespace ActorNet

open Code List Tree

/-! ## New instructions in a block -/

section

open List Procedure Tree

variable {post pre : List InstId} {b : NodeId} {L : NodeList} {p : Procedure} {d r : Tree}

/-- The code of a list afterwards. -/
theorem Emitted.code_eq {new : List InstId} {added : List (Inst × Option Expr)} {p' : Procedure}
    (h : ListAt L (d.thenBlock b (pre ++ post) r) p) (he : Emitted b pre post new added p p') :
    (d.thenBlock b (pre ++ new ++ post) r).code p' = ((d.code p).append (Code.ofLines (pre.filterMap p.line?))).append
        ((Code.ofLines added).append ((Code.ofLines (post.filterMap p.line?)).append (r.code p))) := by
  obtain ⟨_, hd, hr⟩ := Rewrites.emitted he h
  have hpre : pre.filterMap p'.line? = pre.filterMap p.line? :=
    filterMap_congr fun j hj => line?_congr (he.insts j (h.index_lt j (mem_append_left _ hj)))
  have hpost : post.filterMap p'.line? = post.filterMap p.line? :=
    filterMap_congr fun j hj => line?_congr (he.insts j (h.index_lt j (mem_append_right _ hj)))
  rw [code_append, code_append, hd.code, hr.code, Rewrites.code_block]
  simp only [filterMap_append, hpre, hpost, he.lines, Code.ofLines_append, Code.append_assoc]

section Ends

variable {t : Tree}

lemma updateList?_body (f : List NodeId → List NodeId) : p.updateList? .body f = some { p with body := f p.body } := rfl

/-- The body has a first block. -/
theorem ensureFirstBlock_yields (h : ListAt .body t p) :
    ∃ (b : NodeId) (is : List InstId) (r : Tree) (p' : Procedure), Yields (ensureFirstBlock .body) p b p' ∧
      Rewrites .body t (block b is r) p p' ∧ (block b is r).code p' = t.code p ∧ is ++ r.insts = t.insts ∧
      (∃ new, p'.body = new ++ p.body) ∧ (∀ n ∈ p.body, p'.node? n = p.node? n) ∧ ∀ i, p'.inst? i = p.inst? i := by
  simp only [ensureFirstBlock, yields_get_bind]
  cases hfirst : (p.listNodes .body).head?.filter p.isBlock with
  | some b =>
    obtain ⟨hhead, hblock⟩ := filter_eq_some_iff.mp hfirst
    rw [h.nodes] at hhead
    -- the first node of the tree is a block
    obtain ⟨is, r, rfl⟩ : ∃ is r, t = block b is r := by
      cases t with
      | nil => cases hhead
      | block id is r =>
        cases hhead
        exact ⟨is, r, rfl⟩
      | branch | loop =>
        cases hhead
        obtain ⟨⟨c, hc⟩, _⟩ := h.sound.fits
        simp [isBlock, hc, Node.isBlock] at hblock
    refine ⟨b, is, r, p, ?_, Rewrites.refl h, rfl, rfl, ⟨[], rfl⟩, fun _ _ => rfl, fun _ => rfl⟩
    exact yields_pure.mpr ⟨rfl, rfl⟩
  | none =>
    have hlist := updateList?_body (p := { p with nodes := p.nodes.push (.block []) })
      (insertAt 0 (NodeId.mk p.nodes.size))
    obtain ⟨hrw, _, hr, _⟩ := Rewrites.newBlock (d := nil) (r := t) h (listChange_of_updateList? hlist) rfl
    refine ⟨⟨p.nodes.size⟩, [], t, _, ?_, hrw, ?_, rfl, ⟨[⟨p.nodes.size⟩], rfl⟩, ?_, fun _ => rfl⟩
    · simp only [yields_bind, yields_newBlock, insertNode, yields_updateList, yields_pure]
      exact ⟨_, _, ⟨rfl, rfl⟩, (), _, hlist, rfl, rfl⟩
    · rw [Tree.code, hr.code]
      rfl
    · intro n hn
      show { p with nodes := p.nodes.push (.block []) }.node? n = p.node? n
      rw [node?_push, if_neg]
      intro heq
      have hroot : n ∈ t.roots := h.nodes ▸ (show n ∈ p.listNodes .body from hn)
      have hlt := h.sound.node_lt (t.roots_sublist_nodes.subset hroot)
      rw [heq] at hlt
      exact Nat.lt_irrefl _ hlt

lemma ensureLastBlock_yields (p : Procedure) : ∃ b p', Yields (ensureLastBlock .body) p b p' := by
  simp only [ensureLastBlock, yields_get_bind]
  cases hlast : (p.listNodes .body).getLast?.filter p.isBlock with
  | some b =>
    refine ⟨b, p, ?_⟩
    exact yields_pure.mpr ⟨rfl, rfl⟩
  | none =>
    have hlist := updateList?_body (p := { p with nodes := p.nodes.push (.block []) }) (· ++ [NodeId.mk p.nodes.size])
    refine ⟨⟨p.nodes.size⟩, { p with nodes := p.nodes.push (.block []), body := p.body ++ [⟨p.nodes.size⟩] }, ?_⟩
    simp only [yields_bind, yields_newBlock, pushNode, yields_updateList, yields_pure]
    exact ⟨_, _, ⟨rfl, rfl⟩, (), _, hlist, rfl, rfl⟩

end Ends

end

variable {i : InstId} {I is post pre : List InstId} {b : NodeId} {d r t : Tree}

namespace Procedure

variable {p p' : Procedure} {locals bound seeded : Bindings} {kept : List InstId}

/-! ## Loads at the beginning -/

lemma insertLoads_yields (bs : Bindings) (hb : p.node? b = some (.block (pre ++ post))) : ∃ new p',
    Yields (insertLoads b pre.length bs) p new p' ∧ Emitted b pre post new bs.loads p p' := by
  induction bs generalizing p pre with
  | nil => exact ⟨[], p, yields_pure.mpr ⟨rfl, rfl⟩, .refl hb⟩
  | cons x rest ih =>
    obtain ⟨g, id⟩ := x
    have hfirst : Emitted b pre post [⟨p.insts.size⟩] [(.load id (.glob g) [], none)] p _ := .single hb rfl
    obtain ⟨new, p', hyield, hrest⟩ := ih hfirst.block
    rw [length_append, length_singleton] at hyield
    refine ⟨⟨p.insts.size⟩ :: new, p', ?_, hfirst.trans hrest⟩
    rw [insertLoads]
    simp only [yields_bind, yields_pure]
    exact ⟨_, _, yields_insertInst.mpr ⟨_, hb, rfl, by rw [insertAt_append]⟩, new, p', hyield, rfl, rfl⟩

lemma redirectInsts_kept (hpre : ∀ i ∈ pre, i ∈ kept) :
    redirectInsts locals kept bound (pre ++ is) = redirectInsts locals kept bound is := by
  induction pre with
  | nil => rfl
  | cons i rest ih =>
    rw [cons_append, redirectInsts, if_pos (by simpa using hpre i mem_cons_self)]
    exact ih fun i hi => hpre i (mem_cons_of_mem _ hi)

/-- Redirecting a list that begins with instructions that are left out. -/
theorem redirectEach_opened (locals bound : Bindings) {depth : Nat} (hsound : (block b (kept ++ is) r).Sound p)
    (hheight : (block b (kept ++ is) r).height ≤ depth) :
    ∃ p' bound', Yields (redirectEach (redirectNode locals kept depth) bound (b :: r.roots)) p
        (bound', ((block b is r).code p).redirectCount locals) p' ∧ Touched (is ++ r.insts) p p' ∧
      kept.filterMap p'.line? = kept.filterMap p.line? ∧ (block b (kept ++ is) r).code p' =
        (Code.ofLines (kept.filterMap p.line?)).append (((block b is r).code p).redirect locals bound) := by
  simp only [Tree.height] at hheight
  obtain _ | depth := depth
  · omega
  obtain ⟨hblock, hrest, _, hdisj⟩ := sound_append.mp (show ((block b (kept ++ is) nil).append r).Sound p from hsound)
  obtain ⟨hid, hnodup, hrec⟩ := sound_block.mp hblock
  simp only [Tree.insts, List.append_nil, mem_append] at hdisj
  obtain ⟨_, hnodup', hkept⟩ := nodup_append.mp hnodup
  obtain ⟨p₁, hyield1, htouched1, hcode1⟩ := redirectInsts_yields locals bound
    (fun i hi hmem => hkept i hmem i hi rfl) (fun i hi => (hrec i (mem_append_right _ hi)).imp fun _ h => h.1) hnodup'
  have hskip : redirectInsts locals kept bound (kept ++ is) = redirectInsts locals kept bound is :=
    redirectInsts_kept fun _ hi => hi
  rw [← hskip] at hyield1
  obtain ⟨p2, hyield2, htouched2, hcode2⟩ :=
    redirectEach_yields locals ((ofLines (is.filterMap p.line?)).bindings locals bound) (htouched1.sound hrest)
      (fun i hi hmem => hdisj i (.inl hmem) hi) (show r.height ≤ depth + 1 by omega)
  have hrestcode : r.code p₁ = r.code p := htouched1.code_eq fun i hi hmem => hdisj i (.inr hmem) hi
  have hlines : is.filterMap p2.line? = is.filterMap p₁.line? :=
    filterMap_congr fun i hi => line?_congr (htouched2.insts i (hdisj i (.inr hi)))
  have hkeptlines : kept.filterMap p2.line? = kept.filterMap p.line? := by
    refine filterMap_congr fun i hi => line?_congr ?_
    rw [htouched2.insts i (hdisj i (.inl hi)), htouched1.insts i fun hmem => hkept i hi i hmem rfl]
  rw [hrestcode] at hyield2
  have hyield := redirectEach_cons (redirectNode_block hid hyield1) hyield2
  rw [← redirectCount_ofLines, ← redirectCount_append] at hyield
  refine ⟨p2, _, hyield, htouched1.trans htouched2, hkeptlines, ?_⟩
  rw [Tree.code, Tree.code, redirect_append, filterMap_append, ofLines_append, hlines, hkeptlines,
    hcode1, hcode2, hrestcode, Code.append_assoc]

/-- The return at the end of a block stays there when something is put before what the block
lists. -/
lemma trailingReturn?_of_suffix (h : p.trailingReturn? b = some i)
    (hlisted : ∃ pre, p'.blockInsts b = pre ++ p.blockInsts b) (hreturn : ∀ d, p.inst? i = some d →
    d.inst.isReturn = true → ∃ d', p'.inst? i = some d' ∧ d'.inst.isReturn = true) :
    p'.trailingReturn? b = some i := by
  obtain ⟨hlast, hret⟩ := filter_eq_some_iff.mp h
  obtain ⟨pre, hpre⟩ := hlisted
  refine filter_eq_some_iff.mpr ⟨?_, ?_⟩
  · rw [hpre, getLast?_append, hlast]
    rfl
  · cases hd : p.inst? i with
    | none => simp [hd] at hret
    | some d =>
      obtain ⟨d', hd', hret'⟩ := hreturn d hd (by simpa [hd] using hret)
      simpa [hd'] using hret'

lemma Touched.trailingReturn? (h : Touched I p p') (hret : p.trailingReturn? b = some i) :
    p'.trailingReturn? b = some i := by
  refine trailingReturn?_of_suffix hret ⟨[], blockInsts_congr (h.node? b)⟩ fun d hd hreturn => ?_
  refine ⟨d, (h.changed i d hd).same ?_, hreturn⟩
  cases hinst : d.inst with
  | ret v => rfl
  | _ => rw [hinst] at hreturn; cases hreturn

/-- Loading state variables at the beginning of a procedure and redirecting all that follows. -/
lemma redirect_yields (h : ListAt .body t p) (locals seeded : Bindings) :
    ∃ (kept : List InstId) (t' : Tree) (p₁ p' : Procedure) (bound : Bindings),
      Yields (insertPrologue seeded) p kept p₁ ∧
      Yields (redirectEach (redirectNode locals kept (p₁.depth + 1)) seeded p₁.body) p₁
        (bound, (t.code p).redirectCount locals) p' ∧ Rewrites .body t t' p p' ∧
      t'.code p' = (ofLines seeded.loads).append ((t.code p).redirect locals seeded) ∧
      t'.insts = kept ++ t.insts ∧ kept.filterMap p'.line? = seeded.loads ∧
      (∀ i ∈ t.insts, ∀ d, p.inst? i = some d → Redirects d (p'.inst? i)) ∧
      ∀ b i, p.body.getLast? = some b → p.trailingReturn? b = some i → p'.body.getLast? = some b ∧
        p'.trailingReturn? b = some i := by
  cases seeded with
  | nil =>
    have hnone : ∀ i ∈ t.insts, i ∉ ([] : List InstId) := fun _ _ => not_mem_nil
    obtain ⟨p', hyield, htouched, hcode⟩ := redirectEach_yields locals [] h.sound hnone
      (Nat.le_succ_of_le h.sound.height_le)
    refine ⟨[], t, p, p', (t.code p).bindings locals [], yields_pure.mpr ⟨rfl, rfl⟩, ?_,
      htouched.rewrites h, hcode, rfl, rfl, fun i _ => htouched.changed i, ?_⟩
    · rw [show p.body = t.roots from h.nodes]
      exact hyield
    · intro b i hb hi
      rw [htouched.rest]
      exact ⟨hb, htouched.rest ▸ htouched.trailingReturn? hi⟩
  | cons x rest =>
    obtain ⟨b, is, r, p₁, hfirst, hrw, hcode, hlisted, ⟨front, hbody⟩, hnodes, hinsts⟩ := ensureFirstBlock_yields h
    have hlist : ListAt .body (nil.thenBlock b ([] ++ is) r) p₁ := hrw.list
    obtain ⟨new, p2, hloads, hinserted⟩ := insertLoads_yields (x :: rest) hlist.blockAt.1
    obtain ⟨hrewrites, _, hafter⟩ := Rewrites.emitted hinserted hlist
    have hlist2 : ListAt .body (block b (new ++ is) r) p2 := hrewrites.list
    obtain ⟨p3, bound, hyield, htouched, hfront, hcode3⟩ := redirectEach_opened locals (x :: rest) hlist2.sound
      (Nat.le_succ_of_le hlist2.sound.height_le)
    have hrw2 := hrw.trans hrewrites
    have hsub : ∀ i ∈ is ++ r.insts, i ∈ (block b (new ++ is) r).insts := fun i hi => by
      rw [Tree.insts, List.append_assoc]
      exact mem_append_right _ hi
    have hlines : is.filterMap p2.line? = is.filterMap p₁.line? :=
      filterMap_congr fun j hj => line?_congr (hinserted.insts j (hlist.index_lt j hj))
    have hsame : (block b is r).code p2 = t.code p := by rw [← hcode, Tree.code, Tree.code, hlines, hafter.code]
    rw [hsame] at hyield
    refine ⟨new, block b (new ++ is) r, p2, p3, bound, ?_, ?_,
      hrw2.trans ((htouched.mono hsub).rewrites hlist2), ?_, ?_, ?_, ?_, ?_⟩
    · unfold insertPrologue
      rw [if_neg (by simp)]
      simp only [yields_bind]
      exact ⟨b, p₁, hfirst, hloads⟩
    · rw [show p2.body = b :: r.roots from hlist2.nodes]
      exact hyield
    · rw [hcode3, hsame, hinserted.lines]
    · rw [Tree.insts, List.append_assoc, hlisted]
    · rw [hfront, hinserted.lines]
    · intro i hi d hd
      have hd1 := (hinsts i).trans hd
      exact htouched.changed i d ((hinserted.insts i (index_lt_of_inst? hd1)).trans hd1)
    · intro b0 i hb0 hi
      have hlast : p2.body.getLast? = some b0 := by
        rw [hinserted.rest, hbody, getLast?_append, hb0]
        rfl
      have hmem : b0 ∈ p.body := mem_of_getLast? hb0
      have hi1 : p₁.trailingReturn? b0 = some i :=
        trailingReturn?_of_suffix hi ⟨[],
          blockInsts_congr (hnodes b0 hmem)⟩ fun d hd hret => ⟨d, by rw [hinsts, hd], hret⟩
      have hi2 : p2.trailingReturn? b0 = some i := by
        refine trailingReturn?_of_suffix hi1 ?_ fun d hd hret => ?_
        · by_cases heq : b0 = b
          · obtain ⟨hb1, _⟩ := hrw.list.sound.fits
            obtain ⟨hb2, _⟩ := hlist2.sound.fits
            refine ⟨new, ?_⟩
            rw [heq, blockInsts, blockInsts, hb1, hb2]
          · exact ⟨[], blockInsts_congr (hinserted.nodes b0 heq)⟩
        · exact ⟨d, by rw [hinserted.insts i (index_lt_of_inst? hd), hd], hret⟩
      refine ⟨?_, htouched.trailingReturn? hi2⟩
      rw [htouched.rest]
      exact hlast

/-! ## Stores at the end -/

/-- The instruction before which something is put, if there is one, stands at the end of the
block. -/
def AtEnd (anchor : Option InstId) (post : List InstId) : Prop :=
  anchor = none ∧ post = [] ∨ ∃ i, anchor = some i ∧ post = [i]

lemma insertStores_yields {anchor : Option InstId} (hanchor : AtEnd anchor post) (bs : Bindings)
    (h : ListAt .body (d.thenBlock b (pre ++ post) nil) p) : ∃ new p',
    Yields (insertStores b anchor bs) p () p' ∧ Emitted b pre post new bs.stores p p' := by
  induction bs generalizing p pre with
  | nil => exact ⟨[], p, yields_pure.mpr ⟨rfl, rfl⟩, .refl h.blockAt.1⟩
  | cons x rest ih =>
    obtain ⟨g, id⟩ := x
    obtain ⟨hb, _, hrec⟩ := h.blockAt
    have hfirst : Emitted b pre post [⟨p.insts.size⟩] [(.store (.glob g) [] (.var (.loc id)), none)] p _ := .single hb rfl
    obtain ⟨new, p', hyield, hrest⟩ := ih (Rewrites.emitted hfirst h).1.list
    refine ⟨⟨p.insts.size⟩ :: new, p', ?_, hfirst.trans hrest⟩
    rcases hanchor with ⟨rfl, rfl⟩ | ⟨i, rfl, rfl⟩
    · rw [insertStores]
      simp only [yields_bind]
      refine ⟨_, _, yields_appendInst.mpr ⟨_, hb, rfl, rfl⟩, ?_⟩
      rw [List.append_nil]
      exact hyield
    · obtain ⟨data, hdata, hblock⟩ := hrec i (by simp)
      rw [insertStores]
      simp only [yields_bind]
      exact ⟨_, _, (yields_insertBefore hb h.not_mem_before hdata hblock).mpr ⟨rfl, rfl⟩, hyield⟩

lemma trailingReturn?_cases (hb : p.node? b = some (.block is)) :
    ∃ pre post, is = pre ++ post ∧ AtEnd (p.trailingReturn? b) post ∧
      ∀ i ∈ post, ∃ d, p.inst? i = some d ∧ d.inst.isReturn = true := by
  have hlisted := blockInsts_eq hb
  cases hret : p.trailingReturn? b with
  | none => exact ⟨is, [], (List.append_nil is).symm, .inl ⟨rfl, rfl⟩, forall_mem_nil _⟩
  | some i =>
    obtain ⟨hlast, hreturn⟩ := filter_eq_some_iff.mp hret
    rw [hlisted] at hlast
    obtain ⟨pre, rfl⟩ := getLast?_eq_some_iff.mp hlast
    refine ⟨pre, [i], rfl, .inr ⟨i, rfl, rfl⟩, fun j hj => ?_⟩
    rw [mem_singleton.mp hj]
    cases hd : p.inst? i with
    | none => simp [hd] at hreturn
    | some d => exact ⟨d, rfl, by simpa [hd] using hreturn⟩

lemma ensureLastBlock_of_last {b' : NodeId} (hlast : p.body.getLast? = some b) (hblock : p.isBlock b = true)
    (h : Yields (ensureLastBlock .body) p b' p') : b' = b ∧ p' = p := by
  have hfilter : (p.listNodes .body).getLast?.filter p.isBlock = some b := filter_eq_some_iff.mpr ⟨hlast, hblock⟩
  rw [ensureLastBlock, yields_get_bind, hfilter] at h
  exact yields_pure.mp h

/-- Instructions have been put at the end of the last block, or before the return that stands
there. -/
structure Closed (t t' : Tree) (back post : List InstId) (locals : Bindings) (p p' : Procedure) : Prop where
  insts : ∃ before, t.insts = before ++ post ∧ t'.insts = before ++ (back ++ post)
  lines : back.filterMap p'.line? = locals.stores
  old : ∀ i ∈ t.insts, p'.inst? i = p.inst? i
  last : back = [] ∨ ∃ b pre, p'.body.getLast? = some b ∧ p'.node? b = some (.block (pre ++ (back ++ post)))
  returns : post = [] ∨ ∃ i d, post = [i] ∧ p'.inst? i = some d ∧ d.inst.isReturn = true

/-- Storing locals into their state variables at the end of a procedure. After the stores there is
nothing, or the return at the end of the last block. -/
theorem insertEpilogue_yields (h : ListAt .body t p) (locals : Bindings) :
    ∃ (t' : Tree) (p' : Procedure) (c tail : Code), Yields (insertEpilogue locals) p () p' ∧ Rewrites .body t t' p p' ∧
      t.code p = c.append tail ∧ t'.code p' = c.append ((ofLines locals.stores).append tail) ∧
      (tail = .done ∨ ∃ v predicate, tail = .inst (.ret v) predicate .done) ∧
      (∀ b i, p.body.getLast? = some b → p.trailingReturn? b = some i → tail ≠ .done) ∧
      ∃ back post, Closed t t' back post locals p p' := by
  obtain ⟨b, p₁, hlast⟩ := ensureLastBlock_yields p
  obtain ⟨d, is, hrw, hcode, _, _, hinsts, hsame⟩ := Rewrites.ensureLastBlock h hlast
  obtain ⟨hb, _⟩ := sound_block.mp (sound_append.mp hrw.list.sound).2.1
  obtain ⟨pre, post, rfl, hatEnd, hreturn⟩ := trailingReturn?_cases hb
  have hlist : ListAt .body (d.thenBlock b (pre ++ post) nil) p₁ := hrw.list
  -- the code of the list is split where the stores go
  have hsplit : t.code p = ((d.code p₁).append (ofLines (pre.filterMap p₁.line?))).append
      (ofLines (post.filterMap p₁.line?)) := by
    rw [← hcode, code_append, Rewrites.code_block, filterMap_append, Code.ofLines_append, Code.append_assoc]
  have htail : ofLines (post.filterMap p₁.line?) = .done ∨
      ∃ v predicate, ofLines (post.filterMap p₁.line?) = .inst (.ret v) predicate .done := by
    rcases hatEnd with ⟨_, rfl⟩ | ⟨i, _, rfl⟩
    · exact .inl rfl
    · obtain ⟨data, hdata, hret⟩ := hreturn i mem_cons_self
      have hline : p₁.line? i = some (data.inst, data.predicate) := by rw [line?, hdata, map_some]
      rw [filterMap_cons_some hline]
      cases hinst : data.inst with
      | ret v => exact .inr ⟨v, data.predicate, rfl⟩
      | _ => rw [hinst] at hret; cases hret
  have htrailing : ∀ b' i, p.body.getLast? = some b' → p.trailingReturn? b' = some i →
      ofLines (post.filterMap p₁.line?) ≠ .done := by
    intro b' i hb' hi
    have hblock : p.isBlock b' = true := by
      by_contra hnot
      rw [trailingReturn?, blockInsts_of_not_isBlock hnot] at hi
      cases hi
    obtain ⟨rfl, rfl⟩ := ensureLastBlock_of_last hb' hblock hlast
    rw [hi] at hatEnd
    obtain ⟨h, _⟩ | ⟨j, _, rfl⟩ := hatEnd
    · cases h
    · obtain ⟨data, hdata, _⟩ := hreturn j mem_cons_self
      have hline : p₁.line? j = some (data.inst, data.predicate) := by rw [line?, hdata, map_some]
      rw [filterMap_cons_some hline]
      exact fun heq => by cases heq
  cases locals with
  | nil =>
    refine ⟨t, p, _, _, ?_, Rewrites.refl h, hsplit, hsplit, htail, htrailing, [], [], ?_⟩
    · exact yields_pure.mpr ⟨rfl, rfl⟩
    · exact ⟨⟨t.insts, (List.append_nil _).symm, (List.append_nil _).symm⟩, rfl, fun _ _ => rfl, .inl rfl, .inl rfl⟩
  | cons x rest =>
    obtain ⟨new, p', hyield, hinserted⟩ := insertStores_yields hatEnd (x :: rest) hlist
    obtain ⟨hrewrites, _⟩ := Rewrites.emitted hinserted hlist
    refine ⟨_, p', _, _, ?_, hrw.trans hrewrites, hsplit, ?_, htail, htrailing, new, post, ?_⟩
    · unfold insertEpilogue
      rw [if_neg (by simp)]
      refine yields_bind.mpr ⟨b, p₁, hlast, ?_⟩
      rw [yields_get_bind]
      exact hyield
    · rw [Emitted.code_eq hlist hinserted]
      simp only [Tree.code, append_done]
    · have hold : ∀ i ∈ t.insts, p'.inst? i = p.inst? i := by
        intro i hi
        rw [← hsame i]
        rw [← hinsts] at hi
        refine hinserted.insts i (hrw.list.sound.inst_lt ?_)
        rw [Tree.insts_append, insts_block]
        exact hi
      refine ⟨⟨d.insts ++ pre, ?_, ?_⟩, ?_, hold, .inr ⟨b, pre, ?_, ?_⟩, ?_⟩
      · rw [← hinsts, List.append_assoc]
      · simp only [Tree.insts_append, Tree.insts, List.append_nil, List.append_assoc]
      · exact hinserted.lines
      · rw [show p'.body = _ from hrewrites.list.nodes]
        simp only [roots_append, roots, List.append_nil, getLast?_append, getLast?_singleton, Option.some_or]
      · rw [← List.append_assoc]
        exact hinserted.block
      · rcases hatEnd with ⟨_, rfl⟩ | ⟨i, _, rfl⟩
        · exact .inl rfl
        · obtain ⟨data, hdata, hret⟩ := hreturn i mem_cons_self
          refine .inr ⟨i, data, rfl, ?_, hret⟩
          rw [hinserted.insts i (index_lt_of_inst? hdata), hdata]

/-! ## The whole pass -/

/-- What the pass makes of the code of a procedure: loads, the redirected code, stores, and a return
that stands at the end. -/
structure StoredOnce (globals : List Variable) (p : Procedure) (c c' : Code)
    (locals seeded : Bindings) (start tail : Code) : Prop where
  made : ∃ p₁, Made globals p.storedGlobals locals seeded p p₁
  split : c = start.append tail
  code : c' = (ofLines seeded.loads).append
    ((start.redirect locals seeded).append ((ofLines locals.stores).append tail))
  ending : tail = .done ∨ ∃ v predicate, tail = .inst (.ret v) predicate .done
  trailing : ∀ b i, p.body.getLast? = some b → p.trailingReturn? b = some i → tail ≠ .done

/-- Where the instructions stand after the pass: redirected between loads of state variables and
stores of locals. -/
structure Enclosed (t t' : Tree)
    (front back post : List InstId) (seeded locals : Bindings) (p p' : Procedure) : Prop where
  insts : ∃ before, front ++ t.insts = before ++ post ∧ t'.insts = before ++ (back ++ post)
  loads : front.filterMap p'.line? = seeded.loads
  stores : back.filterMap p'.line? = locals.stores
  changed : ∀ i ∈ t.insts, ∀ d, p.inst? i = some d → Redirects d (p'.inst? i)
  last : back = [] ∨ ∃ b pre, p'.body.getLast? = some b ∧ p'.node? b = some (.block (pre ++ (back ++ post)))
  returns : post = [] ∨ ∃ i d, post = [i] ∧ p'.inst? i = some d ∧ d.inst.isReturn = true

/-- The pass succeeds; it leaves the procedure as it is, or it makes of its code what `StoredOnce`
says. -/
theorem storeOnce_yields (globals : List Variable) (ht : t.Spans p) :
    ∃ n p', Yields (storeOnce globals) p n p' ∧ (p' = p ∧ n = 0 ∧ p.storedGlobals = [] ∨
      ∃ (t' : Tree) (locals seeded : Bindings) (start tail : Code) (front back post : List InstId),
        Rewrites .body t t' p p' ∧ (∀ b ∈ locals, (p'.local? b.2).isSome) ∧ n = (t.code p).redirectCount locals ∧
        StoredOnce globals p (t.code p) (t'.code p') locals seeded start tail ∧
        Enclosed t t' front back post seeded locals p p') := by
  simp only [storeOnce, yields_get_bind]
  by_cases hskip : (p.storedGlobals.isEmpty && !p.hasWholeLoads) = true
  · refine ⟨0, p, ?_, .inl ⟨rfl, rfl, ?_⟩⟩
    · rw [if_pos hskip]
      exact yields_pure.mpr ⟨rfl, rfl⟩
    · exact isEmpty_iff.mp (Bool.and_eq_true_iff.mp hskip).1
  · obtain ⟨locals, seeded, p₁, hmake, hmade⟩ := makeLocals_yields globals p.storedGlobals p
    -- making locals leaves nodes and instructions alone
    have hnode : ∀ n, p₁.node? n = p.node? n := by
      intro n
      rw [hmade.rest]
      rfl
    have hinst : ∀ i, p₁.inst? i = p.inst? i := by
      intro i
      rw [hmade.rest]
      rfl
    have hbody : p₁.body = p.body := by rw [hmade.rest]
    have hlist : ListAt .body t p := ht.listAt
    obtain ⟨hrw1, _⟩ := (Rewrites.refl hlist).relocal hmade.rest hmade.keeps
    have hcode1 : t.code p₁ = t.code p := code_congr (fun n _ => hnode n) fun i _ => hinst i
    obtain ⟨kept, t2, p2, p3, bound, hprologue, hredirect, hrw3, hcode3, hinsts3, hfront, hchanged, htrailing⟩ :=
      redirect_yields hrw1.list locals seeded
    obtain ⟨t', p', c, tail, hepilogue, hrw, hsplit, hcode', htail, hlast, back, post, hclosed⟩ :=
      insertEpilogue_yields hrw3.list locals
    have hrw' := hrw3.trans hrw
    refine ⟨(t.code p₁).redirectCount locals, p', ?_, .inr ⟨t', locals, seeded, ?_⟩⟩
    · simp only [if_neg hskip, yields_bind, ↓yields_get_bind, yields_pure]
      exact ⟨(locals, seeded), p₁, hmake, kept, p2, hprologue, (bound, _), p3, hredirect, (), p', hepilogue, rfl, rfl⟩
    · rw [hcode1] at hcode3
      rw [hcode3] at hsplit
      have htail' : ∀ b i, p.body.getLast? = some b → p.trailingReturn? b = some i → tail ≠ .done := by
        intro b i hb hi
        have hi1 : p₁.trailingReturn? b = some i :=
          trailingReturn?_of_suffix hi ⟨[], blockInsts_congr (hnode b)⟩ fun d hd hret => ⟨d, by rw [hinst, hd], hret⟩
        obtain ⟨hb3, hi3⟩ := htrailing b i (hbody ▸ hb) hi1
        exact hlast b i hb3 hi3
      -- the code is split as the redirected code is
      obtain ⟨start, hstart, hc⟩ : ∃ start : Code, t.code p = start.append tail ∧
          c = (ofLines seeded.loads).append (start.redirect locals seeded) := by
        rcases htail with rfl | ⟨v, predicate, rfl⟩
        · rw [append_done] at hsplit
          exact ⟨t.code p, (append_done _).symm, hsplit.symm⟩
        · obtain ⟨d, hd, hredirected⟩ := exists_of_loads_append_eq hsplit
          obtain ⟨start, hstart, rfl⟩ := exists_of_redirect_eq_append_ret hredirected
          exact ⟨start, hstart, hd⟩
      refine ⟨start, tail, kept, back, post, hrw1.trans hrw', fun b hb => hrw'.edits.locals _
        (hmade.live b hb), by rw [hcode1], ⟨⟨p₁, hmade⟩, hstart, ?_, htail, htail'⟩, ?_⟩
      · rw [hcode', hc, Code.append_assoc]
      · obtain ⟨before, hbefore, hafter⟩ := hclosed.insts
        rw [hinsts3] at hbefore
        refine ⟨⟨before, hbefore, hafter⟩, ?_, hclosed.lines, fun i hi d hd => ?_, hclosed.last, hclosed.returns⟩
        · rw [← hfront]
          refine filterMap_congr fun i hi => line?_congr (hclosed.old i ?_)
          rw [hinsts3]
          exact mem_append_left _ hi
        · rw [hclosed.old i (by rw [hinsts3]; exact mem_append_right _ hi)]
          exact hchanged i hi d ((hinst i).trans hd)

end Procedure

end ActorNet
