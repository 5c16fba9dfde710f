import ActorNet.Proofs.SingleStore.Locals

/-!
# One store for each state variable

Redirection leaves stores of whole state variables only where there is no local for the variable
(`filterMap_storesWhole?_redirect`), and the epilogue stores each of the declared ones once
(`StoredOnce.stored_eq`).
-/

namespace ActorNet

open Code List Tree

variable {bound locals seeded : Bindings}
  {c start tail : Code} {g : GlobalId} {globals : List Variable} {i : Inst} {t : Tree}

namespace Inst

/-- Whether an instruction loads or stores an element of a variable. -/
def isIndexed : Inst → Bool
  | .load _ _ indexes | .store _ indexes _ => !indexes.isEmpty
  | _ => false

lemma isIndexed_of_isWhole (h : i.isWhole = true) : i.isIndexed = false := by
  rcases Bool.or_eq_true_iff.mp h with h | h
  · unfold storesWhole? at h
    split at h
    · rfl
    · cases h
  · unfold loadsWhole at h
    split at h
    · rfl
    · cases h

lemma storesWhole?_redirected (locals bound : Bindings) (i : Inst) :
    (i.redirected locals bound).1.storesWhole? = i.storesWhole?.filter fun g => (locals.lookup g).isNone := by
  rcases redirected_cases locals bound i with ⟨g, value, target, rfl, h, heq⟩ | ⟨target, g, source, rfl, _, heq⟩ |
    ⟨target, g, rfl, _, heq⟩ | ⟨_, hnone, heq⟩ <;> rw [heq]
  · simp [storesWhole?, Option.filter, h]
  · rfl
  · rfl
  · cases hs : i.storesWhole? with
    | none => rfl
    | some g => simp [Option.filter, hnone g hs]

end Inst

lemma Code.filterMap_storesWhole?_redirect (locals bound : Bindings) (c : Code) :
    (c.redirect locals bound).insts.filterMap Inst.storesWhole? =
      (c.insts.filterMap Inst.storesWhole?).filter fun g => (locals.lookup g).isNone := by
  induction c generalizing bound with
  | done => rfl
  | inst i predicate rest ih =>
    rw [redirect, insts, insts, filterMap_cons, filterMap_cons, ih, Inst.storesWhole?_redirected]
    cases i.storesWhole? with
    | none => rfl
    | some g => cases h : (locals.lookup g).isNone <;> simp [Option.filter, h]
  | branch condition t e phis rest iht ihe ih =>
    simp only [redirect, insts, filterMap_append, filter_append, iht, ihe, ih, storesWhole?_phis, filter_nil]
  | loop condition body phis rest ihb ih =>
    simp only [redirect, insts, filterMap_append, filter_append, ihb, ih, storesWhole?_phis, filter_nil]

namespace Procedure

variable {ids : List InstId} {p p' : Procedure}

/-- The state variables that the procedure stores as a whole, once for each store. -/
def stored (p : Procedure) : List GlobalId :=
  p.allInsts.filterMap (·.inst.storesWhole?)

/-- An instruction that loads or stores an element, with its handle. -/
def indexed? (p : Procedure) (i : InstId) : Option (InstId × InstData) :=
  ((p.inst? i).filter (·.inst.isIndexed)).map fun d => (i, d)

lemma stored_eq (ht : t.Spans p) :
    p.stored = (t.code p).insts.filterMap Inst.storesWhole? := by
  rw [insts_code_eq ht, filterMap_map]
  rfl

lemma map_storedGlobals (ht : t.Spans p) :
    p.storedGlobals.map (·.1) = distinct p.stored := by
  rw [stored_eq ht, ← map_stores false, ← wholeStores_eq ht, storedGlobals, List.map_map]
  exact map_id _

lemma filterMap_indexed?_eq_nil (h : ∀ line ∈ ids.filterMap p.line?, line.1.isIndexed = false) :
    ids.filterMap p.indexed? = [] := by
  refine filterMap_eq_nil_iff.mpr fun i hi => ?_
  cases hd : p.inst? i with
  | none => simp [indexed?, hd]
  | some d =>
    have hline := h (d.inst, d.predicate) (mem_filterMap.mpr ⟨i, hi, by simp [line?, hd]⟩)
    simpa [indexed?, hd] using hline

section

variable (h : StoredOnce globals p (t.code p) c locals seeded start tail) (ht : t.Spans p)
include h ht

lemma StoredOnce.lookup_isSome (hg : g ∈ p.stored) : (locals.lookup g).isSome = decide (g.index < globals.length) := by
  obtain ⟨p1, hmade⟩ := h.made
  have hkeys := hmade.keys
  rw [map_storedGlobals ht] at hkeys
  have hiff : (locals.lookup g).isSome = true ↔ g ∈ locals.map (·.1) := by simp [lookup_isSome_iff]
  rw [Bool.eq_iff_iff, hiff, hkeys, mem_filter, mem_distinct]
  exact and_iff_right hg

/-- Stores of undeclared state variables stay, and at the end each of the declared ones is stored
once. -/
lemma StoredOnce.stored_eq : c.insts.filterMap Inst.storesWhole? =
    p.stored.filter (fun g => !decide (g.index < globals.length)) ++
      (distinct p.stored).filter fun g => g.index < globals.length := by
  obtain ⟨p1, hmade⟩ := h.made
  have htail : tail.insts.filterMap Inst.storesWhole? = [] := by rcases h.ending with rfl | ⟨v, predicate, rfl⟩ <;> rfl
  have hstart : start.insts.filterMap Inst.storesWhole? = p.stored := by
    rw [Procedure.stored_eq ht, h.split, Code.insts_append, filterMap_append, htail, List.append_nil]
  have hloads : (seeded.loads.map (·.1)).filterMap Inst.storesWhole? = [] := by simp [Bindings.loads, Inst.storesWhole?]
  have hstores : (locals.stores.map (·.1)).filterMap Inst.storesWhole? = locals.map (·.1) := by
    simp [Bindings.stores, Inst.storesWhole?, filterMap_map, Function.comp_def]
  rw [h.code]
  simp only [Code.insts_append, insts_ofLines, filterMap_append, filterMap_storesWhole?_redirect,
    hloads, hstores, htail, hstart, List.append_nil, List.nil_append]
  rw [hmade.keys, map_storedGlobals ht]
  congr 1
  refine filter_congr fun g hg => ?_
  rw [← h.lookup_isSome ht hg, ← Option.not_isSome]

end

/-- What is left of the accesses to the first `n` state variables: at most one store of each of
them, at the end of the last block or before the return that stands there, and all accesses to
elements. -/
structure Canonical (n : Nat) (p p' : Procedure) : Prop where
  once : ∀ g, g.index < n → p'.stored.count g = if g ∈ p.stored then 1 else 0
  last : ∀ g ∈ p.stored, g.index < n → ∃ b pre back post, p'.body.getLast? = some b ∧
    p'.node? b = some (.block (pre ++ (back ++ post))) ∧
    (∃ i ∈ back, ∃ d, p'.inst? i = some d ∧ d.inst.storesWhole? = some g) ∧
    (∀ i ∈ back, ∃ d g', p'.inst? i = some d ∧ d.inst.storesWhole? = some g' ∧ g'.index < n) ∧
    (post = [] ∨ ∃ i d, post = [i] ∧ p'.inst? i = some d ∧ d.inst.isReturn = true)
  elements : p'.forward.filterMap p'.indexed? = p.forward.filterMap p.indexed?

lemma canonical_of_storedGlobals (ht : t.Spans p) (h : p.storedGlobals = []) (n : Nat) :
    p.stored = [] ∧ Canonical n p p := by
  have hnil : p.stored = [] := by
    have hdistinct := map_storedGlobals ht
    rw [h] at hdistinct
    exact eq_nil_iff_forall_not_mem.mpr fun g hg => not_mem_nil (hdistinct ▸ mem_distinct.mpr hg)
  refine ⟨hnil, fun g _ => ?_, fun g hg => ?_, rfl⟩
  · rw [hnil, if_neg not_mem_nil, count_nil]
  · rw [hnil] at hg
    cases hg

lemma Enclosed.canonical {t' : Tree} {front back post : List InstId} (h : Enclosed t t' front back post seeded locals p p')
    (hstored : StoredOnce globals p (t.code p) (t'.code p') locals seeded start tail) (ht : t.Spans p) (ht' : t'.Spans p') : Canonical globals.length p p' where
  once := by
    intro g hg
    rw [Procedure.stored_eq ht', hstored.stored_eq ht, count_append,
      count_eq_zero_of_not_mem (by simp [hg]), Nat.zero_add, count_filter (by simpa using hg)]
    split
    · exact count_eq_one_of_mem (nodup_distinct _) (mem_distinct.mpr ‹_›)
    · exact count_eq_zero_of_not_mem fun hmem => ‹g ∉ p.stored› (mem_distinct.mp hmem)
  last := by
    intro g hg hdeclared
    obtain ⟨p1, hmade⟩ := hstored.made
    have hkey : g ∈ locals.map (·.1) := by
      rw [hmade.keys, map_storedGlobals ht]
      exact mem_filter.mpr ⟨mem_distinct.mpr hg, by simpa using hdeclared⟩
    obtain ⟨x, hx, rfl⟩ := mem_map.mp hkey
    have hline : (.store (.glob x.1) [] (.var (.loc x.2)), none) ∈ back.filterMap p'.line? := by
      rw [h.stores]
      exact mem_map_of_mem hx
    obtain ⟨i, hi, hline⟩ := mem_filterMap.mp hline
    obtain ⟨d, hd, heq⟩ := map_eq_some_iff.mp hline
    obtain ⟨before, _, hafter⟩ := h.insts
    rcases h.last with hnil | ⟨b, pre, hb, hblock⟩
    · rw [hnil] at hi
      cases hi
    refine ⟨b, pre, back, post, hb, hblock, ⟨i, hi, d, hd, ?_⟩, fun j hj => ?_, h.returns⟩
    · rw [(Prod.mk.inj heq).1]
      rfl
    · obtain ⟨e, he⟩ := ht'.sound.exists_inst (i := j) (by rw [hafter]; simp [hj])
      have hmem : (e.inst, e.predicate) ∈ back.filterMap p'.line? := mem_filterMap.mpr ⟨j, hj, by simp [line?, he]⟩
      rw [h.stores] at hmem
      obtain ⟨y, hy, heq⟩ := mem_map.mp hmem
      have hkey : y.1 ∈ locals.map (·.1) := mem_map_of_mem hy
      rw [hmade.keys] at hkey
      exact ⟨e, y.1, he, by rw [← (Prod.mk.inj heq).1]; rfl, by simpa using (mem_filter.mp hkey).2⟩
  elements := by
    obtain ⟨before, hbefore, hafter⟩ := h.insts
    have hfront : front.filterMap p'.indexed? = [] := filterMap_indexed?_eq_nil <| by
      rw [h.loads, Bindings.loads, forall_mem_map]
      exact fun _ _ => rfl
    have hback : back.filterMap p'.indexed? = [] := filterMap_indexed?_eq_nil <| by
      rw [h.stores, Bindings.stores, forall_mem_map]
      exact fun _ _ => rfl
    rw [forward_eq ht', forward_eq ht, hafter, filterMap_append, filterMap_append, hback,
      List.nil_append, ← filterMap_append, ← hbefore, filterMap_append, hfront, List.nil_append]
    refine filterMap_congr fun i hi => ?_
    obtain ⟨d, hd⟩ := ht.sound.exists_inst hi
    rcases h.changed i hi d hd with hsame | ⟨hwhole, target, value, hassign⟩
    · rw [indexed?, indexed?, hsame, hd]
    · simp only [indexed?, hassign, hd, Option.filter, Inst.isIndexed_of_isWhole hwhole]
      rfl

/-- The pass succeeds, and answers with the number of stores of whole declared state variables.
Afterwards each of these variables is stored once, at the end of the last block or before the return
there, and no access to an element has changed. -/
theorem storeOnce_canonical (hverify : p.verify = .ok ()) (globals : List Variable) :
    ∃ n p', (storeOnce globals).run p = (.ok n, p') ∧
      n = p.stored.countP (fun g => g.index < globals.length) ∧ Canonical globals.length p p' := by
  obtain ⟨t, ht⟩ := exists_tree_of_verify hverify
  obtain ⟨n, p', hyield, ⟨rfl, rfl, hnone⟩ | ⟨t', locals, seeded, start, tail, front, back, post,
    hrw, _, rfl, hstored, henclosed⟩⟩ := storeOnce_yields globals ht
  · obtain ⟨hnil, hcanonical⟩ := canonical_of_storedGlobals ht hnone globals.length
    exact ⟨0, p', hyield, by rw [hnil]; rfl, hcanonical⟩
  · refine ⟨_, p', hyield, ?_, henclosed.canonical hstored ht hrw.list.spans⟩
    rw [redirectCount, Procedure.stored_eq ht, countP_filterMap]
    refine countP_congr fun i hi => ?_
    cases hg : i.storesWhole? with
    | none => simp [Inst.isRedirected, hg]
    | some g =>
      have hmem : g ∈ p.stored := Procedure.stored_eq ht ▸ mem_filterMap.mpr ⟨i, hi, hg⟩
      simp [Inst.isRedirected, hg, hstored.lookup_isSome ht hmem]

/-- The one store of the number stays one, before the last return, and the list is accessed as
before. -/
theorem storeOnce_canonical_mixed : Actor.mixed.verify = .ok () ∧ ∃ n p',
    (storeOnce (Actor.paired Actor.mixed).globals).run Actor.mixed = (.ok n, p') ∧ n = 1 ∧ p'.stored.count ⟨0⟩ = 1 ∧
      p'.forward.filterMap p'.indexed? = Actor.mixed.forward.filterMap Actor.mixed.indexed? := by
  obtain ⟨n, p', hrun, hn, hcanonical⟩ := storeOnce_canonical (p := Actor.mixed) (by decide +kernel)
    (Actor.paired Actor.mixed).globals
  refine ⟨by decide +kernel, n, p', hrun, hn.trans (by decide +kernel), ?_, hcanonical.elements⟩
  rw [hcanonical.once ⟨0⟩ (by decide)]
  decide +kernel

end Procedure

end ActorNet
