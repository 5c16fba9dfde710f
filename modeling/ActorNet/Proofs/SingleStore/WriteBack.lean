import ActorNet.Proofs.SingleStore.Redirect

/-!
# Loading first and storing last

Before the redirected code, locals are loaded for the state variables that are stored on some paths
only (`loads_step`); after it all locals are stored to their state variables (`stores_step`). A run
that comes to the stores leaves every state variable with the value it has without redirection; a
run that returns before them leaves the state variables as they were at entry (`storeOnce_step`).
-/

namespace ActorNet

open Code List

variable {P : GlobalId → Prop} {bound locals seeded : Bindings} {c d tail : Code} {g : GlobalId}
  {b : GlobalId × LocalId} {i : Inst}
  {l : LocalId} {n : Nat} {predicate v : Option Expr} {s u s' : State} {calls calls' : CallStep}
  {entry : List (Option Value)}

namespace Bindings

def loads (b : Bindings) : List (Inst × Option Expr) :=
  b.map fun x => (.load x.2 (.glob x.1) [], none)

def stores (b : Bindings) : List (Inst × Option Expr) :=
  b.map fun x => (.store (.glob x.1) [] (.var (.loc x.2)), none)

end Bindings

/-! ## Before and after -/

/-- Loading state variables into different locals binds each of the locals to the value of its
variable. -/
theorem loads_step (hnodup : (seeded.map (·.2)).Nodup) (hbound : ∀ b ∈ seeded, (s.read (.glob b.1)).isSome) :
    ∃ s', (ofLines seeded.loads).step calls s .next s' ∧ s'.toWorld = s.toWorld ∧
      (∀ id, id ∉ seeded.map (·.2) → s'.locals id = s.locals id) ∧
      ∀ b ∈ seeded, s'.locals b.2 = s.read (.glob b.1) := by
  induction seeded generalizing s with
  | nil => exact ⟨s, ⟨rfl, rfl⟩, rfl, fun _ _ => rfl, forall_mem_nil _⟩
  | cons b rest ih =>
    obtain ⟨x, hx⟩ := isSome_iff_exists.mp (hbound b mem_cons_self)
    obtain ⟨hb, hnodup⟩ := nodup_cons.mp hnodup
    obtain ⟨s', hstep, hworld, hothers, hloaded⟩ := ih hnodup (s := s.set b.2 x)
      fun b' hb' => hbound b' (mem_cons_of_mem b hb')
    refine ⟨s', .inl ⟨s.set b.2 x, ⟨x, ?_, rfl, rfl⟩, hstep⟩, hworld, ?_, ?_⟩
    · rw [State.load_nil]
      exact hx
    · intro id hid
      rw [map_cons, mem_cons, not_or] at hid
      rw [hothers id hid.2, State.set_locals_ne _ _ hid.1]
    · intro b' hb'
      rcases mem_cons.mp hb' with rfl | hb'
      · rw [hothers b'.2 hb, State.set_locals_self, hx]
      · exact hloaded b' hb'

/-- Storing locals that have the values of state variables `globals` gives the state variables these
values. -/
theorem stores_step (globals : List (Option Value)) (hvalues : ∀ b ∈ locals, b.1.index < s.globals.length ∧
      ∃ x, s.locals b.2 = some x ∧ globals[b.1.index]? = some (some x)) :
    ∃ u, (ofLines locals.stores).step calls s .next u ∧ u.locals = s.locals ∧ u.trace = s.trace ∧
      u.globals.length = s.globals.length ∧ (∀ b ∈ locals, u.globals[b.1.index]? = globals[b.1.index]?) ∧
      ∀ k, (∀ b ∈ locals, b.1.index ≠ k) → u.globals[k]? = s.globals[k]? := by
  induction locals generalizing s with
  | nil => exact ⟨s, ⟨rfl, rfl⟩, rfl, rfl, rfl, forall_mem_nil _, fun _ _ => rfl⟩
  | cons b rest ih =>
    obtain ⟨hlt, x, hx, hglobal⟩ := hvalues b mem_cons_self
    obtain ⟨u, hstep, hlocals, htrace, hlength, hstored, hothers⟩ := ih (s := s.setGlobal b.1 x) (by
      intro b' hb'
      obtain ⟨hlt', hx'⟩ := hvalues b' (mem_cons_of_mem b hb')
      refine ⟨?_, hx'⟩
      show b'.1.index < (s.globals.set _ _).length
      rw [length_set]
      exact hlt')
    have hset : ∀ k, k ≠ b.1.index → (s.setGlobal b.1 x).globals[k]? = s.globals[k]? :=
      fun k hk => getElem?_set_ne (Ne.symm hk)
    refine ⟨u, .inl ⟨s.setGlobal b.1 x, ⟨x, x, ?_, rfl, rfl, rfl⟩, hstep⟩, hlocals, htrace, ?_, ?_, ?_⟩
    · rw [State.eval_var]
      exact hx
    · rw [hlength]
      exact length_set
    · intro b' hb'
      -- the last store to a variable decides, and all of them store the same value
      by_cases hlater : ∃ b'' ∈ rest, b''.1.index = b'.1.index
      · obtain ⟨b'', hb'', heq⟩ := hlater
        rw [← heq]
        exact hstored b'' hb''
      · have hnone : ∀ b'' ∈ rest, b''.1.index ≠ b'.1.index := fun b'' hb'' heq => hlater ⟨b'', hb'', heq⟩
        rcases mem_cons.mp hb' with rfl | hb'
        · rw [hothers _ hnone, hglobal]
          exact getElem?_set_self hlt
        · exact absurd rfl (hnone b' hb')
    · intro k hk
      rw [hothers k fun b' hb' => hk b' (mem_cons_of_mem b hb'),
        hset k (Ne.symm (hk b mem_cons_self))]

section Run

/-- After the loads, what is loaded is bound. -/
lemma tracks_of_loads (hentry : s.globals = entry) (hdefined : ∀ b ∈ locals, (s.read (.glob b.1)).isSome)
    (hwhole : ∀ b ∈ locals, P b.1) (hseeded : ∀ b ∈ seeded, b ∈ locals)
    (hnodup : (seeded.map (·.2)).Nodup) (hunused : ∀ id ∈ locals.map (·.2), s.locals id = none) :
    ∃ s', (ofLines seeded.loads).step calls s .next s' ∧ Tracks P locals entry seeded s s' := by
  obtain ⟨s', hstep, hworld, hothers, hloaded⟩ := loads_step hnodup fun b hb => hdefined b (hseeded b hb)
  have hglobals : s'.globals = s.globals := congrArg World.globals hworld
  refine ⟨s', hstep, ⟨congrArg World.trace hworld, ?_, ?_, ?_⟩, congrArg List.length hentry, ?_, hunused, ?_, ?_, ?_⟩
  · intro g _
    rw [hglobals, hentry]
  · rw [hglobals, hentry]
  · refine fun id hid => hothers id fun hmem => hid ?_
    obtain ⟨b, hb, rfl⟩ := mem_map.mp hmem
    exact mem_map_of_mem (hseeded b hb)
  · exact fun g l hl => hdefined (g, l) (mem_of_lookup hl)
  · exact fun g l hl _ => hwhole (g, l) (hseeded _ (mem_of_lookup hl))
  · exact fun g l hl => hloaded (g, l) (mem_of_lookup hl)
  · intro g _
    rw [hglobals]

/-- Where every state variable that has a local is bound to it, storing the locals brings the state
variables up to date. -/
lemma Tracks.writeBack (h : Tracks P locals entry bound s s') (hdeclared : ∀ b ∈ locals, b.1.index < entry.length)
    (hlocals : ∀ b ∈ locals, locals.lookup b.1 = some b.2) (hbound : ∀ b ∈ locals, bound.lookup b.1 = some b.2) :
    ∃ u, (ofLines locals.stores).step calls s' .next u ∧ u.locals = s'.locals ∧ u.trace = s.trace ∧
      u.globals = s.globals := by
  obtain ⟨u, hstep, hlocals, htrace, hlength, hstored, hothers⟩ := stores_step s.globals (s := s') (by
    intro b hb
    obtain ⟨x, hx⟩ := isSome_iff_exists.mp (h.defined b.1 b.2 (hlocals b hb))
    refine ⟨h.length ▸ hdeclared b hb, x, ?_, Option.join_eq_some_iff.mp hx⟩
    rw [h.held b.1 b.2 (hbound b hb), hx])
  refine ⟨u, hstep, hlocals, htrace.trans h.trace, ext_getElem? fun k => ?_⟩
  by_cases hk : ∃ b ∈ locals, b.1.index = k
  · obtain ⟨b, hb, rfl⟩ := hk
    exact hstored b hb
  · have hnone : ∀ b ∈ locals, b.1.index ≠ k := fun b hb heq => hk ⟨b, hb, heq⟩
    rw [hothers k hnone]
    exact h.unstored ⟨k⟩ fun l hl => absurd rfl (hnone _ (mem_of_lookup hl))

end Run

/-! ## Which state variables are stored -/

namespace Code

/-- The stores of whole state variables in the order of the text, each with whether it is
conditional: inside of a conditional or a loop, or predicated. -/
def stores (nested : Bool) : Code → List (GlobalId × Bool)
  | done => []
  | inst i predicate rest => (i.storesWhole?.map fun g => (g, nested || predicate.isSome)).toList ++ rest.stores nested
  | branch _ t e _ rest => t.stores true ++ e.stores true ++ rest.stores nested
  | loop _ body _ rest => body.stores true ++ rest.stores nested

lemma stores_append (nested : Bool) (c d : Code) : (c.append d).stores nested = c.stores nested ++ d.stores nested := by
  induction c with
  | done => rfl
  | inst i predicate rest ih | branch condition t e phis rest _ _ ih | loop condition body phis rest _ ih =>
    simp only [append, stores, ih, List.append_assoc]

lemma not_mem_stores : (g, false) ∉ c.stores true := by
  induction c with
  | done => exact not_mem_nil
  | inst i predicate rest ih =>
    rw [stores, mem_append, not_or]
    refine ⟨fun hmem => ?_, ih⟩
    obtain ⟨_, _, heq⟩ := map_eq_some_iff.mp (Option.mem_toList.mp hmem)
    cases heq
  | branch condition t e phis rest iht ihe ih =>
    simp only [stores, mem_append, not_or]
    exact ⟨⟨iht, ihe⟩, ih⟩
  | loop condition body phis rest ihb ih =>
    simp only [stores, mem_append, not_or]
    exact ⟨ihb, ih⟩

lemma storesWhole?_phis (phis : List Phi) : (phis.map Phi.inst).filterMap Inst.storesWhole? = [] := by
  rw [filterMap_map]
  exact filterMap_eq_nil_iff.mpr fun _ _ => rfl

lemma map_stores (nested : Bool) (c : Code) : (c.stores nested).map (·.1) = c.insts.filterMap Inst.storesWhole? := by
  induction c generalizing nested with
  | done => rfl
  | inst i predicate rest ih =>
    rw [stores, insts, map_append, ih, filterMap_cons]
    cases i.storesWhole? <;> rfl
  | branch condition t e phis rest iht ihe ih =>
    simp only [stores, insts, map_append, filterMap_append, iht, ihe, ih, storesWhole?_phis, List.append_nil]
  | loop condition body phis rest ihb ih =>
    simp only [stores, insts, map_append, filterMap_append, ihb, ih, storesWhole?_phis, List.nil_append]

lemma exists_mem_stores (nested : Bool) (hi : i ∈ c.insts) (hg : i.storesWhole? = some g) :
    ∃ flag, (g, flag) ∈ c.stores nested := by
  have hmem : g ∈ (c.stores nested).map (·.1) := map_stores nested c ▸ mem_filterMap.mpr ⟨i, hi, hg⟩
  simpa using hmem

lemma exists_mem_insts_of_stores {flag nested : Bool} (h : (g, flag) ∈ c.stores nested) :
    ∃ i ∈ c.insts, i.storesWhole? = some g := by
  have hmem : g ∈ (c.stores nested).map (·.1) := mem_map_of_mem h
  rw [map_stores] at hmem
  exact mem_filterMap.mp hmem

lemma mem_stores_of_mem_insts (hi : i ∈ c.insts) (hg : i.storesWhole? = some g) : (g, true) ∈ c.stores true := by
  obtain ⟨flag, h⟩ := exists_mem_stores true hi hg
  cases flag with
  | true => exact h
  | false => exact absurd h not_mem_stores

lemma nestedStores_of_stores {P : GlobalId → Prop} (h : ∀ g, (g, true) ∈ c.stores false → P g) : c.NestedStores P := by
  induction c with
  | done => exact trivial
  | inst i predicate rest ih => exact ih fun g hg => h g (mem_append_right _ hg)
  | branch condition t e phis rest _ _ ih =>
    refine ⟨fun i hi g hg => h g (mem_append_left _ ?_), ih fun g hg => h g (mem_append_right _ hg)⟩
    rcases mem_append.mp hi with hi | hi
    · exact mem_append_left _ (mem_stores_of_mem_insts hi hg)
    · exact mem_append_right _ (mem_stores_of_mem_insts hi hg)
  | loop condition body phis rest _ ih =>
    exact ⟨fun i hi g hg => h g (mem_append_left _ (mem_stores_of_mem_insts hi hg)),
      ih fun g hg => h g (mem_append_right _ hg)⟩

lemma lookup_bindings (hl : locals.lookup g = some l) (h : bound.lookup g = some l ∨
    (g, false) ∈ c.stores false) : (c.bindings locals bound).lookup g = some l := by
  induction c generalizing bound with
  | done => exact h.resolve_right nofun
  | inst i predicate rest ih =>
    refine ih ?_
    rw [stores, mem_append, ← or_assoc] at h
    refine h.imp_left fun h => lookup_redirected hl (h.imp_right fun hmem => ?_)
    obtain ⟨g', hg', heq⟩ := map_eq_some_iff.mp (Option.mem_toList.mp hmem)
    rw [hg', (Prod.mk.inj heq).1]
  | branch condition t e phis rest _ _ ih | loop condition body phis rest _ ih =>
    refine ih (h.imp_right fun hmem => ?_)
    simp only [stores, mem_append, not_mem_stores, false_or] at hmem
    exact hmem

end Code

namespace Code

/-- Redirection neither makes a return nor loses one. -/
lemma exists_of_redirect_eq_append_ret (h : c.redirect locals bound = d.append (.inst (.ret v) predicate .done)) :
    ∃ c0 : Code, c = c0.append (.inst (.ret v) predicate .done) ∧ d = c0.redirect locals bound := by
  induction c generalizing bound d with
  | done => cases d <;> cases h
  | inst i p rest ih =>
    cases d with
    | done =>
      rw [append, redirect, inst.injEq] at h
      obtain ⟨hi, rfl, hrest⟩ := h
      have hret : i = .ret v := by
        rcases Inst.redirected_cases locals bound i with ⟨_, _, _, rfl, _, heq⟩ | ⟨_, _, _, rfl, _, heq⟩ |
          ⟨_, _, rfl, _, heq⟩ | ⟨_, _, heq⟩
        all_goals
          rw [heq] at hi
          first | exact hi | cases hi
      have hdone : rest = done := by cases rest <;> first | rfl | cases hrest
      exact ⟨done, by rw [hret, hdone, append], rfl⟩
    | inst i' p' d =>
      rw [append, redirect, inst.injEq] at h
      obtain ⟨rfl, rfl, hrest⟩ := h
      obtain ⟨c0, rfl, rfl⟩ := ih hrest
      exact ⟨inst i p c0, rfl, rfl⟩
    | branch | loop => cases h
  | branch condition t e phis rest _ _ ih =>
    cases d with
    | branch condition' t' e' phis' d =>
      rw [append, redirect, branch.injEq] at h
      obtain ⟨rfl, rfl, rfl, rfl, hrest⟩ := h
      obtain ⟨c0, rfl, rfl⟩ := ih hrest
      exact ⟨branch condition t e phis c0, rfl, rfl⟩
    | done | inst | loop => cases h
  | loop condition body phis rest _ ih =>
    cases d with
    | loop condition' body' phis' d =>
      rw [append, redirect, loop.injEq] at h
      obtain ⟨rfl, rfl, rfl, hrest⟩ := h
      obtain ⟨c0, rfl, rfl⟩ := ih hrest
      exact ⟨loop condition body phis c0, rfl, rfl⟩
    | done | inst | branch => cases h

lemma exists_of_loads_append_eq (h : (ofLines seeded.loads).append c = d.append (.inst (.ret v) predicate .done)) :
    ∃ d0 : Code, d = (ofLines seeded.loads).append d0 ∧ c = d0.append (.inst (.ret v) predicate .done) := by
  induction seeded generalizing d with
  | nil => exact ⟨d, rfl, h⟩
  | cons b rest ih =>
    cases d with
    | inst i p d =>
      rw [Bindings.loads, map_cons, ofLines, append, append, inst.injEq] at h
      obtain ⟨rfl, rfl, hrest⟩ := h
      obtain ⟨d0, rfl, hc⟩ := ih hrest
      exact ⟨d0, rfl, hc⟩
    | done | branch | loop => cases h

end Code

/-! ## A whole run -/

/-- Locals for the state variables that code stores, and those of them that are loaded before it. -/
structure Plan (P : GlobalId → Prop) (locals seeded : Bindings) (n : Nat) (c : Code) : Prop where
  variables_nodup : (locals.map (·.1)).Nodup
  locals_nodup : (locals.map (·.2)).Nodup
  declared : ∀ b ∈ locals, b.1.index < n
  whole : ∀ b ∈ locals, P b.1
  sublist : seeded.Sublist locals
  fresh : ∀ l ∈ locals.map (·.2), l ∉ c.writes
  stored : ∀ x ∈ c.stores false, x.1.index < n → ∃ l, (x.1, l) ∈ locals
  conditional : ∀ b ∈ locals, (b.1, true) ∈ c.stores false → b ∈ seeded
  unconditional : ∀ b ∈ locals, b ∉ seeded → (b.1, false) ∈ c.stores false

namespace Plan

section

variable (h : Plan P locals seeded n c)
include h

lemma assigned : Assigned P locals n where
  injective := by
    intro g g' l hg hg'
    have hpair := inj_on_of_nodup_map h.locals_nodup (mem_of_lookup hg) (mem_of_lookup hg') rfl
    exact congrArg Prod.fst hpair
  declared := fun g l hl => h.declared (g, l) (mem_of_lookup hl)
  whole := fun g l hl => h.whole (g, l) (mem_of_lookup hl)

lemma lookup (hb : b ∈ locals) : locals.lookup b.1 = some b.2 :=
  lookup_of_mem h.variables_nodup hb

lemma lookup_seeded (hb : b ∈ seeded) : seeded.lookup b.1 = some b.2 :=
  lookup_of_mem (h.variables_nodup.sublist (h.sublist.map _)) hb

lemma lookup_of_seeded (hl : seeded.lookup g = some l) : locals.lookup g = some l :=
  h.lookup (b := (g, l)) (h.sublist.subset (mem_of_lookup hl))

lemma admits : Admits locals seeded c.writes where
  own := fun _ _ hl => .inl (h.lookup_of_seeded hl)
  kept := fun _ l hl => h.fresh l (mem_map_of_mem (h.sublist.subset (mem_of_lookup hl)))
  fresh := h.fresh

lemma nestedStores : c.NestedStores fun g => ∀ t, locals.lookup g = some t → seeded.lookup g = some t :=
  nestedStores_of_stores fun g hg t ht => h.lookup_seeded (b := (g, t)) (h.conditional _ (mem_of_lookup ht) hg)

lemma lookup_bindings (hb : b ∈ locals) : (c.bindings locals seeded).lookup b.1 = some b.2 := by
  refine Code.lookup_bindings (h.lookup hb) ?_
  by_cases hs : b ∈ seeded
  · exact .inl (h.lookup_seeded hs)
  · exact .inr (h.unconditional b hb hs)

end

end Plan

section Run

/-- What comes after the stores: nothing, or a return. -/
def IsTail (c : Code) : Prop :=
  c = .done ∨ ∃ v, c = .inst (.ret v) none .done

/-- What comes after the stores does the same in every state that reads the same. -/
lemma IsTail.transfer (htail : IsTail tail) (hc : tail.Redirectable P locals n) {t t' : State}
    {f : Flow} (hreads : ∀ v x, ¬ v.IsOf P → t.read v = some x → t'.read v = some x)
    (hstep : tail.step calls t f u) : u = t ∧ tail.step calls' t' f t' := by
  rcases htail with rfl | ⟨v, rfl⟩
  · obtain ⟨hf, hu⟩ := hstep
    exact ⟨hu, hf, rfl⟩
  · obtain ⟨⟨_, _, hwhole, _⟩, _⟩ := hc
    have huses : ∀ w ∈ (Inst.ret v).reads, ¬ w.IsOf P := by
      rcases hwhole.parts with hwhole | ⟨huses, _⟩
      · cases hwhole
      · exact huses
    rcases hstep with ⟨r, hret, _⟩ | ⟨r, hf, hret⟩
    · -- a return does not go on
      cases v with
      | none => cases hret.1
      | some v =>
        obtain ⟨_, _, hf, _⟩ := hret
        cases hf
    · rcases Inst.step_transfer calls' rfl (fun w hw x => hreads w x (huses w hw)) hret with
        ⟨_, _, hw, _⟩ | ⟨r', hr', hu, hret'⟩
      · cases hw
      · cases hr'
        subst hf
        exact ⟨hu, .inr ⟨r, rfl, hret'⟩⟩

/-- A run of the code with loads before it, locals in the place of state variables and stores after
it. If the run comes to the stores, the state variables are as after the code; if it returns before
them, those that are kept in locals are as at entry. -/
theorem storeOnce_step (calls' : CallStep) (hplan : Plan P locals seeded entry.length c)
    (hc : c.Redirectable P locals entry.length) (htail : IsTail tail) (htailc : tail.Redirectable P locals entry.length)
    (hnodup : c.writes.Nodup) (hentry : s.globals = entry) (hdefined : ∀ b ∈ locals, (s.read (.glob b.1)).isSome)
    (hunused : ∀ id ∈ locals.map (·.2), s.locals id = none) {f : Flow} (hstep : (c.append tail).step calls s f u) :
    ∃ u', ((ofLines seeded.loads).append ((c.redirect locals seeded).append
        ((ofLines locals.stores).append tail))).step calls' s f u' ∧ u'.trace = u.trace ∧
      (∀ id, id ∉ locals.map (·.2) → u'.locals id = u.locals id) ∧
      (u'.globals = u.globals ∨ Ended P locals entry u u' ∧ ∃ r, c.step calls s (.ret r) u) := by
  obtain ⟨s', hloads, htracks⟩ := tracks_of_loads hentry hdefined hplan.whole (fun b hb => hplan.sublist.subset hb)
    (hplan.locals_nodup.sublist (hplan.sublist.map _)) hunused
  have hsim : Step.Sim (Tracks P locals entry seeded) (Tracks P locals entry (c.bindings locals seeded))
      (Ended P locals entry) (c.step calls) ((c.redirect locals seeded).step calls') :=
    redirect_sim hplan.assigned (fun g t => hplan.lookup_of_seeded) hc hplan.nestedStores (fun _ _ h => h) hplan.admits
      hnodup
  rw [step_append] at hstep
  simp only [step_append]
  rcases hstep with ⟨t, hcode, htail'⟩ | ⟨r, rfl, hcode⟩
  · obtain ⟨t', hcode', ht⟩ := hsim s s' .next t htracks hcode
    obtain ⟨w, hstores, hlocals, htrace, hglobals⟩ := ht.writeBack hplan.declared (fun b hb => hplan.lookup hb)
      fun b hb => hplan.lookup_bindings hb
    have hreads : ∀ v x, ¬ v.IsOf P → t.read v = some x → w.read v = some x := by
      intro v x hv hx
      cases v with
      | loc id =>
        rw [State.read_loc, hlocals]
        exact ht.read hplan.assigned hv hx
      | glob g =>
        rw [State.read, hglobals]
        exact hx
    obtain ⟨rfl, htail''⟩ := htail.transfer htailc hreads htail'
    refine ⟨w, .inl ⟨s', hloads, .inl ⟨t', hcode', .inl ⟨w, hstores, htail''⟩⟩⟩, htrace, ?_, .inl hglobals⟩
    rw [hlocals]
    exact ht.others
  · obtain ⟨u', hcode', hend⟩ := hsim s s' (.ret r) u htracks hcode
    exact ⟨u', .inl ⟨s', hloads, .inr ⟨r, rfl, hcode'⟩⟩, hend.trace, hend.others, .inr ⟨hend, r, hcode⟩⟩

end Run

end ActorNet
