import ActorNet.Proofs.SingleStore.Ends
import ActorNet.Proofs.Structure.Parts

/-!
# State variables after a run with a single store

A call of a procedure whose state variables are kept in locals succeeds whenever the call of the
procedure did, with the same result. If the run comes to the end of the procedure, the state
variables are the same as well. A run that returns before that passes by the stores: it leaves the
state variables as they were when the procedure was entered.
-/

namespace ActorNet

open List

namespace Procedure

variable {p p' : Procedure}

/-- What keeping the state variables of an actor in locals asks of a procedure, if the actor has `n`
of them. -/
@[mk_iff]
structure Storable (n : Nat) (p : Procedure) : Prop where
  callFree : ∀ d ∈ p.allInsts, d.inst.isCall = false
  unpredicated : p.Unpredicated
  single : p.SingleAssignment
  /-- Instructions load and store state variables only as a whole. -/
  whole : ∀ d ∈ p.allInsts, d.inst.Whole n
  /-- Conditions read no state variable. -/
  conditions : ∀ node ∈ p.parts, ∀ condition ∈ node.condition?, ∀ v ∈ condition.uses, ¬ v.Declared n
  /-- The locals that are made for state variables are not those of a store. -/
  stores : p.StoresLive

instance (n : Nat) (p : Procedure) : Decidable (p.Storable n) :=
  decidable_of_iff' _ (storable_iff _ _)

/-- What keeping those of `n` state variables that have a property in locals asks of a procedure. -/
structure Keepable (P : GlobalId → Prop) (n : Nat) (p : Procedure) : Prop where
  callFree : ∀ d ∈ p.allInsts, d.inst.isCall = false
  unpredicated : p.Unpredicated
  once : p.written.Nodup
  whole : ∀ d ∈ p.allInsts, d.inst.WholeOf P n
  conditions : ∀ node ∈ p.parts, ∀ condition ∈ node.condition?, ∀ v ∈ condition.uses, ¬ v.IsOf P
  stores : p.StoresLive

lemma Storable.keepable {n : Nat} (h : p.Storable n) : p.Keepable (·.index < n) n where
  callFree := h.callFree
  unpredicated := h.unpredicated
  once := h.single.once
  whole := by
    have heq : VarRef.IsOf (·.index < n) = VarRef.Declared n := by
      funext v
      cases v <;> rfl
    refine fun d hd => ⟨fun _ _ _ hlt => hlt, fun _ _ hlt => hlt, ?_⟩
    rw [heq]
    exact h.whole d hd
  conditions := by
    intro node hnode condition hcondition v hv
    have hnot := h.conditions node hnode condition hcondition v hv
    cases v <;> exact hnot
  stores := h.stores

/-! ## Where a run returns -/

/-- A return stands at the end of the last block. -/
def EndsInReturn (p : Procedure) : Prop :=
  ∃ b i, p.body.getLast? = some b ∧ p.trailingReturn? b = some i

def ReturnsAtEnd (p : Procedure) : Prop :=
  ∀ i ∈ p.forward, ∀ d ∈ p.inst? i, d.inst.isReturn = true → ∃ b ∈ p.body.getLast?, p.trailingReturn? b = some i
deriving Decidable

/-- The run of the procedure that starts with the given arguments and state variables returns
somewhere else than at a return at the end of the last block. -/
def ReturnsEarly (p : Procedure) (id : ProcId) (args : List Value) (w : World) : Prop :=
  ∃ (t : Tree) (start tail : Code) (r : Option Value) (u : State), t.Spans p ∧
    t.code p = start.append tail ∧ (p.EndsInReturn → tail ≠ .done) ∧
    start.step (fun _ _ _ _ _ => False) (w.enter id p args) (.ret r) u

/-- What is left of the code without the return at its end has no return. -/
lemma ReturnsAtEnd.not_mem (h : p.ReturnsAtEnd) {t : Tree} (ht : t.Spans p)
    {start tail : Code} (hcode : t.code p = start.append tail)
    (htail : tail = .done ∨ ∃ v predicate, tail = .inst (.ret v) predicate .done)
    (htrailing : p.EndsInReturn → tail ≠ .done) : ∀ i ∈ start.insts, i.isReturn = false := by
  intro j hj
  by_contra hne
  have hret : j.isReturn = true := by simpa using hne
  have hinsts : (t.insts.filterMap p.inst?).map (·.inst) = start.insts ++ tail.insts := by
    rw [← insts_code ht.sound.phis, hcode, Code.insts_append]
  obtain ⟨d, hd, rfl⟩ := mem_map.mp (hinsts ▸ mem_append_left _ hj)
  obtain ⟨i, hi, hinst⟩ := mem_filterMap.mp hd
  have hend : ∀ i ∈ t.insts, ∀ d ∈ p.inst? i, d.inst.isReturn = true →
      ∃ b ∈ p.body.getLast?, p.trailingReturn? b = some i := by
    rw [← forward_eq ht]
    exact h
  obtain ⟨b, hb, htr⟩ := hend i hi d hinst hret
  -- there is one return at most, for each of them is the one at the end
  have hcount : ((t.insts.filterMap p.inst?).map (·.inst)).countP Inst.isReturn ≤ 1 := by
    rw [countP_map, countP_filterMap, countP_eq_length_filter]
    refine ((ht.sound.insts_nodup.filter _).subperm fun k hk => ?_ : List.Subperm _ [i]).length_le
    obtain ⟨hk, hkret⟩ := mem_filter.mp hk
    cases hdk : p.inst? k with
    | none =>
      rw [hdk] at hkret
      cases hkret
    | some dk =>
      rw [hdk] at hkret
      obtain ⟨b', hb', htr'⟩ := hend k hk dk hdk hkret
      cases hb.symm.trans hb'
      exact mem_singleton.mpr (Option.some.inj (htr'.symm.trans htr))
  have hstart : 1 ≤ start.insts.countP Inst.isReturn := countP_pos_iff.mpr ⟨_, hj, hret⟩
  rw [hinsts, countP_append] at hcount
  rcases htail with htail | ⟨v, predicate, rfl⟩
  · exact htrailing ⟨b, i, hb, htr⟩ htail
  · have hone : (Code.inst (.ret v) predicate .done).insts.countP Inst.isReturn = 1 := rfl
    omega

/-! ## The locals of the pass -/

section StoredOnce

variable {P : GlobalId → Prop} {globals : List Variable} {t : Tree} {c' start tail : Code} {locals seeded : Bindings}

section

variable (h : StoredOnce globals p (t.code p) c' locals seeded start tail) (ht : t.Spans p)
include h ht

lemma StoredOnce.stores : start.stores false = p.wholeStores := by
  rw [wholeStores_eq ht, h.split, Code.stores_append]
  rcases h.ending with rfl | ⟨v, predicate, rfl⟩ <;> exact (List.append_nil _).symm

lemma StoredOnce.writes : start.writes = p.written := by
  rw [← writes_code ht, h.split, Code.writes, Code.writes, Code.insts_append, filterMap_append]
  rcases h.ending with rfl | ⟨v, predicate, rfl⟩ <;> exact (List.append_nil _).symm

lemma StoredOnce.exists_inst {b : GlobalId × LocalId} (hb : b ∈ locals) :
    ∃ d ∈ p.allInsts, d.inst.storesWhole? = some b.1 := by
  obtain ⟨p1, hmade⟩ := h.made
  obtain ⟨flag, hmem, _⟩ := hmade.flags b hb
  obtain ⟨x, hx, heq⟩ := mem_map.mp (mem_storedGlobals.mp hmem).1
  rw [wholeStores_eq ht] at hx
  obtain ⟨i, hi, hg⟩ := Code.exists_mem_insts_of_stores hx
  rw [insts_code_eq ht] at hi
  obtain ⟨d, hd, rfl⟩ := mem_map.mp hi
  exact ⟨d, hd, heq ▸ hg⟩

lemma StoredOnce.plan (hlive : ∀ id ∈ p.written, (p.local? id).isSome)
    (hp : p.Keepable P globals.length) : Plan P locals seeded globals.length start := by
  have hstores := h.stores ht
  obtain ⟨p1, hmade⟩ := h.made
  have hflag : ∀ {g : GlobalId} {flag flag' : Bool}, (g, flag) ∈ p.storedGlobals → (g, flag') ∈ p.storedGlobals →
      flag = flag' := fun hf hf' => (mem_storedGlobals.mp hf).2.trans (mem_storedGlobals.mp hf').2.symm
  have hkey : ∀ g, g ∈ locals.map (·.1) ↔ g ∈ p.storedGlobals.map (·.1) ∧ g.index < globals.length := by
    intro g
    rw [hmade.keys, mem_filter, decide_eq_true_iff]
  have hdeclared : ∀ b ∈ locals, b.1.index < globals.length := fun b hb => ((hkey b.1).mp (mem_map_of_mem hb)).2
  refine ⟨?_, hmade.nodup, hdeclared, ?_, hmade.sublist, ?_, ?_, ?_, ?_⟩
  · rw [hmade.keys]
    exact p.storedGlobals_nodup.filter _
  · intro b hb
    obtain ⟨d, hd, hg⟩ := h.exists_inst ht hb
    exact (hp.whole d hd).stored b.1 hg (hdeclared b hb)
  · intro l hl hwritten
    rw [h.writes ht] at hwritten
    obtain ⟨b, hb, rfl⟩ := mem_map.mp hl
    exact Nat.not_lt.mpr (hmade.new b hb) (index_lt_of_local? (hlive _ hwritten))
  · intro x hx hlt
    rw [hstores] at hx
    have hstored : (x.1, p.wholeStores.any fun s => s.1 = x.1 && s.2) ∈ p.storedGlobals :=
      mem_storedGlobals.mpr ⟨mem_map_of_mem hx, rfl⟩
    obtain ⟨b, hb, heq⟩ := mem_map.mp ((hkey x.1).mpr ⟨mem_map.mpr ⟨_, hstored, rfl⟩, hlt⟩)
    exact ⟨b.2, heq ▸ hb⟩
  · intro b hb hcond
    rw [hstores] at hcond
    obtain ⟨flag, hmem, hseeded⟩ := hmade.flags b hb
    exact hseeded (hflag hmem (mem_storedGlobals_of_conditional hcond))
  · intro b hb hnot
    rw [hstores]
    obtain ⟨flag, hmem, hseeded⟩ := hmade.flags b hb
    cases flag with
    | true => exact absurd (hseeded rfl) hnot
    | false => exact mem_wholeStores_of_unconditional hmem

/-- The state variables are only loaded and stored as a whole all through the code, and those that
are stored have locals. -/
lemma StoredOnce.redirectable (hp : p.Keepable P globals.length)
    (hplan : Plan P locals seeded globals.length start) : (t.code p).Redirectable P locals globals.length := by
  have harms : ∀ node join, node.join? = some join → join ∈ p.nodesIn p.body → ∀ φ ∈ p.joinPhis node, ∀ arm ∈ φ.arms,
      ¬ arm.var.IsOf P := by
    intro node join hjoin hmem φ hφ arm harm
    obtain ⟨d, hd, hinst⟩ := exists_inst_of_mem_phis (mem_phis_of_joinPhis hjoin hmem hφ)
    rcases (hp.whole d hd).parts with hload | ⟨huses, _⟩
    · rw [hinst] at hload
      cases hload
    · refine huses arm.var ?_
      rw [hinst]
      exact mem_flatMap.mpr ⟨arm, harm, mem_cons_self⟩
  refine forall_code ?_ ?_ ?_ ht
  · intro d _ hd
    refine ⟨hp.unpredicated d hd, hp.callFree d hd, hp.whole d hd, fun g hg hnone => ?_⟩
    by_contra hlt
    -- a store in the procedure is one of the code, so its state variable has a local
    have hinst : d.inst ∈ (t.code p).insts := by
      rw [insts_code ht.sound.phis, ← forward_eq ht]
      exact mem_map_of_mem hd
    obtain ⟨flag, hmem⟩ := Code.exists_mem_stores false hinst hg
    rw [← wholeStores_eq ht, ← h.stores ht] at hmem
    obtain ⟨l, hl⟩ := hplan.stored _ hmem (Nat.not_le.mp hlt)
    rw [hplan.lookup hl] at hnone
    cases hnone
  · exact fun c ts es j hnode hj => ⟨hp.conditions _ hnode c rfl, harms _ j rfl hj⟩
  · exact fun c bs j hnode hj => ⟨hp.conditions _ hnode c rfl, harms _ j rfl hj⟩

end

end StoredOnce

/-- What a run of the procedure does, a run does after the pass, and the locals of the procedure end
with the same values. The state variables are the same if the first run comes to the end; otherwise
those that are kept in locals are those at entry. -/
lemma Keepable.storeOnce_yields {P : GlobalId → Prop} {globals : List Variable}
    (hp : p.Keepable P globals.length) (hverify : p.verify = .ok ()) :
    ∃ n p', Yields (storeOnce globals) p n p' ∧ p'.native = p.native ∧ p'.params = p.params ∧
      p.BoundsTemps p' ∧ ∃ t' : Tree, t'.Spans p' ∧ ∃ t : Tree, t.Spans p ∧ ∀ (calls' : CallStep)
        (w : World) (id : ProcId) (args : List Value) (f : Flow) (u : State), w.globals.length =
          globals.length → (∀ d ∈ p.allInsts, ∀ g ∈ d.inst.storesWhole?, g.index < globals.length →
          w.globals[g.index]?.join.isSome) →
          (∀ calls, (t.code p).step calls (w.enter id p args) f u) → ∃ u', (t'.code p').step calls'
          (w.enter id p args) f u' ∧ u'.trace = u.trace ∧ (∀ l, (p.local? l).isSome →
            u'.locals l = u.locals l) ∧ (p.ReturnsAtEnd → u'.globals = u.globals) ∧
            (u'.globals = u.globals ∨ (∀ g, P g → u'.globals[g.index]? = w.globals[g.index]?) ∧
              u'.globals.length = w.globals.length ∧ p.ReturnsEarly id args w) := by
  obtain ⟨t, ht⟩ := exists_tree_of_verify hverify
  obtain ⟨n, p', hyield, ⟨hsame, _⟩ | ⟨t', locals, seeded, start, tail, _, _, _, hrw, _, _, hstored, _⟩⟩ :=
    Procedure.storeOnce_yields globals ht
  · subst hsame
    exact ⟨n, p', hyield, rfl, rfl, Nat.le_refl _, t, ht, t, ht,
      fun calls' w id args f u _ _ hstep => ⟨u, hstep calls', rfl, fun _ _ => rfl, fun _ => rfl, .inl rfl⟩⟩
  · refine ⟨n, p', hyield, hrw.edits.native, hrw.edits.params, hrw.edits.temps, t', hrw.list.spans, t, ht, ?_⟩
    intro calls' w id args f u hlength hdefined hstep
    have hplan := hstored.plan ht (hp.stores.written hverify) hp
    have hcode := hstored.redirectable ht hp hplan
    rw [hstored.split, Code.Redirectable, Code.forall_append] at hcode
    have hending : IsTail tail := by
      rcases hstored.ending with rfl | ⟨v, predicate, rfl⟩
      · exact .inl rfl
      · obtain ⟨⟨rfl, _⟩, _⟩ := hcode.2
        exact .inr ⟨v, rfl⟩
    have hnew : ∀ l, (p.local? l).isSome → l ∉ locals.map (·.2) := by
      intro l hl hmem
      obtain ⟨p1, hmade⟩ := hstored.made
      obtain ⟨b, hb, rfl⟩ := mem_map.mp hmem
      exact Nat.not_lt.mpr (hmade.new b hb) (index_lt_of_local? hl)
    have hunused : ∀ l ∈ locals.map (·.2), (w.enter id p args).locals l = none := fun l hl =>
      Env.ofArgs_get?_of_not_mem fun hparam => hnew l (params_live_of_verify hverify l hparam) hl
    have hentry : ∀ b ∈ locals, ((w.enter id p args).read (.glob b.1)).isSome := by
      intro b hb
      obtain ⟨d, hd, hg⟩ := hstored.exists_inst ht hb
      exact hdefined d hd b.1 hg (hplan.declared b hb)
    have hrun := hstep fun _ _ _ _ _ => False
    rw [hstored.split] at hrun
    rw [← hlength] at hplan hcode
    have hnodup : start.writes.Nodup := by
      rw [hstored.writes ht]
      exact hp.once
    obtain ⟨u', hstep', htrace, hlocals, hglobals⟩ :=
      storeOnce_step calls' (s := w.enter id p args) hplan hcode.1 hending hcode.2 hnodup rfl hentry hunused hrun
    rw [← hstored.code] at hstep'
    have htrailing : p.EndsInReturn → tail ≠ .done := by
      rintro ⟨b, i, hb, hi⟩
      exact hstored.trailing b i hb hi
    refine ⟨u', hstep', htrace, fun l hl => hlocals l (hnew l hl), fun hend => ?_, ?_⟩
    · rcases hglobals with hsame | ⟨_, r, hret⟩
      · exact hsame
      · obtain ⟨i, hi, hreturn⟩ := Code.exists_return_of_step hret
        rw [hend.not_mem ht hstored.split hstored.ending htrailing i hi] at hreturn
        cases hreturn
    · rcases hglobals with hsame | ⟨hend, r, hret⟩
      · exact .inl hsame
      · exact .inr ⟨hend.unchanged, hend.length, t, start, tail, r, u, ht, hstored.split, htrailing, hret⟩

/-- Where all state variables are kept in locals, a run that does not come to the end leaves all of
them as at entry. -/
lemma Storable.storeOnce_yields {globals : List Variable} (hp : p.Storable globals.length)
    (hverify : p.verify = .ok ()) : ∃ n p', Yields (storeOnce globals) p n p' ∧
      p'.native = p.native ∧ p'.params = p.params ∧ p.BoundsTemps p' ∧ ∃ t' : Tree, t'.Spans p' ∧
        ∃ t : Tree, t.Spans p ∧ ∀ (calls' : CallStep) (w : World) (id : ProcId) (args : List Value)
          (f : Flow) (u : State), w.globals.length = globals.length → (∀ x ∈ w.globals, x.isSome) →
          (∀ calls, (t.code p).step calls (w.enter id p args) f u) →
          ∃ u', (t'.code p').step calls' (w.enter id p args) f u' ∧ u'.trace = u.trace ∧
            (p.ReturnsAtEnd → u'.globals = u.globals) ∧
            (u'.globals = u.globals ∨ u'.globals = w.globals ∧ p.ReturnsEarly id args w) := by
  obtain ⟨n, p', hyield, hnative, hparams, htemps, t', ht', t, ht, hrun⟩ :=
    hp.keepable.storeOnce_yields hverify
  refine ⟨n, p', hyield, hnative, hparams, htemps, t', ht', t, ht, ?_⟩
  intro calls' w id args f u hlength hdefined hstep
  obtain ⟨u', hstep', htrace, _, hend, hglobals⟩ := hrun calls' w id args f u hlength (by
    intro d _ g _ hlt
    rw [← hlength] at hlt
    rw [getElem?_eq_getElem hlt]
    exact hdefined _ (getElem_mem hlt)) hstep
  refine ⟨u', hstep', htrace, hend,
    hglobals.imp_right fun ⟨hunchanged, hsame, hearly⟩ => ⟨ext_getElem? fun k => ?_, hearly⟩⟩
  by_cases hk : k < w.globals.length
  · exact hunchanged ⟨k⟩ (hlength ▸ hk)
  · rw [getElem?_eq_none (Nat.not_lt.mp hk), getElem?_eq_none (hsame ▸ Nat.not_lt.mp hk)]

end Procedure

namespace Actor

/-- The pass succeeds on a procedure, the counter of temporaries stays bounded, and a call of the new
procedure succeeds whenever the call of the procedure did, with the same result. The state variables
are the same afterwards if the procedure returns only at its end, and also if this run of it does;
otherwise they are what they were before the call. -/
theorem call_storeOnce {a : Actor} {id : ProcId} {p : Procedure} (hp : a.proc? id = some p)
    (hverify : p.verify = .ok ()) (h : p.Storable a.globals.length) :
    ∃ n p', (Procedure.storeOnce a.globals).run p = (.ok n, p') ∧ p.BoundsTemps p' ∧ ∀ a' : Actor,
      a'.proc? id = some p' → ∀ (limits : Limits) (args : List Value) (m m' : Machine)
        (v : Option Value), m.globals.length = a.globals.length → (∀ x ∈ m.globals, x.isSome) →
        (Machine.call a limits id args).on m = (.ok v, m') →
        ∃ bound, ∀ limits' : Limits, m.depth < limits'.maxDepth → bound ≤ limits'.maxSteps →
          ∃ m'', (Machine.call a' limits' id args).on m = (.ok v, m'') ∧ m''.trace = m'.trace ∧
            (p.ReturnsAtEnd → m''.globals = m'.globals) ∧ (m''.globals = m'.globals ∨
            m''.globals = m.globals ∧ p.ReturnsEarly id args m.world) := by
  obtain ⟨n, p', hyield, hnative, hparams, htemps, t', ht', t, ht, hrun⟩ := h.storeOnce_yields hverify
  refine ⟨n, p', hyield, htemps, fun a' hp' limits args m m' v hlength hdefined hcall => ?_⟩
  have hfree := Procedure.not_hasCall ht h.callFree
  -- the run is the same whatever calls mean, for there are none
  obtain ⟨hnative₀, hlen, f, u, hstep, rfl, hworld⟩ :=
    step_of_call hcall hp ht hfree fun _ _ _ _ _ => False
  obtain ⟨u', hstep', htrace, hend, hglobals⟩ := hrun (a'.calls 0) m.world id args f u hlength hdefined
    fun calls => Code.step_mono (fun _ _ _ _ _ hfalse => hfalse.elim) _ hstep
  obtain ⟨bound, hbound⟩ := call_locals_of_step hp' (hnative.trans hnative₀) hparams hlen ht' hstep'
  refine ⟨bound, fun limits' hdepth hsteps => ?_⟩
  obtain ⟨m'', _, hcall', hworld', _⟩ := hbound limits' hdepth hsteps
  have hm' : m'.globals = u.globals := congrArg World.globals hworld
  have hm'' : m''.globals = u'.globals := congrArg World.globals hworld'
  refine ⟨m'', hcall', ?_, fun hp => ?_, ?_⟩
  · calc m''.trace = u'.trace := congrArg World.trace hworld'
      _ = u.trace := htrace
      _ = m'.trace := (congrArg World.trace hworld).symm
  · rw [hm', hm'', hend hp]
  · rw [hm', hm'']
    exact hglobals

/-- A procedure that adds the numbers below its argument to the state variable, and returns it. -/
def raise : Procedure :=
  { name := "raise", params := [⟨0⟩], returnTy := .int 32
    locals := .full [{ name := "n", ty := .int 32 }, { name := "i", ty := .int 32 }, { name := "k", ty := .int 32 },
      { name := "z", ty := .int 32 }, { name := "t", ty := .int 32 }, { name := "r", ty := .int 32 }]
    nodes := .full [.block [⟨0⟩], .block [⟨1⟩],
      .loop (.binary .lt (.var (.loc ⟨1⟩)) (.var (.loc ⟨0⟩)) .bool) [⟨3⟩] ⟨1⟩, .block [⟨2⟩, ⟨3⟩, ⟨4⟩], .block [⟨5⟩, ⟨6⟩]]
    insts := .full [{ inst := .assign ⟨3⟩ (.int 0 (.int 32)), block := ⟨0⟩ },
      { inst := .phi ⟨1⟩ [⟨.entry, .loc ⟨3⟩, none⟩, ⟨.back, .loc ⟨2⟩, none⟩], block := ⟨1⟩ },
      { inst := .load ⟨4⟩ (.glob ⟨0⟩) [], block := ⟨3⟩ },
      { inst := .store (.glob ⟨0⟩) [] (.binary .add (.var (.loc ⟨4⟩)) (.var (.loc ⟨1⟩)) (.int 32)), block := ⟨3⟩ },
      { inst := .assign ⟨2⟩ (.binary .add (.var (.loc ⟨1⟩)) (.int 1 (.int 32)) (.int 32)), block := ⟨3⟩ },
      { inst := .load ⟨5⟩ (.glob ⟨0⟩) [], block := ⟨4⟩ },
      { inst := .ret (some (.var (.loc ⟨5⟩))), block := ⟨4⟩ }]
    body := [⟨0⟩, ⟨2⟩, ⟨4⟩] }

/-- A procedure that sets the state variable, and returns from the inside of a conditional if its
argument holds. -/
def leave : Procedure :=
  { name := "leave", params := [⟨0⟩], returnTy := .void
    locals := .full [{ name := "c", ty := .bool }]
    nodes := .full [.block [⟨0⟩], .block [], .block [⟨1⟩], .branch (.var (.loc ⟨0⟩)) [⟨2⟩] [] ⟨1⟩, .block []]
    insts := .full [{ inst := .store (.glob ⟨0⟩) [] (.int 7 (.int 32)), block := ⟨0⟩ },
      { inst := .ret none, block := ⟨2⟩ }]
    body := [⟨0⟩, ⟨3⟩, ⟨4⟩] }

/-- An actor with one state variable and one procedure. -/
def total (p : Procedure) : Actor :=
  { name := "total", globals := [{ name := "total", ty := .int 32 }], procs := [p] }

/-- The stores of the loop come down to one at the end, which leaves the value that the last of them
left. -/
theorem call_storeOnce_raise : ∃ n p', (Procedure.storeOnce (total raise).globals).run raise = (.ok n, p') ∧
    ∃ bound, ∀ limits' : Limits, 0 < limits'.maxDepth → bound ≤ limits'.maxSteps →
      ∃ m'', (Machine.call (total p') limits' ⟨0⟩ [.int 3]).on { globals := [some (.int 10)] } =
        (.ok (some (.int 13)), m'') ∧ m''.globals = [some (.int 13)] := by
  have hcall : (Machine.call (total raise) {} ⟨0⟩ [.int 3]).on { globals := [some (.int 10)] } =
      (.ok (some (.int 13)), { globals := [some (.int 13)], trace := [⟨0⟩], steps := 15 }) := by rfl
  have hproc : (total raise).proc? ⟨0⟩ = some raise := rfl
  obtain ⟨n, p', hrun, _, hcalls⟩ := call_storeOnce hproc (by decide +kernel) (by decide +kernel)
  obtain ⟨bound, hbound⟩ := hcalls (total p') rfl {} [.int 3] _ _ _ rfl (by decide) hcall
  refine ⟨n, p', hrun, bound, fun limits' hdepth hsteps => ?_⟩
  obtain ⟨m'', hcall', _, hend, _⟩ := hbound limits' hdepth hsteps
  exact ⟨m'', hcall', hend (by decide +kernel)⟩

/-- A run that returns early passes by the store at the end: the state variable keeps the value that
it had before. -/
theorem call_storeOnce_leave : leave.verify = .ok () ∧ leave.Storable 1 ∧
    (Machine.call (total leave) {} ⟨0⟩ [.bool true]).on { globals := [some (.int 0)] } =
      (.ok none, { globals := [some (.int 7)], trace := [⟨0⟩], steps := 2 }) ∧
    (Machine.call (total ((Procedure.storeOnce (total leave).globals).run leave).2) {} ⟨0⟩ [.bool true]).on
      { globals := [some (.int 0)] } = (.ok none, { globals := [some (.int 0)], trace := [⟨0⟩], steps := 2 }) :=
  ⟨by decide +kernel, by decide +kernel, rfl, rfl⟩

end Actor

end ActorNet
