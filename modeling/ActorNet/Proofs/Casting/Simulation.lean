import ActorNet.Proofs.Casting.Expressions

/-!
# Simulation up to temporaries

A rewritten procedure has temporaries that the procedure does not have, and it may read a local as
one of them. A state of it mirrors a state of the procedure if it has the same world, and what it
reads for a declared local has the value of the local (`Mirrors`). Code of it mimics code of the
procedure if it does the same in every mirroring state (`Mimics`). If locals are read as other
temporaries from then on, the code still mimics (`Mimics.rename`).

A conditional is mimicked if its condition and its branches are, and if the phis of its join find
their values (`Mimics.branch`). A loop is mimicked if on both edges into it the phis find their
values and the condition has its truth value right after they are bound (`Mimics.loop`).
-/

namespace ActorNet

open Code List State

variable {calls : CallStep} {c c' d d' : Code} {e e' : Expr} {f : Flow} {i : Inst} {phis' : List Phi}
  {hi lo lo' hi' N M M' : Nat} {s u s' u' : State} {v : VarRef} {σ τ ρ : Subst} {T T' : LocalId → Prop} {Γ Δ : Scope}

/-! ## Substitutions that move locals -/

namespace Subst

/-- Some locals may be read as locals in a range; all others are read as themselves. -/
def Moves (σ : Subst) (T : LocalId → Prop) (lo hi : Nat) : Prop :=
  ∀ x, σ x = .loc x ∨ (T x ∧ ∃ k : LocalId, σ x = .loc k ∧ lo ≤ k.index ∧ k.index < hi)

lemma moves_id (T : LocalId → Prop) (lo hi : Nat) : Subst.id.Moves T lo hi := fun _ => .inl rfl

lemma Moves.mono (h : σ.Moves T lo hi) (hT : ∀ x, T x → T' x) (hlo : lo' ≤ lo) (hhi : hi ≤ hi') :
    σ.Moves T' lo' hi' := by
  intro x
  rcases h x with hx | ⟨hx, k, hk, hlow, hhigh⟩
  · exact .inl hx
  · exact .inr ⟨hT x hx, k, hk, hlo.trans hlow, hhigh.trans_le hhi⟩

lemma Moves.spares (h : σ.Moves T lo hi) (hv : ∀ x, v = .loc x → ¬ T x)
    (hrange : ∀ x : LocalId, v = .loc x → ¬ (lo ≤ x.index ∧ x.index < hi)) : σ.Spares v := by
  constructor
  · cases v with
    | glob g => rfl
    | loc x =>
      rcases h x with hx | ⟨hx, _⟩
      · exact hx
      · exact absurd hx (hv x rfl)
  · intro x hx
    rcases h x with hself | ⟨_, k, hk, hlow, hhigh⟩
    · exact hself.symm.trans hx
    · exact absurd ⟨hlow, hhigh⟩ (hrange k (hx.symm.trans hk))

lemma Moves.andThen (h : σ.Moves T lo hi) (h' : τ.Moves T' lo hi) :
    (σ.andThen τ).Moves (fun x => T x ∨ T' x) lo hi := by
  intro x
  rcases h x with hx | ⟨hx, k, hk, hlow, hhigh⟩
  · rcases h' x with hx' | ⟨hx', k, hk, hrange⟩
    · exact .inl (by rw [Subst.andThen, hx]; exact hx')
    · exact .inr ⟨.inr hx', k, (by rw [Subst.andThen, hx]; exact hk), hrange⟩
  · rcases h' k with hk' | ⟨_, k', hk', hrange⟩
    · exact .inr ⟨.inl hx, k, (by rw [Subst.andThen, hk]; exact hk'), hlow, hhigh⟩
    · exact .inr ⟨.inl hx, k', (by rw [Subst.andThen, hk]; exact hk'), hrange⟩

end Subst

/-! ## Mirroring states -/

/-- A state has the same world as another one, what is read in it for a declared local has the value
that the local has there, and the values of declared variables have their types. -/
structure Mirrors (Γ : Scope) (ρ : Subst) (s s' : State) : Prop where
  world : s'.toWorld = s.toWorld
  reads : ∀ x ty, Γ.ty? (.loc x) = some ty → s'.read (ρ x) = s.locals x
  typed : ∀ v ty, Γ.ty? v = some ty → ∀ y, s.read v = some y → y.HasTy ty

def SameWorld (s s' : State) : Prop := s'.toWorld = s.toWorld

namespace Mirrors

lemma read (h : Mirrors Γ ρ s s') {v : VarRef} {ty : Ty} (hv : Γ.ty? v = some ty) : s'.read (ρ.apply v) = s.read v := by
  cases v with
  | loc x => exact h.reads x ty hv
  | glob g =>
    have hglobals : s'.globals = s.globals := congrArg World.globals h.world
    rw [Subst.apply, State.read, State.read, hglobals]

lemma eval (h : Mirrors Γ ρ s s') (he : ∀ v ∈ e.uses, ∃ ty, Γ.ty? v = some ty) : s'.eval (e.subst ρ) = s.eval e := by
  rw [← eval_through]
  refine eval_congr fun v hv => ?_
  obtain ⟨ty, hty⟩ := he v hv
  rw [read_through, h.read hty]

lemma hasTypes (h : Mirrors Γ ρ s s') (hmaps : Γ.Maps Δ ρ) {vars : List VarRef}
    (hvars : ∀ v ∈ vars, ∃ ty, Γ.ty? v = some ty) : s'.HasTypes Δ (vars.map ρ.apply) := by
  intro w hw ty hty y hy
  obtain ⟨v, hv, rfl⟩ := mem_map.mp hw
  obtain ⟨ty', hty'⟩ := hvars v hv
  cases (hmaps v ty' hty').symm.trans hty
  rw [h.read hty'] at hy
  exact h.typed v ty hty' y hy

lemma of_sameBelow (h : Mirrors Γ ρ s s') {n : Nat} (hsame : s'.SameBelow n u')
    (hbelow : ∀ x ty, Γ.ty? (.loc x) = some ty → (ρ x).Below n) : Mirrors Γ ρ s u' :=
  ⟨hsame.world.trans h.world, fun x ty hx => (hsame.read (hbelow x ty hx)).trans (h.reads x ty hx), h.typed⟩

lemma through (h : Mirrors Γ (ρ.andThen τ) s s') : Mirrors Γ ρ s (s'.through τ) :=
  ⟨h.world, fun x ty hx => (read_through s' τ (ρ x)).trans (h.reads x ty hx), h.typed⟩

lemma of_through (h : Mirrors Γ ρ s (s'.through τ)) : Mirrors Γ (ρ.andThen τ) s s' :=
  ⟨h.world, fun x ty hx => (read_through s' τ (ρ x)).symm.trans (h.reads x ty hx), h.typed⟩

lemma write (h : Mirrors Γ ρ s s') {v : VarRef} (hv : ρ.Spares v) {y : Value}
    (hy : ∀ ty, Γ.ty? v = some ty → y.HasTy ty) : Mirrors Γ ρ (s.write v y) (s'.write v y) := by
  have hglobals : s'.globals = s.globals := congrArg World.globals h.world
  have htrace : s'.trace = s.trace := congrArg World.trace h.world
  have hread : ∀ z, (s'.write v y).read (ρ z) = ((s'.through ρ).write v y).locals z := by
    intro z
    rw [← write_through s' hv y]
    rfl
  cases v with
  | loc x =>
    refine ⟨h.world, fun z ty hz => ?_, fun w ty hw value hvalue => ?_⟩
    · rw [hread]
      show (if z = x then some y else s'.read (ρ z)) = if z = x then some y else s.locals z
      rw [h.reads z ty hz]
    · cases w with
      | glob g => exact h.typed _ ty hw value hvalue
      | loc z =>
        by_cases hzx : z = x
        · subst hzx
          cases (set_locals_self s z y).symm.trans hvalue
          exact hy ty hw
        · exact h.typed _ ty hw value ((set_locals_ne s y hzx).symm.trans hvalue)
  | glob g =>
    refine ⟨?_, fun z ty hz => ?_, fun w ty hw value hvalue => ?_⟩
    · show World.mk (s'.globals.set g.index (some y)) s'.trace = World.mk (s.globals.set g.index (some y)) s.trace
      rw [hglobals, htrace]
    · rw [hread]
      exact h.reads z ty hz
    · cases w with
      | loc z => exact h.typed _ ty hw value hvalue
      | glob k =>
        have hset : ((s.globals.set g.index (some y))[k.index]?).join = some value := hvalue
        rw [getElem?_set] at hset
        split at hset
        · rename_i hgk
          have hkg : k = g := by
            cases k
            cases g
            exact congrArg GlobalId.mk hgk.symm
          split at hset
          · cases hset
            exact hy ty (hkg ▸ hw)
          · cases hset
        · exact h.typed _ ty hw value hset

lemma setAll {bindings : List (LocalId × Value)} (h : Mirrors Γ ρ s s') (hspares : ∀ b ∈ bindings, ρ.Spares (.loc b.1))
    (htyped : ∀ b ∈ bindings, ∀ ty, Γ.ty? (.loc b.1) = some ty → b.2.HasTy ty) :
    Mirrors Γ ρ (s.setAll bindings) (s'.setAll bindings) := by
  unfold State.setAll
  induction bindings generalizing s s' with
  | nil => exact h
  | cons b rest ih =>
    simp only [mem_cons, forall_eq_or_imp] at hspares htyped
    exact ih (h.write hspares.1 htyped.1) hspares.2 htyped.2

end Mirrors

/-! ## Mimicking code -/

lemma Code.writes_append (c d : Code) : (c.append d).writes = c.writes ++ d.writes := by
  rw [writes, insts_append, filterMap_append]
  rfl

lemma Code.mem_writes_of_inst (hi : i ∈ c.insts) {x : LocalId} (hx : i.writes? = some (.loc x)) : x ∈ c.writes := by
  refine mem_filterMap.mpr ⟨i, hi, ?_⟩
  rw [Inst.writesLocal?, hx]
  rfl

@[simp] lemma Code.insts_ofInsts (l : List Inst) : (ofInsts l).insts = l := by
  rw [ofInsts, insts_ofLines, List.map_map]
  exact map_id'' (fun _ => rfl) l

lemma Code.subst_ofInsts (σ : Subst) (l : List Inst) : (ofInsts l).subst σ = ofInsts (l.map (Inst.subst σ)) := by
  rw [ofInsts, subst_ofLines, ofInsts, List.map_map, List.map_map]
  rfl

namespace Inst.Defines

lemma writes (h : i.Defines lo hi) {v : VarRef} (hv : v ∈ i.writes?) :
    ∃ x : LocalId, v = .loc x ∧ lo ≤ x.index ∧ x.index < hi := by
  cases i with
  | assign target value | cast source target ty =>
    cases hv
    exact ⟨target, rfl, h⟩
  | load | store | call | phi | ret => exact h.elim

lemma isCall (h : i.Defines lo hi) : i.isCall = false := by
  cases i with
  | call => exact h.elim
  | assign | load | store | phi | ret | cast => rfl

lemma subst (h : i.Defines lo hi) (σ : Subst) : (i.subst σ).Defines lo hi := by
  cases i with
  | assign | cast => exact h
  | load | store | call | phi | ret => exact h.elim

lemma toWorld (h : i.Defines lo hi) (hstep : i.step calls s f u) : u.toWorld = s.toWorld := by
  cases i with
  | assign | cast =>
    obtain ⟨_, _, _, rfl⟩ := hstep
    rfl
  | load | store | call | phi | ret => exact h.elim

end Inst.Defines

variable {insts : List Inst}

/-- Instructions that define locals in a range change nothing else. -/
lemma frame_of_defines (h : ∀ i ∈ insts, i.Defines lo hi)
    (hstep : (ofInsts insts).step calls s f u) : u.toWorld = s.toWorld ∧
    ∀ x : LocalId, ¬ (lo ≤ x.index ∧ x.index < hi) → u.locals x = s.locals x := by
  constructor
  · induction insts generalizing s with
    | nil =>
      obtain ⟨_, rfl⟩ := hstep
      rfl
    | cons i rest ih =>
      simp only [mem_cons, forall_eq_or_imp] at h
      rcases hstep with ⟨t, hi, hrest⟩ | ⟨_, _, hi⟩
      · exact (ih h.2 hrest).trans (h.1.toWorld hi)
      · exact h.1.toWorld hi
  · intro x hx
    refine step_frame hstep fun hmem => ?_
    obtain ⟨i, hi, hwrites⟩ := mem_filterMap.mp hmem
    rw [insts_ofInsts] at hi
    obtain ⟨v, hv, hlocal⟩ := bind_eq_some_iff.mp hwrites
    obtain ⟨z, rfl, hrange⟩ := (h i hi).writes hv
    cases hlocal
    exact hx hrange

lemma Inst.Defines.spares (h : i.Defines lo hi) (hτ : τ.Moves T hi' M)
    (hT : ∀ x, T x → x.index < lo) (hhi : hi ≤ hi') (hv : v ∈ i.writes?) : τ.Spares v := by
  obtain ⟨x, rfl, hlo, hlt⟩ := h.writes hv
  refine hτ.spares (fun z hz hmoved => ?_) fun z hz hrange => ?_
  · cases hz
    exact Nat.not_lt.mpr hlo (hT x hmoved)
  · cases hz
    exact Nat.not_lt.mpr hrange.1 (hlt.trans_le hhi)

/-- Code does in every mirroring state what other code does. -/
structure Mimics (Γ : Scope) (calls : CallStep) (ρ : Subst) (c c' : Code) : Prop where
  sim : Step.Sim (Mirrors Γ ρ) (Mirrors Γ ρ) SameWorld (c.step calls) (c'.step calls)

section Mimics

namespace Mimics

lemma done : Mimics Γ calls ρ .done .done := ⟨Step.Sim.skip⟩

lemma append (h : Mimics Γ calls ρ c c') (h' : Mimics Γ calls ρ d d') :
    Mimics Γ calls ρ (c.append d) (c'.append d') where
  sim := by
    rw [step_append, step_append]
    exact h.sim.seq h'.sim

/-- Code still mimics if locals that it does not write are read as others that it does not write. -/
theorem rename (h : Mimics Γ calls ρ c c') (hcalls : ∀ i ∈ c'.insts, i.isCall = false)
    (hspares : ∀ i ∈ c'.insts, ∀ v ∈ i.writes?, τ.Spares v) : Mimics Γ calls (ρ.andThen τ) c (c'.subst τ) where
  sim := by
    intro s s' f u hs hstep
    obtain ⟨u1, hstep1, hu1⟩ := h.sim s (s'.through τ) f u hs.through hstep
    obtain ⟨u', hstep', hu'⟩ := sim_subst hcalls hspares (s'.through τ) s' f u1 rfl hstep1
    refine ⟨u', hstep', ?_⟩
    cases f with
    | next =>
      cases (show u1 = u'.through τ from hu')
      exact Mirrors.of_through hu1
    | ret v =>
      cases (show u1 = u'.through τ from hu')
      exact hu1

end Mimics

/-! ## Conditions -/

/-- Where a condition has a truth value, instructions run and give it to another condition. -/
def Tests (Γ : Scope) (calls : CallStep) (ρ : Subst) (e : Expr) (insts : List Inst) (e' : Expr) : Prop :=
  ∀ s s' b, Mirrors Γ ρ s s' → s.test e = some b →
    ∃ u', (ofInsts insts).step calls s' .next u' ∧ Mirrors Γ ρ s u' ∧ u'.test e' = some b

lemma Tests.rename (h : Tests Γ calls ρ e insts e') (hdefines : ∀ i ∈ insts, i.Defines lo hi)
    (hspares : ∀ i ∈ insts, ∀ v ∈ i.writes?, τ.Spares v) :
    Tests Γ calls (ρ.andThen τ) e (insts.map (Inst.subst τ)) (e'.subst τ) := by
  intro s s' b hs hb
  obtain ⟨u1, hstep1, hu1, htest1⟩ := h s (s'.through τ) b hs.through hb
  obtain ⟨u', hstep', hu'⟩ := sim_subst (c := ofInsts insts) (by
    rw [insts_ofInsts]
    exact fun i hi => (hdefines i hi).isCall) (by
    rw [insts_ofInsts]
    exact hspares) (s'.through τ) s' .next u1 rfl hstep1
  cases (show u1 = u'.through τ from hu')
  rw [subst_ofInsts] at hstep'
  rw [test_through] at htest1
  exact ⟨u', hstep', Mirrors.of_through hu1, htest1⟩

/-! ## Joins -/

/-- Where the phis of a join have values on an edge, instructions run, and other phis have these
values afterwards. -/
def Joins (Γ : Scope) (calls : CallStep) (ρ : Subst) (edge : Edge) (phis : List Phi)
    (insts : List Inst) (phis' : List Phi) : Prop :=
  ∀ s s' values, Mirrors Γ ρ s s' → s.phiValues edge phis = some values →
    ∃ u', (ofInsts insts).step calls s' .next u' ∧ Mirrors Γ ρ s u' ∧ u'.phiValues edge phis' = some values ∧
      ∀ b ∈ values, ∀ ty, Γ.ty? (.loc b.1) = some ty → b.2.HasTy ty

variable {phis : List Phi} {edge : Edge}

lemma Mirrors.join {s s' : State} (h : Mirrors Γ ρ s s')
    (hspares : ∀ φ ∈ phis, ρ.Spares (.loc φ.target)) {values : List (LocalId × Value)}
    (hvalues : s.phiValues edge phis = some values)
    (htyped : ∀ b ∈ values, ∀ ty, Γ.ty? (.loc b.1) = some ty → b.2.HasTy ty) :
    Mirrors Γ ρ (s.setAll values) (s'.setAll values) := by
  refine h.setAll (fun b hb => ?_) htyped
  obtain ⟨φ, hφ, heq⟩ := mem_map.mp (target_mem_of_phiValues hvalues hb)
  exact heq ▸ hspares φ hφ

lemma Joins.sim (h : Joins Γ calls ρ edge phis insts phis')
    (hspares : ∀ φ ∈ phis, ρ.Spares (.loc φ.target)) :
    Step.Sim (Mirrors Γ ρ) (Mirrors Γ ρ) SameWorld (Step.join edge phis)
      (((ofInsts insts).step calls).seq (Step.join edge phis')) := by
  intro s s' f u hs ⟨hf, hu⟩
  subst hf
  obtain ⟨values, hvalues, rfl⟩ := map_eq_some_iff.mp hu
  obtain ⟨u', hstep, hu', hvalues', htyped⟩ := h s s' values hs hvalues
  refine ⟨u'.setAll values, .inl ⟨u', hstep, rfl, ?_⟩, hu'.join hspares hvalues htyped⟩
  rw [join, hvalues', map_some]

/-- A conditional is mimicked, with instructions for its condition before it and instructions for
the phis of its join at the ends of its branches. -/
theorem Mimics.branch {e e' : Expr} {K A B : List Inst} {t t' f f' : Code} {phis' : List Phi}
    (hcond : Tests Γ calls ρ e K e') (ht : Mimics Γ calls ρ t t') (hf : Mimics Γ calls ρ f f')
    (hthen : Joins Γ calls ρ .thenEnd phis A phis') (helse : Joins Γ calls ρ .elseEnd phis B phis')
    (hspares : ∀ φ ∈ phis, ρ.Spares (.loc φ.target)) : Mimics Γ calls ρ (.branch e t f phis .done) ((ofInsts K).append
      (.branch e' (t'.append (ofInsts A)) (f'.append (ofInsts B)) phis' .done)) where
  sim := by
    have hbranch : ∀ {c c' : Code} {insts : List Inst} {edge : Edge}, Mimics Γ calls ρ c c' →
        Joins Γ calls ρ edge phis insts phis' →
        Step.Sim (Mirrors Γ ρ) (Mirrors Γ ρ) SameWorld ((c.step calls).seq (Step.join edge phis))
          (((c'.append (ofInsts insts)).step calls).seq (Step.join edge phis')) := by
      intro c c' insts edge hc hjoin
      rw [step_append, Step.seq_assoc]
      exact hc.sim.seq (hjoin.sim hspares)
    intro s s' g u hs hstep
    rw [step, step, Step.seq_skip] at hstep
    rw [step_append, step, step, Step.seq_skip]
    rcases hstep with ⟨htest, hstep⟩ | ⟨htest, hstep⟩
    · obtain ⟨w, hK, hw, htest'⟩ := hcond s s' true hs htest
      obtain ⟨u', hstep', hu'⟩ := hbranch ht hthen s w g u hw hstep
      exact ⟨u', .inl ⟨w, hK, .inl ⟨htest', hstep'⟩⟩, hu'⟩
    · obtain ⟨w, hK, hw, htest'⟩ := hcond s s' false hs htest
      obtain ⟨u', hstep', hu'⟩ := hbranch hf helse s w g u hw hstep
      exact ⟨u', .inl ⟨w, hK, .inr ⟨htest', hstep'⟩⟩, hu'⟩

/-! ## Loops -/

/-- Where the phis of a loop have values on an edge and its condition has a truth value after they
are bound, instructions run, other phis have values afterwards, and another condition has the truth
value after these are bound. -/
def Enters (Γ : Scope) (calls : CallStep) (ρ : Subst) (edge : Edge) (phis : List Phi) (e : Expr)
    (insts : List Inst) (phis' : List Phi) (e' : Expr) : Prop :=
  ∀ s s' values b, Mirrors Γ ρ s s' → s.phiValues edge phis = some values → (s.setAll values).test e = some b →
    ∃ u' values', (ofInsts insts).step calls s' .next u' ∧ u'.phiValues edge phis' = some values' ∧
      Mirrors Γ ρ (s.setAll values) (u'.setAll values') ∧ (u'.setAll values').test e' = some b

lemma Step.Loops.exists_test {a : Step} (h : Step.Loops e a s f u) : ∃ b, s.test e = some b := by
  cases h with
  | stop h => exact ⟨false, h⟩
  | again h _ _ | ret h _ => exact ⟨true, h⟩

variable {body body' : Code}

/-- The iterations of a loop, from a head at which both conditions agree. The induction is on the
iterations: where one more begins, the condition has a truth value, so the instructions on the edge
run. -/
lemma Mimics.loops {B : List Inst} (hbody : Mimics Γ calls ρ body body')
    (hback : Enters Γ calls ρ .back phis e B phis' e') (s : State) (f : Flow) (u : State) :
    Step.Loops e ((body.step calls).seq (Step.join .back phis)) s f u →
    ∀ s', Mirrors Γ ρ s s' → (∀ b, s.test e = some b → s'.test e' = some b) →
      ∃ u', Step.Loops e' (((body'.append (ofInsts B)).step calls).seq (Step.join .back phis')) s' f u' ∧
        match f with
        | .next => Mirrors Γ ρ u u'
        | .ret _ => SameWorld u u' := by
  rw [step_append, Step.seq_assoc]
  intro h
  induction h with
  | stop htest => exact fun s' hs hagree => ⟨s', .stop (hagree false htest), hs⟩
  | again htest hstep hloops ih =>
    intro s' hs hagree
    rcases hstep with ⟨w, hw, _, hjoin⟩ | ⟨_, hnext, _⟩
    · obtain ⟨values, hvalues, rfl⟩ := map_eq_some_iff.mp hjoin
      obtain ⟨w', hw', hmirror⟩ := hbody.sim _ s' .next w hs hw
      obtain ⟨b, hb⟩ := hloops.exists_test
      obtain ⟨v', values', hB, hvalues', hhead, hb'⟩ := hback w w' values b hmirror hvalues hb
      obtain ⟨u', hloops', hu'⟩ := ih (v'.setAll values') hhead fun c hc => by
        cases hb.symm.trans hc
        exact hb'
      refine ⟨u', .again (hagree true htest) (.inl ⟨w', hw', .inl ⟨v', hB, rfl, ?_⟩⟩) hloops', hu'⟩
      rw [join, hvalues', map_some]
    · cases hnext
  | ret htest hstep =>
    intro s' hs hagree
    rcases hstep with ⟨w, hw, hjoin⟩ | ⟨_, hret, hw⟩
    · cases hjoin.1
    · cases hret
      obtain ⟨w', hw', hmirror⟩ := hbody.sim _ s' (.ret _) _ hs hw
      exact ⟨w', .ret (hagree true htest) (.inr ⟨_, rfl, hw'⟩), hmirror⟩

/-- A loop is mimicked, with instructions for its phis and its condition before it and at the end of
its body. -/
theorem Mimics.loop {e e' : Expr} {E B : List Inst} {phis' : List Phi}
    (hentry : Enters Γ calls ρ .entry phis e E phis' e') (hback : Enters Γ calls ρ .back phis e B phis' e')
    (hbody : Mimics Γ calls ρ body body') : Mimics Γ calls ρ (.loop e body phis .done)
      ((ofInsts E).append (.loop e' (body'.append (ofInsts B)) phis' .done)) where
  sim := by
    intro s s' f u hs hstep
    rw [step, step, Step.seq_skip] at hstep
    rw [step_append, step, step, Step.seq_skip]
    rcases hstep with ⟨w, ⟨_, hjoin⟩, hloops⟩ | ⟨_, _, hjoin⟩
    · obtain ⟨values, hvalues, rfl⟩ := map_eq_some_iff.mp hjoin
      obtain ⟨b, hb⟩ := hloops.exists_test
      obtain ⟨v', values', hE', hvalues', hhead, hb'⟩ := hentry s s' values b hs hvalues hb
      obtain ⟨u', hloops', hu'⟩ := hbody.loops hback _ f u hloops (v'.setAll values') hhead fun c hc => by
        cases hb.symm.trans hc
        exact hb'
      refine ⟨u', .inl ⟨v', hE', .inl ⟨_, ⟨rfl, ?_⟩, hloops'⟩⟩, hu'⟩
      rw [join, hvalues', map_some]
    · cases hjoin.1

end Mimics

end ActorNet
