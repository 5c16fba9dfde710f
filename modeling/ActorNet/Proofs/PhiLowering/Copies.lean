import ActorNet.Pass.PhiLowering
import ActorNet.Proofs.Semantics.Locals

/-!
# Copies in the place of phis

The phis of a join read all their operands before any of them is written. Lowering puts one copy
after the other at the end of every edge instead. The two agree if no copy reads what an earlier one
has overwritten (`Phi.InOrder`, `join_copies`). A phi outside of a join takes the first operand
whose guard holds; lowering makes a guarded copy of each, which agrees if the guards exclude each
other (`Phi.Apart`).

`Code.lower` is lowering on code, and `lower_sim` says that lowered code does what the code did.
-/

namespace ActorNet

open Code List State Step

variable {edge : Edge} {f : Flow} {i : Inst} {edges : List Edge} {arms : List PhiArm} {target : LocalId}
  {predicate : Option Expr} {φ : Phi} {arm : PhiArm} {s u : State} {x : Value}

namespace Phi

def Tagged (φ : Phi) (edge : Edge) : Prop :=
  φ.arms.countP (·.edge = edge) = 1
deriving Decidable

/-- On an edge no phi reads the target of an earlier one, unless the earlier one keeps its
target. -/
def InOrder (edge : Edge) (phis : List Phi) : Prop :=
  phis.Pairwise fun φ ψ => ψ.operand edge = some (.loc φ.target) → φ.operand edge = some (.loc φ.target)
deriving Decidable

/-- The guards of a phi outside of a join do not read its target and exclude each other. -/
structure Apart (φ : Phi) : Prop where
  unread : ∀ arm ∈ φ.arms, ∀ guard, arm.guard = some guard → .loc φ.target ∉ guard.uses
  exclusive : φ.arms.Pairwise fun a b => ∀ g h, a.guard = some g → b.guard = some h →
    ∀ s : State, s.test g = some true → s.test h = some false

/-- Where the guard of an operand holds, those of later operands fail once the target is bound. -/
def ApartAt (s : State) (φ : Phi) : Prop :=
  φ.arms.Pairwise fun a b => ∀ g h, a.guard = some g → b.guard = some h → s.test g = some true →
    ∀ x, (s.set φ.target x).test h = some false

lemma Apart.apartAt (h : φ.Apart) (s : State) : φ.ApartAt s := by
  refine h.exclusive.imp_of_mem fun {a b} _ hb hab g h' hg hh htest x => ?_
  rw [← hab g h' hg hh s htest]
  refine test_congr fun v hv => ?_
  cases v with
  | loc id => exact set_locals_ne s x fun heq => h.unread b hb h' hh (heq ▸ hv)
  | glob id => rfl

lemma armFor?_eq (h : φ.Tagged edge) : Procedure.armFor? φ.arms edge = armOn φ.arms edge := by
  have hsome : (φ.arms.find? (·.edge = edge)).isSome := by
    rw [find?_isSome]
    have hpos : 0 < φ.arms.countP (·.edge = edge) := by
      rw [h]
      exact Nat.one_pos
    obtain ⟨arm, harm, hedge⟩ := countP_pos_iff.mp hpos
    exact ⟨arm, harm, hedge⟩
  obtain ⟨arm, harm⟩ := isSome_iff_exists.mp hsome
  rw [Procedure.armFor?, armOn, harm, Option.some_or, Option.some_or]

end Phi

def Inst.binds? : Inst → Option LocalId
  | .store (.loc id) [] _ => some id
  | i => i.def?

namespace Code

variable (value : LocalId → VarRef → Expr)

def copies (edge : Edge) (phis : List Phi) : Code :=
  ofLines (phis.filterMap fun φ =>
    (Procedure.armFor? φ.arms edge).map fun arm => (.assign φ.target (value φ.target arm.var), none))

/-- The number of phis. -/
def phiCount (c : Code) : Nat := c.insts.countP Inst.isPhi

lemma phiCount_append (c d : Code) : (c.append d).phiCount = c.phiCount + d.phiCount := by
  rw [phiCount, insts_append, countP_append]
  rfl

lemma phiCount_insts (phis : List Phi) : (phis.map Phi.inst).countP Inst.isPhi = phis.length := by
  rw [countP_map]
  exact countP_eq_length.mpr fun _ _ => rfl

lemma phiCount_copies (edge : Edge) (phis : List Phi) : (copies value edge phis).phiCount = 0 := by
  rw [phiCount, copies, insts_ofLines, countP_eq_zero, forall_mem_map]
  intro line hline
  obtain ⟨φ, _, hline⟩ := mem_filterMap.mp hline
  obtain ⟨arm, _, rfl⟩ := map_eq_some_iff.mp hline
  exact Bool.false_ne_true

/-- What stands for an instruction: guarded copies for a phi, else the instruction itself. -/
def lowerLine : Inst → Option Expr → List (Inst × Option Expr)
  | .phi target arms, _ =>
    arms.filterMap fun arm => arm.guard.map fun guard => (.assign target (value target arm.var), some guard)
  | i, predicate => [(i, predicate)]

def lower : Code → Code
  | done => done
  | inst i predicate rest => (ofLines (lowerLine value i predicate)).append (lower rest)
  | branch condition t e phis rest =>
    branch condition ((lower t).append (copies value .thenEnd phis)) ((lower e).append (copies value .elseEnd phis)) []
      (lower rest)
  | loop condition body phis rest =>
    (copies value .entry phis).append
      (loop condition ((lower body).append (copies value .back phis)) [] (lower rest))

lemma lower_append (c d : Code) : (c.append d).lower value = (c.lower value).append (d.lower value) := by
  induction c with
  | done => rfl
  | inst i p rest ih => rw [append, lower, lower, ih, append_assoc]
  | branch c t e phis rest _ _ ih => rw [append, lower, lower, ih, append]
  | loop c body phis rest _ ih => rw [append, lower, lower, ih, append_assoc, append]

lemma lower_ofLines (lines : List (Inst × Option Expr)) : (ofLines lines).lower value =
    ofLines (lines.flatMap fun line => lowerLine value line.1 line.2) := by
  induction lines with
  | nil => rfl
  | cons line rest ih => rw [ofLines, lower, ih, flatMap_cons, ofLines_append]

lemma lower_copies (edge : Edge) (phis : List Phi) : (copies value edge phis).lower value = copies value edge phis := by
  rw [copies, lower_ofLines]
  congr 1
  induction phis with
  | nil => rfl
  | cons φ phis ih =>
    rw [filterMap_cons]
    cases Procedure.armFor? φ.arms edge with
    | none => exact ih
    | some arm =>
      rw [map_some, flatMap_cons, ih]
      rfl

/-! ## What can be lowered -/

/-- The copy of every operand of a phi reads the operand, or nothing ever binds the operand. -/
def Copied (unset : LocalId → Prop) (φ : Phi) : Prop :=
  ∀ arm ∈ φ.arms, value φ.target arm.var = .var arm.var ∨ ∃ id, arm.var = .loc id ∧ unset id

/-- The phis of a join can be lowered: they have one operand for each of the edges, their copies are
in order, and they write no local that counts as unset. -/
structure JoinLowerable (unset : LocalId → Prop) (edges : List Edge) (phis : List Phi) : Prop where
  tagged : ∀ φ ∈ phis, ∀ edge ∈ edges, φ.Tagged edge
  inOrder : ∀ edge ∈ edges, Phi.InOrder edge phis
  copied : ∀ φ ∈ phis, Copied value unset φ
  targets : ∀ φ ∈ phis, ¬ unset φ.target

/-- An instruction can be lowered: it binds no local that counts as unset, and a phi has no
predicate and guards that exclude each other. -/
structure LineLowerable (unset : LocalId → Prop) (i : Inst) (predicate : Option Expr) : Prop where
  binds : ∀ id, i.binds? = some id → ¬ unset id
  phi : ∀ target arms, i = .phi target arms →
    predicate = none ∧ Phi.Apart ⟨target, arms⟩ ∧ Copied value unset ⟨target, arms⟩

/-- Code can be lowered. -/
def Lowerable (unset : LocalId → Prop) : Code → Prop :=
  Forall (LineLowerable value unset) (fun _ => JoinLowerable value unset [.thenEnd, .elseEnd])
    (fun _ => JoinLowerable value unset [.entry, .back])

end Code

/-- The locals that count as unset are not bound. -/
def State.Clear (unset : LocalId → Prop) (s : State) : Prop :=
  ∀ id, unset id → s.locals id = none

variable {unset : LocalId → Prop} {value : LocalId → VarRef → Expr} {calls : CallStep}

lemma State.Clear.set {s : State} (h : s.Clear unset) {id : LocalId} (hid : ¬ unset id)
    (x : Value) : (s.set id x).Clear unset := by
  intro i hi
  rw [set_locals_ne]
  · exact h i hi
  · intro heq
    exact hid (heq ▸ hi)

/-- Where an operand has a value, its copy has it too. -/
lemma Code.Copied.eval (hφ : Code.Copied value unset φ) {t : State} (hs : s.Clear unset)
    (harm : arm ∈ φ.arms) (hx : s.read arm.var = some x) (ht : t.read arm.var = s.read arm.var) :
    t.eval (value φ.target arm.var) = some x := by
  rcases hφ arm harm with h | ⟨id, hid, hunset⟩
  · rw [h, eval_var, ht, hx]
  · rw [hid, read_loc, hs id hunset] at hx
    cases hx

/-! ## Copies at the end of an edge -/

variable {phis : List Phi}

/-- Copies in order do what the phis of the join do. The induction is on the phis that are left;
`bindings` are those of the phis before them. -/
lemma copies_step (hs : s.Clear unset) (hcopied : ∀ φ ∈ phis, Code.Copied value unset φ)
    (htagged : ∀ φ ∈ phis, φ.Tagged edge) (horder : Phi.InOrder edge phis) (bindings : List (LocalId × Value))
    {values : List (LocalId × Value)}
    (hbefore : ∀ φ ∈ phis, ∀ b ∈ bindings, φ.operand edge = some (.loc b.1) → s.locals b.1 = some b.2)
    (hvalues : s.phiValues edge phis = some values) :
    (copies value edge phis).step calls (s.setAll bindings) .next (s.setAll (bindings ++ values)) := by
  induction phis generalizing bindings values with
  | nil =>
    cases hvalues
    rw [List.append_nil]
    exact ⟨rfl, rfl⟩
  | cons φ phis ih =>
    obtain ⟨v, x, rest, hoperand, hx, hrest, rfl⟩ := phiValues_cons hvalues
    obtain ⟨arm, harm, rfl⟩ := map_eq_some_iff.mp hoperand
    rw [Phi.InOrder, pairwise_cons] at horder
    have heval : (s.setAll bindings).eval (value φ.target arm.var) = some x := by
      refine (hcopied φ mem_cons_self).eval hs (armOn_mem harm) hx (setAll_read fun b hb heq => ?_)
      refine hbefore φ mem_cons_self b hb ?_
      rw [hoperand, heq]
    have hnext := ih (fun ψ hψ => hcopied ψ (mem_cons_of_mem φ hψ))
      (fun ψ hψ => htagged ψ (mem_cons_of_mem φ hψ)) horder.2 (bindings ++ [(φ.target, x)]) (by
        intro ψ hψ b hb hread
        rcases mem_append.mp hb with hb | hb
        · exact hbefore ψ (mem_cons_of_mem φ hψ) b hb hread
        · rw [mem_singleton] at hb
          subst hb
          have hself := horder.1 ψ hψ hread
          rw [hoperand, Option.some.injEq] at hself
          rw [hself, read_loc] at hx
          exact hx) hrest
    rw [List.append_assoc, setAll_append s bindings [(φ.target, x)]] at hnext
    rw [copies, filterMap_cons, Phi.armFor?_eq (htagged φ mem_cons_self), harm, map_some,
      ofLines, step]
    exact .inl ⟨_, ⟨x, heval, rfl, rfl⟩, hnext⟩

lemma join_copies (hs : s.Clear unset) (hj : Code.JoinLowerable value unset edges phis)
    (hedge : edge ∈ edges) (h : Step.join edge phis s f u) : (copies value edge phis).step calls s f u := by
  obtain ⟨rfl, h⟩ := h
  obtain ⟨values, hvalues, rfl⟩ := map_eq_some_iff.mp h
  exact copies_step hs hj.copied (fun φ hφ => hj.tagged φ hφ edge hedge) (hj.inOrder edge hedge) []
    nofun hvalues

lemma State.setAll_clear (hs : s.Clear unset) {bindings : List (LocalId × Value)}
    (h : ∀ b ∈ bindings, ¬ unset b.1) : (s.setAll bindings).Clear unset := by
  unfold setAll
  induction bindings generalizing s with
  | nil => exact hs
  | cons b rest ih =>
    rw [foldl_cons]
    exact ih (hs.set (h b mem_cons_self) b.2) fun b' hb' => h b' (mem_cons_of_mem b hb')

lemma join_clear (hs : s.Clear unset) (hj : Code.JoinLowerable value unset edges phis)
    (h : Step.join edge phis s f u) : u.Clear unset := by
  obtain ⟨_, h⟩ := h
  obtain ⟨values, hvalues, rfl⟩ := map_eq_some_iff.mp h
  refine setAll_clear hs fun b hb => ?_
  obtain ⟨φ, hφ, heq⟩ := mem_map.mp (target_mem_of_phiValues hvalues hb)
  rw [← heq]
  exact hj.targets φ hφ

/-! ## Guarded copies -/

/-- Guarded copies whose guards fail do nothing. -/
lemma guarded_skip (predicate : Option Expr)
    (hfalse : ∀ arm ∈ arms, ∀ guard, arm.guard = some guard → s.test guard = some false) :
    (ofLines (lowerLine value (.phi target arms) predicate)).step calls s .next s := by
  induction arms with
  | nil => exact ⟨rfl, rfl⟩
  | cons arm rest ih =>
    have hrest := ih fun a ha => hfalse a (mem_cons_of_mem arm ha)
    rw [lowerLine, filterMap_cons]
    cases hg : arm.guard with
    | none => exact hrest
    | some guard => exact .inl ⟨s, .inr ⟨hfalse arm mem_cons_self guard hg, rfl, rfl⟩, hrest⟩

/-- Guarded copies do what the phi does. -/
lemma guarded_copies (hs : s.Clear unset) (hapart : Phi.ApartAt s ⟨target, arms⟩)
    (hcopied : Code.Copied value unset ⟨target, arms⟩) (hpick : s.picks arms = some arm) (hx : s.read arm.var = some x) :
    (ofLines (lowerLine value (.phi target arms) predicate)).step calls s .next (s.set target x) := by
  unfold Phi.ApartAt at hapart
  simp only at hapart
  induction arms with
  | nil => cases hpick
  | cons first rest ih =>
    rw [pairwise_cons] at hapart
    have hrest := ih hapart.2 fun a ha => hcopied a (mem_cons_of_mem first ha)
    rcases picks_cons hpick with ⟨hg, hpick⟩ | ⟨guard,
      hg, htest, rfl⟩ | ⟨guard, hg, htest, hpick⟩ <;> rw [lowerLine, filterMap_cons, hg]
    · exact hrest hpick
    · refine .inl ⟨_, .inl ⟨htest, x, hcopied.eval hs mem_cons_self hx rfl, rfl, rfl⟩, ?_⟩
      refine guarded_skip predicate fun a ha g hga => ?_
      exact hapart.1 a ha guard g hg hga htest x
    · exact .inl ⟨_, .inr ⟨htest, rfl, rfl⟩, hrest hpick⟩

/-! ## Lowered code -/

lemma Inst.step_clear (h : i.step calls s f u) (hs : s.Clear unset)
    (hi : ∀ id, i.binds? = some id → ¬ unset id) : u.Clear unset := by
  intro x hx
  by_cases hwrites : i.writesLocal? = some x
  · cases i with
    | store target indexes value =>
      obtain ⟨_, y, _, hy, _, _⟩ := h
      cases target with
      | glob id => cases hwrites
      | loc id =>
        cases hwrites
        cases indexes with
        | nil => exact absurd hx (hi x rfl)
        | cons index rest =>
          -- an element is stored only if the local is bound, so it does not count as unset
          unfold stored at hy
          split at hy
          · cases hy
          · rename_i hpath
            rw [path, toOption_eq_some] at hpath
            obtain ⟨n, ns, _, _, hnil⟩ := Context.path_cons_ok.mp hpath
            cases hnil
          · rw [read_loc, hs x hx] at hy
            cases hy
    | _ =>
      simp only [Inst.writesLocal?, Inst.writes?, Option.bind_map, Function.comp_def, VarRef.local?,
        Option.bind_fun_some] at hwrites
      exact absurd hx (hi x hwrites)
  · rw [Inst.step_frame h hwrites, hs x hx]

/-- What stands for an instruction does what the instruction did. -/
lemma lowerLine_step (hs : s.Clear unset) (hi : Code.LineLowerable value unset i predicate)
    (h : Step.guarded predicate (i.step calls) s f u) :
    (ofLines (lowerLine value i predicate)).step calls s f u ∧ u.Clear unset := by
  constructor
  · cases i with
    | phi target arms =>
      obtain ⟨rfl, hapart, hcopied⟩ := hi.phi target arms rfl
      obtain ⟨arm, x, hpick, hx, rfl, rfl⟩ := h
      exact guarded_copies hs (hapart.apartAt s) hcopied hpick hx
    | _ =>
      rw [lowerLine, ofLines, ofLines, step, step, seq_skip]
      · exact h
      · intro _ _ hphi
        cases hphi
  · rcases guarded_cases h with h | ⟨_, rfl⟩
    · exact Inst.step_clear h hs hi.binds
    · exact hs

/-- Lowering keeps the state as it is; the locals that count as unset are not bound. -/
def SameClear (unset : LocalId → Prop) (s s' : State) : Prop := s' = s ∧ s.Clear unset

lemma sim_of_clear {a b : Step} (h : ∀ s f u, s.Clear unset → a s f u → b s f u ∧ u.Clear unset) :
    Sim (SameClear unset) (SameClear unset) (SameClear unset) a b := by
  intro s s' f u ⟨hs', hs⟩ ha
  obtain ⟨hb, hu⟩ := h s f u hs ha
  subst hs'
  refine ⟨u, hb, ?_⟩
  cases f <;> exact ⟨rfl, hu⟩

/-- Lowered code does what the code did, and locals that count as unset stay unbound. -/
theorem lower_sim {c : Code} (hc : c.Lowerable value unset) : Sim (SameClear unset)
    (SameClear unset) (SameClear unset) (c.step calls) ((c.lower value).step calls) := by
  have hjoin : ∀ (edge : Edge) (edges : List Edge) (phis : List Phi), edge ∈ edges →
      Code.JoinLowerable value unset edges phis → Sim (SameClear unset) (SameClear unset) (SameClear unset)
        (Step.join edge phis) ((copies value edge phis).step calls) :=
    fun edge edges phis hedge hj =>
      sim_of_clear fun s f u hs h => ⟨join_copies hs hj hedge h, join_clear hs hj h⟩
  have htest : ∀ (c : Expr) (s s' : State), SameClear unset s s' → ∀ x, s.test c = some x → s'.test c = some x := by
    intro c s s' ⟨hs', _⟩ x hx
    rw [hs', hx]
  induction c with
  | done => exact Sim.skip
  | inst i predicate rest ih =>
    rw [lower, step_append]
    exact (sim_of_clear fun s f u hs h => lowerLine_step hs hc.1 h).seq (ih hc.2)
  | branch condition t e phis rest iht ihe ih =>
    obtain ⟨hj, ht, he, hrest⟩ := hc
    rw [lower, step, step, step_append, step_append, join_nil, join_nil,
      seq_skip, seq_skip]
    refine (Sim.choose (htest condition) ?_ ?_).seq (ih hrest)
    · exact (iht ht).seq (hjoin .thenEnd _ phis (by simp) hj)
    · exact (ihe he).seq (hjoin .elseEnd _ phis (by simp) hj)
  | loop condition body phis rest ihb ih =>
    obtain ⟨hj, hb, hrest⟩ := hc
    rw [lower, step_append, step, step, step_append, join_nil, join_nil,
      seq_skip, skip_seq, ← seq_assoc]
    refine ((hjoin .entry _ phis (by simp) hj).seq ?_).seq (ih hrest)
    exact Sim.loops (htest condition) ((ihb hb).seq (hjoin .back _ phis (by simp) hj))

end ActorNet
