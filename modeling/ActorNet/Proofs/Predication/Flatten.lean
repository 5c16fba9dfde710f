import ActorNet.Pass.Predication
import ActorNet.Proofs.Semantics.Locals

/-!
# Predicated lines in the place of branches

`Code.flatten` is predication on code: all instructions one after the other, each under the
conditions around it. Under a predicate that fails nothing happens, whatever the inner conditions
are, because a conjunction does not look at its second part then (`flatten_skip`). Under a predicate
that holds the lines do what the code does (`flatten_step`): every local is written at most once, so
conditions keep their values while the branches run.
-/

namespace ActorNet

open Code Expr List Procedure State

variable {b : Bool} {c elsePredicate p thenPredicate : Expr} {f : Flow} {predicate : Option Expr} {s u : State}

/-- There is one operand for the end of each branch of a conditional, and no other. -/
def Phi.TwoWay (φ : Phi) : Prop :=
  φ.arms.map (·.edge) = [.thenEnd, .elseEnd] ∨ φ.arms.map (·.edge) = [.elseEnd, .thenEnd]
deriving Decidable

/-- There are two operands, in one order or the other. -/
lemma Phi.TwoWay.arms_eq {target : LocalId} {arms : List PhiArm} (h : TwoWay ⟨target, arms⟩) : ∃ x y, arms = [x, y] ∧
    ((x.edge = .thenEnd ∧ y.edge = .elseEnd) ∨ (x.edge = .elseEnd ∧ y.edge = .thenEnd)) := by
  match arms, h with
  | [x, y], .inl h =>
    simp only [map_cons, map_nil, List.cons.injEq, and_true] at h
    exact ⟨x, y, rfl, .inl h⟩
  | [x, y], .inr h =>
    simp only [map_cons, map_nil, List.cons.injEq, and_true] at h
    exact ⟨x, y, rfl, .inr h⟩
  | [], h => simp [TwoWay] at h
  | [_], h => simp [TwoWay] at h
  | _ :: _ :: _ :: _, h => simp [TwoWay] at h

def Phi.guarded (thenPredicate elsePredicate : Expr) (φ : Phi) : Phi :=
  ⟨φ.target, φ.arms.map (guardArm thenPredicate elsePredicate)⟩

namespace Code

/-- Predication on code without loops. -/
def flatten : Option Expr → Code → List (Inst × Option Expr)
  | _, done => []
  | predicate, inst i _ rest => (i, predicate) :: flatten predicate rest
  | predicate, branch condition t e phis rest =>
    flatten (some (under predicate condition)) t ++ flatten (some (under predicate condition.negate)) e ++
      phis.map (fun φ =>
        ((φ.guarded (under predicate condition) (under predicate condition.negate)).inst, predicate)) ++
      flatten predicate rest
  | predicate, loop _ _ _ rest => flatten predicate rest

lemma flatten_append (predicate : Option Expr) (c d : Code) :
    (c.append d).flatten predicate = c.flatten predicate ++ d.flatten predicate := by
  induction c with
  | done => rfl
  | inst i own rest ih => rw [append, flatten, flatten, ih, cons_append]
  | branch condition t e phis rest _ _ ih => simp only [append, flatten, ih, List.append_assoc]
  | loop condition body phis rest _ ih => rw [append, flatten, flatten, ih]

lemma flatten_ofLines (predicate : Option Expr) (l : List (Inst × Option Expr)) :
    (ofLines l).flatten predicate = l.map fun line => (line.1, predicate) := by
  induction l with
  | nil => rfl
  | cons line rest ih => rw [ofLines, flatten, ih, map_cons]

/-- Code that predication preserves: there are no loops and no predicates, conditions read no state
variable, and the phis of joins have one operand for each branch. -/
def Predicable : Code → Prop :=
  Forall (fun _ predicate => predicate = none)
    (fun condition phis => condition.ReadsLocals ∧ ∀ φ ∈ phis, φ.TwoWay) (fun _ _ => False)

end Code

/-! ## Predicates -/

namespace State

lemma test_negate (h : s.test c = some b) : s.test c.negate = some !b := by
  rw [test_eq_some, eval_eq_some] at h ⊢
  rw [negate, eval_unary_ok]
  exact ⟨.bool b, h, rfl⟩

lemma test_both_of_true (hp : s.test p = some true) (hc : s.test c = some b) : s.test (p.both c) = some b := by
  rw [test_eq_some, eval_eq_some] at hp hc ⊢
  rw [both, eval_and_ok]
  exact .inr ⟨hp, b, hc, rfl⟩

lemma test_both_of_false (hp : s.test p = some false) (c : Expr) : s.test (p.both c) = some false := by
  rw [test_eq_some, eval_eq_some] at hp ⊢
  rw [both, eval_and_ok]
  exact .inl ⟨hp, rfl⟩

def Holds (s : State) : Option Expr → Prop
  | none => True
  | some p => s.test p = some true

lemma test_under (hp : s.Holds predicate) (hc : s.test c = some b) : s.test (under predicate c) = some b := by
  cases predicate with
  | none => exact hc
  | some p => exact test_both_of_true hp hc

end State

/-- A predicate that reads no state variable. -/
def ReadsLocals? (predicate : Option Expr) : Prop :=
  ∀ p, predicate = some p → p.ReadsLocals

lemma Expr.ReadsLocals.negate (h : c.ReadsLocals) : c.negate.ReadsLocals := h

lemma readsLocals_under (hp : ReadsLocals? predicate) (hc : c.ReadsLocals) : (under predicate c).ReadsLocals := by
  cases predicate with
  | none => exact hc
  | some p =>
    intro v hv
    rcases mem_append.mp hv with hv | hv
    · exact hp p rfl v hv
    · exact hc v hv

lemma State.Keeps.holds {s u : State} (h : s.Keeps u) {predicate : Option Expr}
    (hp : ReadsLocals? predicate) (hs : s.Holds predicate) : u.Holds predicate := by
  cases predicate with
  | none => exact trivial
  | some p => exact h.test (hp p rfl) hs

variable {calls : CallStep}

lemma guarded_of_holds {i : Inst} (hp : s.Holds predicate) (h : i.step calls s f u) :
    Step.guarded predicate (i.step calls) s f u := by
  cases predicate with
  | none => exact h
  | some p => exact .inl ⟨hp, h⟩

/-! ## Lines under a predicate that fails -/

lemma ofLines_skip {l : List (Inst × Option Expr)} (hp : s.test p = some false)
    (hl : ∀ line ∈ l, line.2 = some p) : (ofLines l).step calls s .next s := by
  induction l with
  | nil => exact ⟨rfl, rfl⟩
  | cons line rest ih =>
    rw [ofLines, hl line mem_cons_self]
    exact .inl ⟨s, .inr ⟨hp, rfl, rfl⟩, ih fun x hx => hl x (mem_cons_of_mem line hx)⟩

lemma flatten_skip {c : Code} (hp : s.test p = some false) : (ofLines (c.flatten (some p))).step calls s .next s := by
  induction c generalizing p with
  | done => exact ⟨rfl, rfl⟩
  | inst i predicate rest ih => exact .inl ⟨s, .inr ⟨hp, rfl, rfl⟩, ih hp⟩
  | branch condition t e phis rest iht ihe ih =>
    -- the predicates of both branches fail too
    have hthen := iht (test_both_of_false hp condition)
    have helse := ihe (test_both_of_false hp condition.negate)
    have hphis : (ofLines (phis.map fun φ => ((φ.guarded (under (some p) condition)
        (under (some p) condition.negate)).inst, some p))).step calls s .next s := by
      refine ofLines_skip hp fun line hline => ?_
      obtain ⟨φ, _, rfl⟩ := mem_map.mp hline
      rfl
    simp only [Code.flatten, ofLines_append, step_append]
    exact .inl ⟨s, .inl ⟨s, .inl ⟨s, hthen, helse⟩, hphis⟩, ih hp⟩
  | loop condition body phis rest _ ih => exact ih hp

/-! ## Phis that have left their join -/

/-- Among the operands of both branches the one of the branch that was taken is picked. -/
lemma picks_guarded {φ : Phi} (hφ : φ.TwoWay) (hthen : s.test thenPredicate = some b)
    (helse : s.test elsePredicate = some !b) {arm : PhiArm}
    (harm : armOn φ.arms (if b then .thenEnd else .elseEnd) = some arm) :
    s.picks (φ.guarded thenPredicate elsePredicate).arms = some (guardArm thenPredicate elsePredicate arm) := by
  obtain ⟨target, arms⟩ := φ
  obtain ⟨x, y, rfl, hedges⟩ := hφ.arms_eq
  simp only [armOn, find?_cons, find?_nil] at harm
  simp only [Phi.guarded, map_cons, map_nil, picks]
  cases b with
  | true | false => rcases hedges with ⟨hx, hy⟩ | ⟨hx, hy⟩ <;> simp_all [guardArm]

lemma guardArm_var (thenPredicate elsePredicate : Expr) (arm : PhiArm) :
    (guardArm thenPredicate elsePredicate arm).var = arm.var := by
  unfold guardArm
  split <;> rfl

/-- Phis that have left their join do one after the other what they did in the join. The induction
is on the phis that are left; `s` is the state in which the join was entered and `t` the present
one. -/
lemma guardedPhis_step {t : State} {phis : List Phi} (hphis : ∀ φ ∈ phis, φ.TwoWay)
    (hfresh : s.Fresh (phis.map (·.target))) (hthenReads : thenPredicate.ReadsLocals)
    (helseReads : elsePredicate.ReadsLocals) (hreads : ReadsLocals? predicate) (hthen : s.test thenPredicate = some b)
    (helse : s.test elsePredicate = some !b) (hp : s.Holds predicate) (hkeeps : s.Keeps t)
    (hworld : t.toWorld = s.toWorld) {values : List (LocalId × Value)}
    (hvalues : s.phiValues (if b then .thenEnd else .elseEnd) phis = some values) :
    (ofLines (phis.map fun φ => ((φ.guarded thenPredicate elsePredicate).inst, predicate))).step calls t .next
      (t.setAll values) := by
  induction phis generalizing t values with
  | nil =>
    cases hvalues
    exact ⟨rfl, rfl⟩
  | cons φ phis ih =>
    obtain ⟨v, x, rest, hoperand, hx, hrest, rfl⟩ := phiValues_cons hvalues
    obtain ⟨arm, harm, rfl⟩ := map_eq_some_iff.mp hoperand
    have hpick := picks_guarded (hphis φ mem_cons_self) (hkeeps.test hthenReads hthen)
      (hkeeps.test helseReads helse) harm
    have hread : t.read (guardArm thenPredicate elsePredicate arm).var = some x := by
      rw [guardArm_var]
      cases hvar : arm.var with
      | loc id =>
        rw [hvar] at hx
        exact hkeeps id x hx
      | glob id =>
        rw [hvar] at hx
        rw [State.read, congrArg World.globals hworld]
        exact hx
    -- the target was not bound when the join was entered
    have hkeeps' : s.Keeps (t.set φ.target x) := hkeeps.set (hfresh φ.target mem_cons_self) x
    have hnext := ih (fun ψ hψ => hphis ψ (mem_cons_of_mem φ hψ))
      (fun id hid => hfresh id (mem_cons_of_mem _ hid)) hkeeps' hworld hrest
    exact .inl ⟨t.set φ.target x, guarded_of_holds (hkeeps.holds hreads hp) ⟨_, x, hpick, hread, rfl, rfl⟩, hnext⟩

/-! ## Lines under a predicate that holds -/

/-- The lines of a conditional, of which one branch was taken, and of what follows. The state `s` is
the one before, `r` the one at the end of the branch and `m` the one after the join. -/
lemma flatten_join (calls : CallStep) {r m : State} {phis : List Phi} {condition : Expr}
    (hreads : ReadsLocals? predicate) (hcond : condition.ReadsLocals) (hphis : ∀ φ ∈ phis, φ.TwoWay)
    (hp : s.Holds predicate) (htest : s.test condition = some b) (hkeeps : s.Keeps r)
    (hfresh : r.Fresh (phis.map (·.target))) (hjoin : Step.join (if b then .thenEnd else .elseEnd) phis r .next m) :
    (ofLines (phis.map fun φ => ((φ.guarded (under predicate condition)
      (under predicate condition.negate)).inst, predicate))).step calls r .next m ∧
    r.test (under predicate condition.negate) = some !b := by
  have hp' := hkeeps.holds hreads hp
  have htest' := hkeeps.test hcond htest
  have helse := test_under hp' (test_negate htest')
  obtain ⟨_, hjoin⟩ := hjoin
  obtain ⟨values, hvalues, rfl⟩ := map_eq_some_iff.mp hjoin
  exact ⟨guardedPhis_step hphis hfresh (readsLocals_under hreads hcond) (readsLocals_under hreads hcond.negate) hreads
    (test_under hp' htest') helse hp' (State.Keeps.refl r) rfl hvalues, helse⟩

/-- Predicated lines do what the code does. The induction is on the code; the locals that it writes
are not bound yet. -/
theorem flatten_step {c : Code} (hc : c.Predicable) (hnodup : c.writes.Nodup)
    (hfresh : s.Fresh c.writes) (hreads : ReadsLocals? predicate) (hp : s.Holds predicate)
    (h : c.step calls s f u) : (ofLines (c.flatten predicate)).step calls s f u := by
  induction c generalizing s f u predicate with
  | done => exact h
  | inst i own rest ih =>
    obtain ⟨rfl, hrest⟩ := hc
    rw [writes_inst] at hnodup hfresh
    rw [nodup_append] at hnodup
    have hfresh' : ∀ {r : State}, i.step calls s .next r → r.Fresh rest.writes ∧ s.Keeps r := by
      intro r hi
      constructor
      · intro id hid
        rw [Inst.step_frame hi, hfresh id (mem_append_right _ hid)]
        exact fun hw => hnodup.2.2 id (Option.mem_toList.mpr hw) id hid rfl
      · intro id x hx
        rw [Inst.step_frame hi, hx]
        intro hw
        rw [hfresh id (mem_append_left _ (Option.mem_toList.mpr hw))] at hx
        cases hx
    rcases h with ⟨r, hi, hr⟩ | ⟨v, rfl, hi⟩
    · obtain ⟨hfreshr, hkeeps⟩ := hfresh' hi
      exact .inl ⟨r, guarded_of_holds hp hi, ih hrest hnodup.2.1 hfreshr hreads (hkeeps.holds hreads hp) hr⟩
    · exact .inr ⟨v, rfl, guarded_of_holds hp hi⟩
  | branch condition t e phis rest iht ihe ih =>
    obtain ⟨⟨hcond, hphis⟩, ht, he, hrest⟩ := hc
    rw [writes_branch] at hnodup hfresh
    simp only [nodup_append, mem_append] at hnodup
    obtain ⟨⟨⟨hnt, hne, hte⟩, hnphis, htphis⟩, hnrest, hbefore⟩ := hnodup
    have hft : s.Fresh t.writes := fun id hid => hfresh id (by simp [hid])
    have hfe : s.Fresh e.writes := fun id hid => hfresh id (by simp [hid])
    have hfphis : s.Fresh (phis.map (·.target)) := fun id hid =>
      hfresh id (mem_append_left _ (mem_append_right _ hid))
    have hfrest : s.Fresh rest.writes := fun id hid => hfresh id (mem_append_right _ hid)
    -- what follows the conditional
    have hafter : ∀ {r m : State}, s.Keeps r → r.Fresh (phis.map (·.target)) → r.Fresh rest.writes → ∀ {edge : Edge},
        Step.join edge phis r .next m → rest.step calls m f u →
        (ofLines (rest.flatten predicate)).step calls m f u := by
      intro r m hkeeps hfreshPhis hfreshRest edge hjoin hr
      have hkeepsm : s.Keeps m := by
        intro id x hx
        have hr := hkeeps id x hx
        rw [Step.join_frame hjoin, hr]
        intro hmem
        rw [hfreshPhis id hmem] at hr
        cases hr
      refine ih hrest hnrest ?_ hreads (hkeepsm.holds hreads hp) hr
      intro id hid
      rw [Step.join_frame hjoin fun hmem => hbefore id (.inr hmem) id hid rfl]
      exact hfreshRest id hid
    simp only [Code.flatten, ofLines_append, step_append]
    have hthenReads := readsLocals_under hreads hcond
    have helseReads := readsLocals_under hreads hcond.negate
    rcases h with ⟨m, ⟨htest, hbranch⟩ | ⟨htest, hbranch⟩, hr⟩ | ⟨v, rfl, ⟨htest, hbranch⟩ | ⟨htest, hbranch⟩⟩
    · -- the first branch is taken and control goes on
      obtain ⟨r, hstep, hjoin⟩ | ⟨v, hv, _⟩ := hbranch
      · have hkeeps := step_keeps hstep hft
        have hfreshPhis := step_fresh hstep hfphis fun id hid hmem => htphis id (.inl hmem) id hid rfl
        have hfreshRest := step_fresh hstep hfrest fun id hid hmem =>
          hbefore id (.inl (.inl hmem)) id hid rfl
        obtain ⟨hlines, helse⟩ := flatten_join calls hreads hcond hphis hp htest hkeeps hfreshPhis hjoin
        have hthen := iht ht hnt hft (fun p heq => Option.some.inj heq ▸ hthenReads) (test_under hp htest) hstep
        exact .inl ⟨m, .inl ⟨r, .inl ⟨r, hthen, flatten_skip helse⟩, hlines⟩,
          hafter hkeeps hfreshPhis hfreshRest hjoin hr⟩
      · cases hv
    · -- the second branch is taken and control goes on
      obtain ⟨r, hstep, hjoin⟩ | ⟨v, hv, _⟩ := hbranch
      · have hkeeps := step_keeps hstep hfe
        have hfreshPhis := step_fresh hstep hfphis fun id hid hmem => htphis id (.inr hmem) id hid rfl
        have hfreshRest := step_fresh hstep hfrest fun id hid hmem =>
          hbefore id (.inl (.inr hmem)) id hid rfl
        obtain ⟨hlines, _⟩ := flatten_join calls hreads hcond hphis hp htest hkeeps hfreshPhis hjoin
        have helse := ihe he hne hfe (fun p heq => Option.some.inj heq ▸ helseReads)
          (test_under hp (test_negate htest)) hstep
        exact .inl ⟨m, .inl ⟨r, .inl ⟨s, flatten_skip (test_under hp htest), helse⟩, hlines⟩,
          hafter hkeeps hfreshPhis hfreshRest hjoin hr⟩
      · cases hv
    · -- the procedure returns inside of the first branch
      obtain ⟨r, _, hjoin⟩ | ⟨w, hv, hstep⟩ := hbranch
      · cases hjoin.1
      · cases hv
        have hthen := iht ht hnt hft (fun p heq => Option.some.inj heq ▸ hthenReads) (test_under hp htest) hstep
        exact .inr ⟨v, rfl, .inr ⟨v, rfl, .inr ⟨v, rfl, hthen⟩⟩⟩
    · -- the procedure returns inside of the second branch
      obtain ⟨r, _, hjoin⟩ | ⟨w, hv, hstep⟩ := hbranch
      · cases hjoin.1
      · cases hv
        have helse := ihe he hne hfe (fun p heq => Option.some.inj heq ▸ helseReads)
          (test_under hp (test_negate htest)) hstep
        exact .inr ⟨v, rfl, .inr ⟨v, rfl, .inl ⟨s, flatten_skip (test_under hp htest), helse⟩⟩⟩
  | loop condition body phis rest _ _ => exact hc.1.elim

end ActorNet
