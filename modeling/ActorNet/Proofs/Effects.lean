import ActorNet.Pass.Basic
import ActorNet.Run.Machine
import Mathlib.Tactic.Lemma

/-!
# Successful runs of stateful computations

Edits, transformations and runs of procedures are computations over a state that may fail. `Yields
act s x s'` says that `act` succeeds in the state `s` with the answer `x` and leaves the state `s'`.
There is one lemma for each way to build a computation, so that a successful run of a compound one
is taken apart into successful runs of its parts.
-/

namespace ActorNet

open Transform Run

export Option (bind_eq_some_iff bind_some filter_eq_some_iff isSome_iff_exists map_eq_some_iff map_none map_some)

variable {m m' : Machine} {u : PUnit} {p p' : Procedure}

variable {ε σ α β : Type}

lemma bind_eq_ok {x : Except ε α} {f : α → Except ε β} {y : β} : (x >>= f) = .ok y ↔ ∃ a, x = .ok a ∧ f a = .ok y := by
  cases x <;> simp [bind, Except.bind]

lemma map_eq_ok {x : Except ε α} {f : α → β} {y : β} : x.map f = .ok y ↔ ∃ a, x = .ok a ∧ f a = y := by
  cases x <;> simp [Except.map]

/-- A computation succeeds with an answer and leaves a state. -/
def Yields (act : ExceptT ε (StateM σ) α) (s : σ) (x : α) (s' : σ) : Prop :=
  act.run s = (.ok x, s')

lemma Yields.unique {act : ExceptT ε (StateM σ) α} {s s' s'' : σ} {x y : α}
    (h : Yields act s x s') (h' : Yields act s y s'') : x = y ∧ s' = s'' := by
  unfold Yields at h h'
  rw [h] at h'
  injection h' with hxy hs
  injection hxy with hxy
  exact ⟨hxy, hs⟩

lemma yields_iff_of_run {act : ExceptT ε (StateM σ) α} {s s' t : σ} {x y : α}
    (h : act.run s = (.ok x, t)) : Yields act s y s' ↔ y = x ∧ s' = t := by
  rw [Yields, h, Prod.mk.injEq, Except.ok.injEq]
  exact and_congr eq_comm eq_comm

@[simp] lemma yields_pure {s s' : σ} {x y : α} : Yields (pure x : ExceptT ε (StateM σ) α) s y s' ↔ y = x ∧ s' = s :=
  yields_iff_of_run rfl

lemma run_bind (act : ExceptT ε (StateM σ) α) (f : α → ExceptT ε (StateM σ) β) (s : σ) :
    (act >>= f).run s = match act.run s with
      | (.ok x, s') => (f x).run s'
      | (.error e, s') => (.error e, s') := by
  show (ExceptT.bindCont f (act.run s).1) (act.run s).2 = _
  rcases act.run s with ⟨_ | _, _⟩ <;> rfl

@[simp] lemma yields_bind {act : ExceptT ε (StateM σ) α} {f : α → ExceptT ε (StateM σ) β} {s s'' : σ} {y : β} :
    Yields (act >>= f) s y s'' ↔ ∃ x s', Yields act s x s' ∧ Yields (f x) s' y s'' := by
  unfold Yields
  rw [run_bind]
  constructor
  · intro h
    rcases hact : act.run s with ⟨e | x, s'⟩
    · rw [hact] at h
      injection h with hx _
      cases hx
    · rw [hact] at h
      exact ⟨x, s', rfl, h⟩
  · rintro ⟨x, s', hact, h⟩
    rw [hact]
    exact h

@[simp] lemma yields_map {act : ExceptT ε (StateM σ) α} {f : α → β} {s s' : σ} {y : β} :
    Yields (f <$> act) s y s' ↔ ∃ x, Yields act s x s' ∧ y = f x := by
  rw [← bind_pure_comp, yields_bind]
  constructor
  · rintro ⟨x, t, hx, hy⟩
    rw [yields_pure] at hy
    exact ⟨x, hy.2 ▸ hx, hy.1⟩
  · rintro ⟨x, hx, hy⟩
    exact ⟨x, s', hx, yields_pure.mpr ⟨hy, rfl⟩⟩

@[simp] lemma yields_get {s x s' : σ} : Yields (get : ExceptT ε (StateM σ) σ) s x s' ↔ x = s ∧ s' = s :=
  yields_iff_of_run rfl

lemma yields_get_bind {f : σ → ExceptT ε (StateM σ) α} {s s' : σ} {x : α} :
    Yields (get >>= f) s x s' ↔ Yields (f s) s x s' :=
  Iff.rfl

@[simp] lemma yields_set {s t s' : σ} : Yields (set t : ExceptT ε (StateM σ) PUnit) s u s' ↔ s' = t :=
  (yields_iff_of_run rfl).trans (and_iff_right rfl)

@[simp] lemma yields_modify {s s' : σ} {f : σ → σ} :
    Yields (modify f : ExceptT ε (StateM σ) PUnit) s u s' ↔ s' = f s :=
  (yields_iff_of_run rfl).trans (and_iff_right rfl)

@[simp] lemma yields_modifyGet {s s' : σ} {f : σ → α × σ} {x : α} :
    Yields (modifyGet f : ExceptT ε (StateM σ) α) s x s' ↔ x = (f s).1 ∧ s' = (f s).2 :=
  yields_iff_of_run rfl

@[simp] lemma yields_throw {s s' : σ} {e : ε} {x : α} : Yields (throw e : ExceptT ε (StateM σ) α) s x s' ↔ False := by
  refine iff_of_false ?_ id
  intro h
  have : ((Except.error e, s) : Except ε α × σ) = (Except.ok x, s') := h
  injection this with hx _
  cases hx

/-! ## Edits and transformations -/

@[simp] lemma yields_fail {fault : ProcFault} {x : α} : Yields (Edit.fail fault : Edit α) p x p' ↔ False := by
  simp [Edit.fail]

@[simp] lemma yields_transform_fail {fault : PassFault} {x : α} :
    Yields (fail fault : Transform α) p x p' ↔ False := by
  simp [fail]

@[simp] lemma yields_ofEdit {act : Edit α} {x : α} : Yields (ofEdit act) p x p' ↔ Yields act p x p' := by
  unfold Yields
  have hrun : (ofEdit act).run p = match act.run p with
      | (.ok x, p') => (.ok x, p')
      | (.error e, p') => (.error ⟨e.proc, .malformed e.fault⟩, p') := by
    show ((Except.mapError _ (act.run p).1, (act.run p).2) : Except PassError α × Procedure) = _
    rcases act.run p with ⟨_ | _, _⟩ <;> rfl
  rw [hrun]
  rcases act.run p with ⟨e | y, q⟩
  · constructor <;> intro h <;> injection h with hx _ <;> cases hx
  · constructor <;> intro h <;> injection h with hx hq <;> cases hx <;> cases hq <;> rfl

@[simp] lemma yields_liftM {act : Edit α} {x : α} : Yields (liftM act : Transform α) p x p' ↔ Yields act p x p' :=
  yields_ofEdit

@[simp] lemma yields_transform_get {q : Procedure} : Yields (get : Transform Procedure) p q p' ↔ q = p ∧ p' = p :=
  yields_get

lemma yields_read {f : Procedure → Transform α} {x : α} : Yields (get >>= f) p x p' ↔ Yields (f p) p x p' :=
  Iff.rfl

@[simp] lemma yields_transform_modify {f : Procedure → Procedure} :
    Yields (modify f : Transform PUnit) p u p' ↔ p' = f p :=
  yields_modify

/-! ## Runs -/

@[simp] lemma yields_lift {r : Except Fault α} {x : α} : Yields (lift r) m x m' ↔ r = .ok x ∧ m' = m := by
  cases r with
  | ok y =>
    simp only [lift, yields_pure, Except.ok.injEq]
    exact and_congr_left fun _ => eq_comm
  | error e => simp [lift]

@[simp] lemma yields_step {limits : Limits} {u : Unit} : Yields (step limits) m u m' ↔
      m.steps + 1 ≤ limits.maxSteps ∧ m' = { m with steps := m.steps + 1 } := by
  by_cases hlim : limits.maxSteps < m.steps + 1
  · simp [step, hlim, Nat.not_le.mpr hlim]
  · simp [step, hlim, Nat.le_of_not_lt hlim, and_assoc]

@[simp] lemma yields_leaving {act : Run α} {x : α} : Yields (leaving act) m x m' ↔
    ∃ m1, Yields act m x m1 ∧ m' = { m1 with depth := m1.depth - 1 } := by
  unfold Yields
  have hrun : (leaving act).run m = ((act.run m).1, { (act.run m).2 with depth := (act.run m).2.depth - 1 }) := rfl
  rw [hrun]
  constructor
  · intro h
    injection h with hx hm
    exact ⟨(act.run m).2, Prod.ext hx rfl, hm.symm⟩
  · rintro ⟨m1, hact, rfl⟩
    rw [hact]

end ActorNet
