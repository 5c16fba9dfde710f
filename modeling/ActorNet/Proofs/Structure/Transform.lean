import ActorNet.Pipeline
import ActorNet.Proofs.Effects
import Mathlib.Data.List.Forall2

/-!
# Transforming the procedures of an actor

A transformation of an actor that succeeds has transformed every procedure on its own, those
implemented elsewhere excepted (`proc?_of_transformProcs`), and it succeeds if it does on each of
them (`transformProcs_ok`). What each pass keeps, a sequence of passes keeps (`runPasses_keeps`).
-/

namespace ActorNet.Actor

open List

variable {a a' b : Actor} {procs procs' : List Procedure} {n : Nat} {p : Procedure}

variable {act : Transform Nat}

lemma eq_mk_of_fst_eq {σ : Type} {outcome : Except PassError Nat × σ} (h : outcome.1 = .ok n) :
    outcome = (.ok n, outcome.2) :=
  Prod.ext h rfl

lemma transformEach_cons_ok {rest : List Procedure} (h : transformEach act (p :: rest) = (.ok n, procs)) :
    ∃ p' rest' m, procs = p' :: rest' ∧ transformEach act rest = (.ok m, rest') ∧
      (p.native = true → p' = p) ∧ (p.native = false → ∃ k, Yields act p k p') := by
  rw [transformEach] at h
  rcases hrest : transformEach act rest with ⟨outcome, rest'⟩
  cases hnative : p.native with
  | true =>
    simp only [hnative, if_true, hrest, Prod.mk.injEq] at h
    exact ⟨p, rest', n, h.2.symm, by rw [h.1], fun _ => rfl, nofun⟩
  | false =>
    rcases hact : act.on p with ⟨_ | k, p'⟩
    · simp [hnative, hact] at h
    · simp only [hnative, Bool.false_eq_true, if_false, hact, hrest, Prod.mk.injEq] at h
      cases outcome with
      | error e => cases h.1
      | ok m => exact ⟨p', rest', m, h.2.symm, rfl, nofun, fun _ => ⟨k, hact⟩⟩

/-- A procedure before and after a transformation, unless it is implemented elsewhere. -/
def Transformed (act : Transform Nat) (p p' : Procedure) : Prop :=
  (p.native = true → p' = p) ∧ (p.native = false → ∃ k, Yields act p k p')

lemma forall₂_transformEach (h : transformEach act procs = (.ok n, procs')) :
    List.Forall₂ (Transformed act) procs procs' := by
  induction procs generalizing procs' n with
  | nil =>
    cases h
    exact .nil
  | cons p rest ih =>
    obtain ⟨p', rest', m, rfl, hrest, hp⟩ := transformEach_cons_ok h
    exact .cons hp (ih hrest)

lemma forall₂_transformProcs (h : a.transformProcs act = (.ok n, a')) :
    List.Forall₂ (Transformed act) a.procs a'.procs ∧ a' = { a with procs := a'.procs } := by
  unfold transformProcs at h
  rw [Prod.mk.injEq] at h
  obtain ⟨hn, rfl⟩ := h
  exact ⟨forall₂_transformEach (Prod.ext hn rfl), rfl⟩

lemma exists_of_mem_transformed (h : List.Forall₂ (Transformed act) procs procs') {p' : Procedure}
    (hp' : p' ∈ procs') : ∃ p ∈ procs, Transformed act p p' := by
  induction h with
  | nil => cases hp'
  | cons hp _ ih =>
    rcases mem_cons.mp hp' with rfl | hp'
    · exact ⟨_, mem_cons_self, hp⟩
    · obtain ⟨q, hq, htransformed⟩ := ih hp'
      exact ⟨q, mem_cons_of_mem _ hq, htransformed⟩

lemma proc?_of_transformProcs (h : a.transformProcs act = (.ok n, a')) {id : ProcId} (hp : a.proc? id = some p) :
    ∃ p', a'.proc? id = some p' ∧ (p.native = true → p' = p) ∧ (p.native = false → ∃ k, Yields act p k p') := by
  obtain ⟨hprocs, _⟩ := forall₂_transformProcs h
  obtain ⟨hi, hget⟩ := List.getElem?_eq_some_iff.mp hp
  have hi' : id.index < a'.procs.length := hprocs.length_eq ▸ hi
  have hpair := hprocs.get hi hi'
  rw [get_eq_getElem, get_eq_getElem, hget] at hpair
  exact ⟨_, getElem?_eq_getElem hi', hpair⟩

lemma transformProcs_ok (h : ∀ p ∈ a.procs, p.native = false → ∃ k p', Yields act p k p') :
    ∃ n a', a.transformProcs act = (.ok n, a') := by
  have hlist : ∀ procs : List Procedure, (∀ p ∈ procs, p.native = false → ∃ k p', Yields act p k p') →
      ∃ n, (transformEach act procs).1 = .ok n := by
    intro procs
    induction procs with
    | nil => exact fun _ => ⟨0, rfl⟩
    | cons p rest ih =>
      intro h
      obtain ⟨m, hm⟩ := ih fun q hq => h q (mem_cons_of_mem p hq)
      rw [transformEach]
      cases hnative : p.native with
      | true => exact ⟨m, hm⟩
      | false =>
        obtain ⟨k, p', hk⟩ := h p mem_cons_self hnative
        have hon : act.on p = (.ok k, p') := hk
        refine ⟨k + m, ?_⟩
        simp only [Bool.false_eq_true, if_false, hon, hm]
        rfl
  obtain ⟨n, hn⟩ := hlist a.procs h
  exact ⟨n, _, eq_mk_of_fst_eq hn⟩

/-! ## Pass after pass -/

lemma exists_of_counted {done : Except PassError Nat × Actor} {result : PassResult}
    (h : Pass.run.counted done = (.ok result, b)) : ∃ n, done = (.ok n, b) := by
  obtain ⟨_ | n, c⟩ := done
  · cases h
  · cases h
    exact ⟨n, rfl⟩

lemma runPasses_keeps {I : Actor → Prop} (hcasts : ∀ ⦃a n b⦄, I a → a.insertCasts = (.ok n, b) →
    I b) (hstores : ∀ ⦃a n b⦄, I a → a.storeOnce = (.ok n, b) → I b)
    (hconverts : ∀ ⦃a n b⦄, I a → a.ifConvert = (.ok n, b) → I b) (hphis : ∀ ⦃a n b⦄, I a →
    a.removePhis = (.ok n, b) → I b) (hmerges : ∀ ⦃a⦄, I a → I a.classify.2) {passes : List Pass}
    {start report : Report} (h : I a) (hy : a.runPasses start passes = .ok (report, b)) : I b := by
  have hrun : ∀ {pass : Pass} {result a b}, I a → pass.run a = (.ok result, b) → I b := by
    intro pass result a b h hdone
    cases pass with
    | insertCasts => exact (exists_of_counted hdone).elim fun _ hn => hcasts h hn
    | storeOnce => exact (exists_of_counted hdone).elim fun _ hn => hstores h hn
    | ifConvert => exact (exists_of_counted hdone).elim fun _ hn => hconverts h hn
    | removePhis => exact (exists_of_counted hdone).elim fun _ hn => hphis h hn
    | classify =>
      cases hdone
      exact hmerges h
  induction passes generalizing a start with
  | nil =>
    cases hy
    exact h
  | cons pass rest ih =>
    rw [Actor.runPasses] at hy
    split at hy
    · cases hy
    · rename_i result c hdone
      exact ih (hrun h hdone) hy

end ActorNet.Actor
