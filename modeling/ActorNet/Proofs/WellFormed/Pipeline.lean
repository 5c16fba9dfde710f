import ActorNet.Proofs.Merging.Dispatch
import ActorNet.Proofs.WellFormed.Passes
import ActorNet.Proofs.WellFormed.Trees

/-!
# Passes keep actors well formed

Each pass keeps a layout of every procedure (`Procedure.Laid`), in whatever order passes run and
whether or not locals are assigned once. So an actor that comes out of the pipeline passes the check
again, provided that the conditions of its procedures read live locals, which the check does not ask
for.

The tree of a dispatch procedure places its nodes, and all joins in it are blocks.
-/

namespace ActorNet

open List Procedure

/-! ## Procedures of merged actions -/

namespace Dispatch

variable {spared : LocalId → Prop} {known : Actor} {name : String} {actions rest : List Action} {left i : Nat}

lemma local?_isSome (hi : i < actions.length) : ((dispatch known name actions).local? ⟨i⟩).isSome := by
  simp only [local?, dispatch, Arena.get?_full, getElem?_map, Option.isSome_map]
  rw [getElem?_eq_getElem (by rw [length_zipIdx]; exact hi)]
  rfl

lemma isBlock_join (h : i + left ≤ actions.length) :
    ∀ b ∈ (chain left i).joins, (dispatch known name actions).isBlock b.1 = true := by
  induction left generalizing i with
  | zero => exact forall_mem_nil _
  | succ left ih =>
    simp only [chain, Tree.joins, nil_append, forall_mem_append, forall_mem_singleton]
    refine ⟨ih (by omega), ?_⟩
    rw [isBlock, node?_row known name (i := i) (by omega) (j := 1) (by decide)]
    rfl

lemma live_code (h : i + rest.length ≤ actions.length) : (code i rest).Live spared (dispatch known name actions) := by
  induction rest generalizing i with
  | nil => trivial
  | cons x rest ih =>
    rw [length_cons] at h
    have hlive : (dispatch known name actions).LiveIn spared [.loc ⟨i⟩] := by
      intro id hid
      cases mem_singleton.mp hid
      exact .inr (local?_isSome (by omega))
    exact ⟨hlive, ⟨hlive, forall_mem_nil _⟩, ⟨liveIn_nil, trivial⟩, ih (by omega), trivial⟩

end Dispatch

lemma Procedure.Laid.dispatch {spared : LocalId → Prop} (known : Actor) (name : String)
    (actions : List Action) : (dispatch known name actions).Laid spared := by
  refine .of_tree (t := Dispatch.tree actions.length) (Dispatch.spans_tree known name) ?_ ?_
    nofun
  · simp only [Dispatch.tree, Tree.joins_append, Tree.joins, List.append_nil]
    exact Dispatch.isBlock_join (by omega)
  · rw [Dispatch.code_tree]
    exact Code.forall_append.mpr ⟨Dispatch.live_code (Nat.zero_add _).le, liveIn_nil, trivial⟩

namespace Procedure

variable {spared : LocalId → Prop} {p p' : Procedure} {n : Nat}

namespace Laid

/-! ## Each pass -/

lemma alwaysTrue (name : String) : (alwaysTrue name).Laid spared :=
  of_verify rfl (of_decide_eq_true rfl)

end Laid

end Procedure

namespace Actor

variable {a b : Actor}

/-- The actor is consistent, and all its procedures are well formed. Those that passes transform
have a layout. -/
structure WellFormed (a : Actor) : Prop where
  consistent : a.Consistent
  supplied : a.Supplied
  verified : ∀ p ∈ a.procs, p.verify = .ok ()
  laid : ∀ p ∈ a.procs, p.native = false → p.Laid fun _ => False

lemma Consistent.withProcs (h : a.Consistent) {procs : List Procedure}
    (hlength : procs.length = a.procs.length) : { a with procs := procs }.Consistent where
  ids := h.ids
  procs := by
    have hproc : ∀ id, (a.proc? id).isSome → ({ a with procs := procs }.proc? id).isSome := by
      intro id hid
      obtain ⟨p, hp⟩ := isSome_iff_exists.mp hid
      have hlt : id.index < procs.length := hlength ▸ (List.getElem?_eq_some_iff.mp hp).1
      exact isSome_iff_exists.mpr ⟨_, List.getElem?_eq_getElem hlt⟩
    exact fun x hx => ⟨hproc _ (h.procs x hx).1, hproc _ (h.procs x hx).2⟩
  ports := h.ports
  fsm := h.fsm

namespace WellFormed

/-- A transformation that keeps layouts keeps actors well formed. -/
lemma transformProcs {act : Transform Nat} (h : a.WellFormed)
    (hact : ∀ {p p' : Procedure} {k : Nat}, p.Laid (fun _ => False) → Yields act p k p' →
    p'.Laid fun _ => False) {n : Nat} (hy : a.transformProcs act = (.ok n, b)) : b.WellFormed := by
  obtain ⟨hprocs, hb⟩ := forall₂_transformProcs hy
  have hcases : ∀ p' ∈ b.procs, p' ∈ a.procs ∨ p'.Laid fun _ => False := by
    intro p' hp'
    obtain ⟨p, hp, hsame, hdone⟩ := exists_of_mem_transformed hprocs hp'
    cases hnative : p.native with
    | true => exact .inl (hsame hnative ▸ hp)
    | false =>
      obtain ⟨k, hk⟩ := hdone hnative
      exact .inr (hact (h.laid p hp hnative) hk)
  rw [hb] at hcases ⊢
  refine ⟨h.consistent.withProcs hprocs.length_eq.symm, ⟨h.supplied.above, h.supplied.room⟩, ?_, ?_⟩
  · exact fun p' hp' => (hcases p' hp').elim (h.verified p') Laid.verify
  · exact fun p' hp' hnative => (hcases p' hp').elim (fun hp => h.laid p' hp hnative) id

lemma mergesTo {group : List Action} {merged : Action} (h : a.WellFormed)
    (hm : a.MergesTo group merged b) : b.WellFormed := by
  obtain ⟨name, name', known, hprocs⟩ := hm.procs
  have hcases : ∀ p ∈ b.procs, p ∈ a.procs ∨ p.Laid fun _ => False := by
    intro p hp
    rw [hprocs, List.mem_append] at hp
    refine hp.imp_right fun hp => ?_
    rcases List.mem_pair.mp hp with rfl | rfl
    · exact Laid.alwaysTrue name
    · exact Laid.dispatch known name' group
  refine ⟨hm.consistent h.consistent h.supplied, hm.supplied h.supplied, ?_, ?_⟩
  · exact fun p hp => (hcases p hp).elim (h.verified p) Laid.verify
  · exact fun p hp hnative => (hcases p hp).elim (fun hp => h.laid p hp hnative) id

lemma merged {merges : List Merge} (h : a.WellFormed) (hm : Merged a merges b) : b.WellFormed := by
  induction hm with
  | refl => exact h
  | step hmerge _ _ _ ih => exact ih (h.mergesTo hmerge)

lemma runPasses (h : a.WellFormed) {passes : List Pass} {start report : Report}
    (hy : a.runPasses start passes = .ok (report, b)) : b.WellFormed := by
  refine runPasses_keeps ?_ ?_ ?_ ?_ ?_ h hy
  · exact fun a n b h hn => h.transformProcs Laid.insertCasts hn
  · exact fun a n b h hn => h.transformProcs (fun hp hy => hp.storeOnce (yields_liftM.mp hy)) hn
  · exact fun a n b h hn => h.transformProcs Laid.ifConvert hn
  · exact fun a n b h hn => h.transformProcs Laid.removePhis hn
  · exact fun a h => h.merged (merged_classify h.consistent h.supplied)

lemma check (h : a.WellFormed) : a.check = .ok () :=
  check_eq_ok.mpr ⟨h.consistent, h.verified⟩

end WellFormed

/-- An actor that comes out of the pipeline passes the check, whichever passes are selected, if the
conditions of its procedures read live locals. -/
theorem check_transform {options : PipelineOptions} {report : Report} (hids : a.Supplied)
    (htests : ∀ p ∈ a.procs, p.native = false → p.TestsLive)
    (h : a.transform options = .ok (report, b)) : b.check = .ok () := by
  unfold transform at h
  split at h
  · cases h
  · rename_i hcheck
    obtain ⟨hconsistent, hverify⟩ := check_eq_ok.mp hcheck
    have hwell : a.WellFormed :=
      ⟨hconsistent, hids, hverify, fun p hp hnative => Laid.of_verify (hverify p hp) (htests p hp hnative)⟩
    exact (hwell.runPasses h).check

/-- A procedure that adds one of two numbers of different widths to the state variable. The choice
is made by a number, not by a truth value. -/
def choose : Procedure :=
  { name := "choose", params := [⟨0⟩, ⟨1⟩], returnTy := .void
    locals := .full [{ name := "c", ty := .int 8 }, { name := "x", ty := .int 32 }, { name := "y", ty := .int 16 },
      { name := "z", ty := .int 32 }, { name := "t", ty := .int 32 }]
    nodes := .full [.block [⟨0⟩, ⟨1⟩], .block [⟨2⟩], .block [], .branch (.var (.loc ⟨0⟩)) [⟨2⟩] [] ⟨1⟩, .block [⟨3⟩]]
    insts := .full [{ inst := .assign ⟨2⟩ (.int 1 (.int 16)), block := ⟨0⟩ },
      { inst := .load ⟨4⟩ (.glob ⟨0⟩) [], block := ⟨0⟩ },
      { inst := .phi ⟨3⟩ [⟨.thenEnd, .loc ⟨1⟩, none⟩, ⟨.elseEnd, .loc ⟨2⟩, none⟩], block := ⟨1⟩ },
      { inst := .store (.glob ⟨0⟩) [] (.binary .add (.var (.loc ⟨4⟩)) (.var (.loc ⟨3⟩)) (.int 32)), block := ⟨4⟩ }]
    body := [⟨0⟩, ⟨3⟩, ⟨4⟩] }

/-- An actor with two actions that may always fire. -/
def chooser : Actor :=
  { name := "chooser"
    globals := [{ name := "sum", ty := .int 32 }]
    procs := [.alwaysTrue "always", choose]
    actions := [{ id := ⟨0⟩, name := "first", scheduler := ⟨0⟩, body := ⟨1⟩ },
      { id := ⟨1⟩, name := "second", scheduler := ⟨0⟩, body := ⟨1⟩ }]
    ids := ⟨2⟩ }

lemma exists_of_toOption_map {ε α β : Type} {r : Except ε α} {f : α → β} {y : β}
    (h : r.toOption.map f = some y) : ∃ x, r = .ok x ∧ f x = y := by
  cases r with
  | error e => cases h
  | ok x => exact ⟨x, rfl, Option.some.inj h⟩

/-- All passes change the actor, and the outcome passes the check. -/
theorem check_transform_chooser : ∃ report b, chooser.transform ⟨true, true, true, true, true⟩ =
    .ok (report, b) ∧ report.passes.map (·.2) = [2, 1, 1, 1, 1] ∧ b.check = .ok () := by
  have hids : chooser.Supplied := by decide +kernel
  have htests : ∀ p ∈ chooser.procs, p.native = false → p.TestsLive := by decide +kernel
  have hcounts : (chooser.transform ⟨true, true, true, true, true⟩).toOption.map (fun done => done.1.passes.map (·.2)) =
      some [2, 1, 1, 1, 1] := by decide +kernel
  obtain ⟨⟨report, b⟩, hdone, hpasses⟩ := exists_of_toOption_map hcounts
  exact ⟨report, b, hdone, hpasses, check_transform hids htests hdone⟩

/-- An actor with a condition that reads a local which is not there. -/
def unbound : Actor :=
  { name := "unbound"
    procs := [{ name := "main", returnTy := .void
                nodes := .full [.block [], .branch (.list [.var (.loc ⟨5⟩)] (.int 8)) [] [] ⟨0⟩]
                body := [⟨1⟩] }] }

/-- The check accepts the condition. Once it has been cast, an assignment reads the local, and the
check refuses it. -/
theorem check_transform_unbound : unbound.check = .ok () ∧ unbound.Supplied ∧
    ∃ report b, unbound.transform ⟨true, false, false, false, false⟩ = .ok (report, b) ∧
      b.check = .error ⟨"unbound", .procedure ⟨"main", .staleLocal ⟨5⟩⟩⟩ := by
  refine ⟨by decide +kernel, by decide +kernel, ?_⟩
  have hcheck : (unbound.transform ⟨true, false, false, false, false⟩).toOption.map (fun done => done.2.check) =
      some (.error ⟨"unbound", .procedure ⟨"main", .staleLocal ⟨5⟩⟩⟩) := by decide +kernel
  obtain ⟨⟨report, b⟩, hdone, hfault⟩ := exists_of_toOption_map hcheck
  exact ⟨report, b, hdone, hfault⟩

end Actor

end ActorNet
