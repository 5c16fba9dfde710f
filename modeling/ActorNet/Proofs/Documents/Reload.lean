import ActorNet.Proofs.Documents.Decoded
import ActorNet.Proofs.Documents.Provenance
import ActorNet.Proofs.WellFormed.Pipeline

/-!
# Reading an actor back from its document

Reading a document decodes an actor, sets its supply of action ids past the ids in use, and checks
it. An actor whose types have a readable text and whose numbers fit a word is decoded from its own
document, so it is read back exactly when it passes the check, with nothing but the supply set anew.

The pipeline keeps the check when conditions read live locals, and its types stay readable unless an
unsigned integer of the widest readable width is combined with a signed one: the least upper bound
of the two is one bit too wide.
-/

namespace ActorNet

open Json Text

/-! ## The supply of action ids -/

namespace ActionSupply

end ActionSupply

namespace Actor

variable {a b : Actor} {text : String}

lemma check_withIds {ids : ActionSupply} : { a with ids := ids }.check = .ok () ↔ a.check = .ok () := by
  rw [check_eq_ok, check_eq_ok]
  exact and_congr_left' ⟨fun h => ⟨h.1, h.2, h.3, h.4⟩, fun h => ⟨h.1, h.2, h.3, h.4⟩⟩

/-! ## Reading a document -/

lemma of_load (h : load text = .ok a) : a.check = .ok () ∧ ∀ ty ∈ a.types, ty.Within 64 64 := by
  unfold load ofDocument at h
  split at h
  · cases h
  · split at h
    · cases h
    · rename_i j hj c hc
      dsimp only at h
      split at h
      · rename_i hcheck
        cases h
        have htypes : ∀ ty ∈ c.types, ty.Within 64 64 := gives_actor hc
        exact ⟨hcheck, htypes⟩
      · cases h

lemma load_document (hwritten : Written a.types a.words) (hdepth : a.toJson.height ≤ maxDepth)
    (hcheck : a.check = .ok ()) : load a.document = .ok { a with ids := {} }.reserveIds := by
  obtain ⟨hplain, hdecodes⟩ := plain_toJson_and_decodes hwritten
  have hids : { a with ids := {} }.reserveIds.check = .ok () := check_withIds.mpr (check_withIds.mpr hcheck)
  simp only [load, document, parse?_pretty hplain hdepth, ofDocument, hdecodes, hids]

/-- The actors that are read back from their own document. -/
lemma load_document_iff (hwords : ∀ n ∈ a.words, n ≤ word32Max) (hdepth : a.toJson.height ≤ maxDepth) :
    (∃ ids, load a.document = .ok { a with ids := ids }) ↔ a.check = .ok () ∧ ∀ ty ∈ a.types, ty.Within 64 64 := by
  constructor
  · rintro ⟨ids, hload⟩
    obtain ⟨hcheck, htypes⟩ := of_load hload
    exact ⟨check_withIds.mp hcheck, htypes⟩
  · rintro ⟨hcheck, htypes⟩
    exact ⟨_, load_document ⟨htypes, hwords⟩ hdepth hcheck⟩

/-- What comes out of the pipeline is read back from its document exactly when it passes the check
and has readable types. The first holds if the conditions read live locals and the handles last, the
second if no type is an unsigned integer of the widest readable width. No type is wider than a
signed integer of one bit more. -/
theorem load_document_transform {options : PipelineOptions} {report : Report} (hload : load text = .ok a)
    (h : a.transform options = .ok (report, b)) (hwords : ∀ n ∈ b.words, n ≤ word32Max)
    (hdepth : b.toJson.height ≤ maxDepth) :
    ((∃ ids, load b.document = .ok { b with ids := ids }) ↔ b.check = .ok () ∧ ∀ ty ∈ b.types, ty.Within 64 64) ∧
      (a.Supplied → (∀ p ∈ a.procs, p.native = false → p.TestsLive) → b.check = .ok ()) ∧
      ((∀ ty ∈ a.types, ty.Within 64 63) → ∀ ty ∈ b.types, ty.Within 64 64) ∧ ∀ ty ∈ b.types, ty.Within 65 64 := by
  obtain ⟨hcheck, hreadable⟩ := of_load hload
  have hpasses : a.runPasses {} options.passes = .ok (report, b) := by simpa only [transform, hcheck] using h
  have hkept : ∀ {signed unsigned : Nat}, unsigned < signed → (∀ ty ∈ a.types, ty.Within signed unsigned) →
      ∀ ty ∈ b.types, ty.Within signed unsigned := fun hlt htypes =>
    typed_iff.mp ((typed_iff.mpr htypes).runPasses (Ty.closed_within hlt) hpasses)
  refine ⟨load_document_iff hwords hdepth, fun hids htests => ?_, fun hnarrow => ?_, ?_⟩
  · obtain ⟨hconsistent, hverify⟩ := check_eq_ok.mp hcheck
    have hwell : a.WellFormed :=
      ⟨hconsistent, hids, hverify, fun p hp hnative => .of_verify (hverify p hp) (htests p hp hnative)⟩
    exact (hwell.runPasses hpasses).check
  · exact fun ty hty => (hkept (by decide) hnarrow ty hty).mono le_rfl (by decide)
  · exact hkept (by decide) fun ty hty => (hreadable ty hty).mono (by decide) le_rfl

/-- The document of an actor goes through all passes, and what comes out is read back. -/
theorem load_document_transform_chooser : load chooser.document = .ok chooser ∧ ∃ report b,
    chooser.transform ⟨true, true, true, true, true⟩ = .ok (report, b) ∧ report.passes.map (·.2) =
      [2, 1, 1, 1, 1] ∧ ∃ ids, load b.document = .ok { b with ids := ids } := by
  have hload : load chooser.document = .ok chooser :=
    load_document ⟨by decide +kernel, by decide +kernel⟩ (by decide +kernel) (by decide +kernel)
  have hdone : (chooser.transform ⟨true, true, true, true, true⟩).toOption.map (fun done =>
      (done.1.passes.map (·.2), decide ((∀ n ∈ done.2.words, n ≤ word32Max) ∧ done.2.toJson.height ≤ maxDepth))) =
      some ([2, 1, 1, 1, 1], true) := by decide +kernel
  obtain ⟨⟨report, b⟩, htransform, hdone⟩ := exists_of_toOption_map hdone
  obtain ⟨hcounts, hsize⟩ := Prod.mk.inj hdone
  obtain ⟨hwords, hdepth⟩ := of_decide_eq_true hsize
  obtain ⟨hiff, hcheck, htypes, -⟩ := load_document_transform hload htransform hwords hdepth
  exact ⟨hload, report, b, htransform, hcounts,
    hiff.mpr ⟨hcheck (by decide +kernel) (by decide +kernel), htypes (by decide +kernel)⟩⟩

/-- An actor that compares an unsigned number of the widest readable width with a signed one. -/
def comparer : Actor :=
  { name := "comparer"
    procs := [{ name := "less", params := [⟨0⟩, ⟨1⟩], returnTy := .bool
                locals := .full [{ name := "x", ty := .uint 64 }, { name := "y", ty := .int 8 }]
                nodes := .full [.block [⟨0⟩]]
                insts := .full [{ inst := .ret (some (.binary .lt (.var (.loc ⟨0⟩)) (.var (.loc ⟨1⟩)) .bool)),
                                  block := ⟨0⟩ }]
                body := [⟨0⟩] }] }

/-- Both numbers are cast to a type that no document can hold. The outcome passes the check, and is
not read back. -/
theorem load_document_transform_comparer : load comparer.document = .ok comparer ∧ ∃ report b,
    comparer.transform ⟨true, false, false, false, false⟩ = .ok (report, b) ∧ b.check = .ok () ∧
      (∀ n ∈ b.words, n ≤ word32Max) ∧ b.toJson.height ≤ maxDepth ∧ Ty.int 65 ∈ b.types ∧
      ¬∃ ids, load b.document = .ok { b with ids := ids } := by
  have hload : load comparer.document = .ok comparer :=
    load_document ⟨by decide +kernel, by decide +kernel⟩ (by decide +kernel) (by decide +kernel)
  have hdone : (comparer.transform ⟨true, false, false, false, false⟩).toOption.map (fun done =>
      decide (done.2.check = .ok () ∧ (∀ n ∈ done.2.words, n ≤ word32Max) ∧ done.2.toJson.height ≤
        maxDepth ∧ Ty.int 65 ∈ done.2.types)) = some true := by decide +kernel
  obtain ⟨⟨report, b⟩, htransform, hdone⟩ := exists_of_toOption_map hdone
  obtain ⟨hcheck, hwords, hdepth, hwide⟩ := of_decide_eq_true hdone
  refine ⟨hload, report, b, htransform, hcheck, hwords, hdepth, hwide, fun hback => ?_⟩
  exact absurd (((load_document_iff hwords hdepth).mp hback).2 _ hwide) (by decide)

end Actor

end ActorNet
