import ActorNet.Network.Fingerprint
import ActorNet.Proofs.Documents.Coding
import ActorNet.Proofs.Network.Descriptions
import ActorNet.Proofs.Network.Reading

/-!
# Fingerprints depend on the description only

The texts that are hashed are the compact document of a network and the sorted document of the
classes. Spans, the layout of the source and the order of registration do not reach them, and a
network that is built again from its own document has the same texts.
-/

namespace ActorNet

open List Network

variable {c : ConnectionDecl} {i : InstanceDecl} {n : Network} {decl : NetworkDecl} {registry : Registry}
  {source : String}

/-! ## Registries -/

namespace Registry

/-- What registering classes one after the other leads to. -/
inductive Registered : Registry → Prop where
  | empty : Registered {}
  | register {r next : Registry} {c : ActorClass} : Registered r → r.register c = .ok next → Registered next

variable {r r' : Registry}

lemma Registered.distinct (h : r.Registered) : (r.classes.map (·.name)).Nodup := by
  induction h with
  | empty => exact nodup_nil
  | @register r next c _ hnext ih =>
    rw [Registry.register] at hnext
    split at hnext
    · cases hnext
    · next hfresh =>
      cases hnext
      simpa [nodup_append, ih, lookup?] using hfresh

section SameClasses

variable (h : (r.classes.map (·.name)).Nodup) (hperm : r.classes.Perm r'.classes)

include h

lemma lookup?_eq_some_iff {name : String} {c : ActorClass} :
    r.lookup? name = some c ↔ c ∈ r.classes ∧ c.name = name := by
  constructor
  · intro hc
    exact ⟨mem_of_find?_eq_some hc, by simpa using find?_some hc⟩
  · rintro ⟨hc, hname⟩
    obtain ⟨c', hc'⟩ := isSome_iff_exists.mp
      (find?_isSome (p := fun c => decide (c.name = name)).mpr ⟨c, hc, by simp [hname]⟩)
    have hname' : c'.name = name := by simpa using find?_some hc'
    rw [lookup?, hc', inj_on_of_nodup_map h (mem_of_find?_eq_some hc') hc (hname'.trans hname.symm)]

include hperm

lemma lookup?_congr : r.lookup? = r'.lookup? := by
  funext name
  refine Option.ext fun c => ?_
  rw [lookup?_eq_some_iff h, lookup?_eq_some_iff ((hperm.map _).nodup_iff.mp h), hperm.mem_iff]

lemma canonical_congr : r.canonical = r'.canonical := by
  have hsorted (r : Registry) : r.sorted.Pairwise fun a b => a.name ≤ b.name := by
    refine (pairwise_mergeSort (fun a b c => ?_) (fun a b => ?_) r.classes).imp fun hle => of_decide_eq_true hle
    · simpa using fun hab hbc => String.le_trans hab hbc
    · simpa using String.le_total a.name b.name
  have hmem (c : ActorClass) : c ∈ r.sorted ↔ c ∈ r.classes := (mergeSort_perm _ _).mem_iff
  have heq : r.sorted = r'.sorted := by
    have hsortedPerm : r.sorted.Perm r'.sorted :=
      (mergeSort_perm _ _).trans (hperm.trans (mergeSort_perm _ _).symm)
    refine hsortedPerm.eq_of_pairwise (fun a b ha hb hab hba => ?_) (hsorted r) (hsorted r')
    exact inj_on_of_nodup_map h ((hmem a).mp ha) ((hmem b).mp (hsortedPerm.mem_iff.mpr hb))
      (String.le_antisymm hab hba)
  rw [canonical, canonical, heq]

end SameClasses

end Registry

namespace Network

lemma build_congr {registry' : Registry} (h : registry.lookup? = registry'.lookup?) :
    build decl registry = build decl registry' := by
  have hadd : addInstance registry = addInstance registry' := by
    funext seen i
    rw [addInstance, addInstance, h]
  have hresolve : resolve registry = resolve registry' := by
    funext instances c
    rw [resolve, resolve, h]
  rw [build, build, hadd, hresolve]

end Network

/-! ## Texts with the same tokens -/

namespace Grammar

lemma map_fst_placed (items : List ItemTree) (tokens : List (Token × Span)) :
    (placed items tokens).map (·.1) = items := by
  induction items generalizing tokens with
  | nil => rfl
  | cons item rest ih => rw [placed, map_cons, ih]

lemma filterMap_placed {α : Type} {f : ItemTree → Option Span → Option α} {g : α → α}
    (h : ∀ item span, (f item span).map g = f item none) (items : List ItemTree) (tokens : List (Token × Span)) :
    ((placed items tokens).filterMap fun (item, span) => f item span).map g = items.filterMap (f · none) := by
  calc ((placed items tokens).filterMap fun (item, span) => f item span).map g
      = (placed items tokens).filterMap fun p => f p.1 none := by simp only [map_filterMap, h]
    _ = ((placed items tokens).map (·.1)).filterMap (f · none) := by rw [filterMap_map]; rfl
    _ = items.filterMap (f · none) := by rw [map_fst_placed]

/-- What a derivation denotes depends on the tokens for its places only. -/
lemma NetworkTree.unplaced_decl (tree : NetworkTree) (tokens : List (Token × Span)) : (tree.decl tokens).unplaced =
      ⟨tree.name, tree.items.filterMap (·.instance? none), tree.items.filterMap (·.connection? none), none⟩ := by
  have hinstance (item : ItemTree) (span : Option Span) :
      (item.instance? span).map InstanceDecl.unplaced = item.instance? none := by
    rw [ItemTree.instance?, ItemTree.instance?]
    cases item.head <;> rfl
  have hconnection (item : ItemTree) (span : Option Span) :
      (item.connection? span).map ConnectionDecl.unplaced = item.connection? none := by
    rw [ItemTree.connection?, ItemTree.connection?]
    cases item.head <;> rfl
  rw [NetworkDecl.unplaced, decl, filterMap_placed hinstance, filterMap_placed hconnection]

end Grammar

open Grammar

lemma Network.ofText_eq_ok_iff : ofText source registry = .ok n ↔ (lex source).errors = [] ∧ ∃ tree : NetworkTree,
      tree.tokens = (lex source).tokens.map (·.1) ∧ build (tree.decl (lex source).tokens) registry = .ok n := by
  have hparsed : ofText source registry = .ok n ↔ ∃ decl,
      ((parse source).errors = [] ∧ (parse source).network = some decl) ∧ build decl registry = .ok n := by
    rw [ofText]
    rcases (parse source).errors with _ | ⟨e, rest⟩ <;> cases (parse source).network <;> simp
  simp only [hparsed, parse_eq_some_iff]
  constructor
  · rintro ⟨decl, ⟨hlex, tree, htokens, rfl⟩, hn⟩
    exact ⟨hlex, tree, htokens, hn⟩
  · rintro ⟨hlex, tree, htokens, hn⟩
    exact ⟨_, ⟨hlex, tree, htokens, rfl⟩, hn⟩

/-! ## Documents of descriptions -/

namespace Literal

mutual

lemma coded : (literal : Literal) → Coded toJson ofJson? literal
  | bool b => ⟨trivial, by rw [toJson, ofJson?]⟩
  | int n => ⟨Json.plain_int64 n, by rw [toJson, ofJson?, Json.asInt64?_int, map_some]⟩
  | str s => ⟨trivial, by rw [toJson, ofJson?]⟩
  | list items =>
    have hitems := codedItems items
    ⟨hitems.1, by rw [toJson, ofJson?, hitems.2, map_some]⟩

lemma codedItems : (items : List Literal) →
    Json.PlainElems (itemsToJson items) ∧ itemsOfJson? (itemsToJson items) = some items
  | [] => ⟨trivial, by rw [itemsToJson, itemsOfJson?]⟩
  | item :: rest =>
    have hitem := item.coded
    have hrest := codedItems rest
    ⟨⟨hitem.plain, hrest.1⟩, by simp [itemsToJson, itemsOfJson?, hitem.decodes, hrest.2]⟩

end

end Literal

lemma coded_params {params : Params} (h : (params.map (·.1)).Nodup) : Coded Params.toJson Params.ofJson? params :=
  Json.coded_map h fun e _ => e.2.coded

/-- Parameters and attributes are mappings. -/
structure NetworkDecl.Mapped (decl : NetworkDecl) : Prop where
  params : ∀ i ∈ decl.instances, (i.params.map (·.1)).Nodup
  attributes : ∀ c ∈ decl.connections, (c.attributes.map (·.1)).Nodup

attribute [local simp] Json.plain_obj Json.plain_str Json.record? Json.Record.required? Json.Record.defaulting?
  List.lookup_cons Json.asString?

lemma coded_instanceDecl (h : (i.params.map (·.1)).Nodup) :
    Coded InstanceDecl.toJson InstanceDecl.ofJson? i.unplaced := by
  have hparams := coded_params h
  simp [coded_iff, InstanceDecl.unplaced, InstanceDecl.toJson, InstanceDecl.ofJson?, hparams.plain, hparams.decodes]

lemma coded_connectionDecl (h : (c.attributes.map (·.1)).Nodup) :
    Coded ConnectionDecl.toJson ConnectionDecl.ofJson? c.unplaced := by
  have hattributes := coded_params h
  by_cases hempty : c.attributes = [] <;> simp [coded_iff, ConnectionDecl.unplaced,
    ConnectionDecl.toJson, ConnectionDecl.ofJson?, hempty, hattributes.plain, hattributes.decodes]

lemma coded_networkDecl (h : decl.Mapped) : Coded NetworkDecl.toJson NetworkDecl.ofJson? decl.unplaced := by
  have hinstances : Coded (fun is => .arr (is.map InstanceDecl.toJson)) (Json.listOf? InstanceDecl.ofJson?)
      (decl.instances.map InstanceDecl.unplaced) := Json.coded_list _ <| by
    simpa using fun i hi => coded_instanceDecl (h.params i hi)
  have hconnections : Coded (fun cs => .arr (cs.map ConnectionDecl.toJson)) (Json.listOf? ConnectionDecl.ofJson?)
      (decl.connections.map ConnectionDecl.unplaced) := Json.coded_list _ <| by
    simpa using fun c hc => coded_connectionDecl (h.attributes c hc)
  refine ⟨?_, ?_⟩
  · simp only [NetworkDecl.unplaced, NetworkDecl.toJson, Json.plain_obj, forall_mem_cons]
    exact ⟨trivial, hinstances.plain, hconnections.plain, forall_mem_nil _⟩
  · simp [NetworkDecl.unplaced, NetworkDecl.toJson, NetworkDecl.ofJson?, -List.map_map,
      hinstances.decodes, hconnections.decodes]

lemma Grammar.NetworkTree.mapped_decl (tree : NetworkTree) (tokens : List (Token × Span)) :
    (tree.decl tokens).Mapped := by
  have hnames (item : ItemTree) : ((Json.lastValues item.entries).map (·.1)).Nodup := by
    rw [← Json.collectEntries_eq_lastValues]
    exact Json.nodup_collectEntries _
  constructor
  · intro i hi
    obtain ⟨⟨item, span⟩, -, hitem⟩ := mem_filterMap.mp hi
    simp only [ItemTree.instance?] at hitem
    split at hitem
    · cases hitem
      exact hnames item
    · cases hitem
  · intro c hc
    obtain ⟨⟨item, span⟩, -, hitem⟩ := mem_filterMap.mp hc
    simp only [ItemTree.connection?] at hitem
    split at hitem
    · cases hitem
    · cases hitem
      exact hnames item

/-! ## What is hashed -/

namespace Fingerprint

/-- A network can be built again from the text that is hashed for it, and the text stays the
same. -/
lemma networkText_rebuild (hbuild : Network.build decl registry = .ok n) (hmapped : decl.Mapped)
    (hdepth : n.toDecl.toJson.height ≤ Json.maxDepth) : ∃ again,
      (Json.parse? (networkText n)).bind NetworkDecl.ofJson? = some n.toDecl ∧
        Network.build n.toDecl registry = .ok again ∧ networkText again = networkText n := by
  have hn := toDecl_of_build hbuild
  have hcoded : Coded NetworkDecl.toJson NetworkDecl.ofJson? n.toDecl := hn ▸ coded_networkDecl hmapped
  have hunplaced : n.toDecl.unplaced = n.toDecl := by
    rw [hn]
    simp [NetworkDecl.unplaced, InstanceDecl.unplaced, ConnectionDecl.unplaced]
  obtain ⟨again, hagain⟩ := (exists_build_congr (hn.symm.trans hunplaced.symm)).mp ⟨n, hbuild⟩
  refine ⟨again, ?_, hagain, ?_⟩
  · rw [networkText, Json.parse?_compact hcoded.plain hdepth, bind_some, hcoded.decodes]
  · rw [networkText, networkText, toDecl_of_build hagain, hunplaced]

variable {r r' : Registry} {source' : String}

/-- Two texts with the same tokens are both accepted or both refused, whatever blanks and comments
they hold and in whatever order the classes were registered. The fingerprint holds the digests of
two texts, so it is the same then, because these texts are, and it stays the same for the network
that is built again from its own compact document, if that is not nested too deeply. -/
theorem hashed_texts_agree (hr : r.Registered) (hclasses : r.classes.Perm r'.classes)
    (hlex : (lex source).errors = []) (hlex' : (lex source').errors = [])
    (htokens : (lex source).tokens.map (·.1) = (lex source').tokens.map (·.1)) :
    ((∃ n, Network.ofText source r = .ok n) ↔ ∃ n, Network.ofText source' r' = .ok n) ∧
    ∀ n n', Network.ofText source r = .ok n → Network.ofText source' r' = .ok n' →
      networkText n = networkText n' ∧ r.canonical = r'.canonical ∧ compute n r = compute n' r' ∧
      compute n r = ⟨Digest.ofText (networkText n), Digest.ofText r.canonical⟩ ∧
      (n.toDecl.toJson.height ≤ Json.maxDepth → ∃ decl again,
        (Json.parse? (networkText n)).bind NetworkDecl.ofJson? = some decl ∧
        Network.build decl r = .ok again ∧ Network.build decl r' = .ok again ∧
        networkText again = networkText n ∧ compute again r' = compute n r) := by
  have hcanonical := Registry.canonical_congr hr.distinct hclasses
  have hbuilds (decl : NetworkDecl) : Network.build decl r' = Network.build decl r :=
    Network.build_congr (Registry.lookup?_congr hr.distinct hclasses).symm
  have hplaces (tree : NetworkTree) :
      (tree.decl (lex source).tokens).unplaced = (tree.decl (lex source').tokens).unplaced := by
    rw [tree.unplaced_decl, tree.unplaced_decl]
  simp only [ofText_eq_ok_iff, hlex, hlex', true_and, htokens, hbuilds]
  constructor
  · constructor
    · rintro ⟨n, tree, htree, hn⟩
      obtain ⟨n', hn'⟩ := (exists_build_congr (hplaces tree)).mp ⟨n, hn⟩
      exact ⟨n', tree, htree, hn'⟩
    · rintro ⟨n', tree, htree, hn'⟩
      obtain ⟨n, hn⟩ := (exists_build_congr (hplaces tree)).mpr ⟨n', hn'⟩
      exact ⟨n, tree, htree, hn⟩
  · rintro n n' ⟨tree, htree, hn⟩ ⟨tree', htree', hn'⟩
    cases NetworkTree.tokens_injective (htree.trans htree'.symm)
    have htext : networkText n = networkText n' := by
      rw [networkText, networkText, toDecl_of_build hn, toDecl_of_build hn', hplaces]
    refine ⟨htext, hcanonical, by rw [compute, compute, htext, hcanonical], rfl, fun hdepth => ?_⟩
    obtain ⟨again, hparsed, hagain, hsame⟩ := networkText_rebuild hn (tree.mapped_decl _) hdepth
    exact ⟨n.toDecl, again, hparsed, hagain, hagain, hsame, by rw [compute, compute, hsame, hcanonical]⟩

/-- A class with an output. -/
def emitter : ActorClass := { name := "Emitter", outputs := [⟨"out", .int 32⟩] }

/-- A class with an input. -/
def absorber : ActorClass := { name := "Absorber", inputs := [⟨"in", .int 32⟩] }

def line : String :=
  "network pair \x7b instance a : Emitter(rate = [1, 2]); instance b : Absorber; " ++
    "a.out -> b.in \x7b bufferSize = 4 \x7d; \x7d"

def lines : String :=
  "// an emitter and an absorber\nnetwork pair \x7b\n  instance a : Emitter(rate=[1,2]);\n  instance b: Absorber;\n" ++
    "  a.out -> b.in \x7b bufferSize = 4 \x7d;\n\x7d\n"

theorem hashed_texts_agree_pair :
    (Network.ofText line ⟨[emitter, absorber]⟩).isOk ∧ (Network.ofText lines ⟨[absorber, emitter]⟩).isOk ∧
    ∀ n n', Network.ofText line ⟨[emitter, absorber]⟩ = .ok n → Network.ofText lines ⟨[absorber, emitter]⟩ = .ok n' →
      networkText n = networkText n' ∧ compute n ⟨[emitter, absorber]⟩ = compute n' ⟨[absorber, emitter]⟩ := by
  refine ⟨by decide +kernel, by decide +kernel, fun n n' hn hn' => ?_⟩
  have hregistered : Registry.Registered ⟨[emitter, absorber]⟩ :=
    .register (c := absorber) (.register (c := emitter) .empty rfl) rfl
  obtain ⟨htext, -, hsame, -⟩ := (hashed_texts_agree hregistered (.swap _ _ _) (by decide +kernel)
    (by decide +kernel) (by decide +kernel)).2 n n' hn hn'
  exact ⟨htext, hsame⟩

end Fingerprint

end ActorNet
