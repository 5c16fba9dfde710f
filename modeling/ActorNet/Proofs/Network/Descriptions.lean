import ActorNet.Proofs.Network.Validity
import Mathlib.Data.List.Forall2

/-!
# Networks and their descriptions

A network has the description that it was built from, but for the places in the text. The names of
instances become positions and the names of ports become ports, and both can be read off the network
again (`toDecl_of_build`). So the description of a network builds that network.
-/

namespace ActorNet

open List

variable {c : ConnectionDecl} {i : InstanceDecl} {n : Network} {decl decl' : NetworkDecl} {registry : Registry}
  {k : Connection}

/-! ## Spans -/

/-- The declaration without its place in the text. -/
def InstanceDecl.unplaced (i : InstanceDecl) : InstanceDecl :=
  { i with span := none }

/-- The declaration without its place in the text. -/
def ConnectionDecl.unplaced (c : ConnectionDecl) : ConnectionDecl :=
  { c with span := none }

/-- The description without places in the text. -/
def NetworkDecl.unplaced (decl : NetworkDecl) : NetworkDecl :=
  { name := decl.name
    instances := decl.instances.map InstanceDecl.unplaced
    connections := decl.connections.map ConnectionDecl.unplaced }

section Unplaced

lemma InstanceDecl.sound_unplaced : i.unplaced.Sound registry ↔ i.Sound registry :=
  ⟨fun h => ⟨h.id, h.cls, h.params, h.known⟩, fun h => ⟨h.id, h.cls, h.params, h.known⟩⟩

lemma ConnectionDecl.joins_unplaced {instances : List InstanceDecl} {source target : Port} :
    c.unplaced.Joins registry (instances.map InstanceDecl.unplaced) source target ↔
      c.Joins registry instances source target := by
  have hend (id : String) (port? : ActorClass → Option Port) (port : Port) :
      (∃ i ∈ instances.map InstanceDecl.unplaced, i.id = id ∧
        ∃ cls, registry.lookup? i.cls = some cls ∧ port? cls = some port) ↔
      ∃ i ∈ instances, i.id = id ∧ ∃ cls, registry.lookup? i.cls = some cls ∧ port? cls = some port := by
    simp [InstanceDecl.unplaced]
  constructor
  · rintro ⟨hnamed, hsource, htarget, hbuffer⟩
    exact ⟨hnamed, (hend _ _ _).mp hsource, (hend _ _ _).mp htarget, hbuffer⟩
  · rintro ⟨hnamed, hsource, htarget, hbuffer⟩
    exact ⟨hnamed, (hend _ _ _).mpr hsource, (hend _ _ _).mpr htarget, hbuffer⟩

namespace NetworkDecl

lemma structured_unplaced : decl.unplaced.Structured registry ↔ decl.Structured registry := by
  have hids : decl.unplaced.instances.map (·.id) = decl.instances.map (·.id) := by
    simp [unplaced, InstanceDecl.unplaced, Function.comp_def]
  have hinstances : (∀ i ∈ decl.unplaced.instances, i.Sound registry) ↔ ∀ i ∈ decl.instances, i.Sound registry := by
    simp [unplaced, InstanceDecl.sound_unplaced]
  have hconnections : (∀ c ∈ decl.unplaced.connections, ∃ source target,
      c.Joins registry decl.unplaced.instances source target) ↔
      ∀ c ∈ decl.connections, ∃ source target, c.Joins registry decl.instances source target := by
    simp [unplaced, ConnectionDecl.joins_unplaced]
  constructor
  · intro h
    exact ⟨h.name, by simpa [unplaced] using h.nonempty, hinstances.mp h.instances, hids ▸ h.distinct,
      hconnections.mp h.connections⟩
  · intro h
    exact ⟨h.name, by simpa [unplaced] using h.nonempty, hinstances.mpr h.instances, hids.symm ▸ h.distinct,
      hconnections.mpr h.connections⟩

lemma wellTyped_unplaced : decl.unplaced.WellTyped registry decl.unplaced.connections ↔
    decl.WellTyped registry decl.connections := by
  simp [WellTyped, unplaced, ConnectionDecl.joins_unplaced]

end NetworkDecl

end Unplaced

/-- The network without places in the text. -/
def Network.unplaced (n : Network) : Network :=
  { n with connections := n.connections.map fun k => { k with span := none } }

/-- A connection leads from the output port to the input port that a declaration names, at the
instances that it names, and the ports have equal types. -/
structure Network.Follows (registry : Registry) (n : Network) (c : ConnectionDecl) (k : Connection) : Prop where
  source : ∃ i cls, n.instances[k.source]? = some i ∧ i.id = c.src ∧ registry.lookup? i.cls = some cls ∧
    cls.output? c.srcPort = some k.sourcePort
  target : ∃ i cls, n.instances[k.target]? = some i ∧ i.id = c.dst ∧ registry.lookup? i.cls = some cls ∧
    cls.input? c.dstPort = some k.targetPort
  types : k.sourcePort.ty = k.targetPort.ty

namespace Network

lemma forall₂_resolve (h : graph decl registry = .ok n) :
    Forall₂ (fun c k => resolve registry n.instances c = .ok k) decl.connections n.connections := by
  obtain ⟨-, -, -, hks⟩ := graph_eq_ok_iff.mp h
  rw [← forall₂_eq_eq_eq, forall₂_map_left_iff, forall₂_map_right_iff] at hks
  exact hks

lemma follows_of_resolve (h : resolve registry n.instances c = .ok k)
    (hty : k.sourcePort.ty = k.targetPort.ty) : n.Follows registry c k := by
  obtain ⟨-, -, -, hsourcePort, htargetPort, -⟩ := resolve_eq_ok_iff.mp h
  obtain ⟨hsource, -, htarget, -⟩ := names_of_resolve h
  have hend {index : Nat} {id : String} {port? : ActorClass → Option Port} {port : Port}
      (hid : n.instances[index]?.map (·.id) = some id)
      (hport : (classAt registry n.instances index).bind port? = some port) :
      ∃ i cls, n.instances[index]? = some i ∧ i.id = id ∧ registry.lookup? i.cls = some cls ∧
        port? cls = some port := by
    obtain ⟨i, hi, rfl⟩ := map_eq_some_iff.mp hid
    obtain ⟨cls, hcls, hport⟩ := bind_eq_some_iff.mp hport
    rw [classAt, hi] at hcls
    exact ⟨i, cls, hi, rfl, hcls, hport⟩
  exact ⟨hend hsource hsourcePort, hend htarget htargetPort, hty⟩

lemma toDecl_of_build (h : build decl registry = .ok n) : n.toDecl = decl.unplaced := by
  obtain ⟨hgraph, -⟩ := build_eq_ok_iff.mp h
  obtain ⟨-, hname, hinstances, -⟩ := graph_eq_ok_iff.mp hgraph
  have hconnections : decl.connections.map ConnectionDecl.unplaced = n.connections.map fun k =>
      (⟨n.nameOf k.source, k.sourcePort.name, n.nameOf k.target, k.targetPort.name, k.attributes, none⟩ :
        ConnectionDecl) := by
    rw [← forall₂_eq_eq_eq, forall₂_map_left_iff, forall₂_map_right_iff]
    refine (forall₂_resolve hgraph).imp fun c k hk => ?_
    obtain ⟨hsource, hsourcePort, htarget, htargetPort⟩ := names_of_resolve hk
    obtain ⟨-, -, -, -, -, -, hattributes, -⟩ := resolve_eq_ok_iff.mp hk
    rw [nameOf_eq hsource, nameOf_eq htarget, hsourcePort, htargetPort, hattributes]
    rfl
  rw [toDecl, ← hconnections, hname, hinstances, List.map_map]
  rfl

lemma exists_build_congr (h : decl.unplaced = decl'.unplaced) :
    (∃ n, build decl registry = .ok n) ↔ ∃ n, build decl' registry = .ok n := by
  rw [exists_build_iff, exists_build_iff, ← NetworkDecl.structured_unplaced, ← NetworkDecl.wellTyped_unplaced, h,
    NetworkDecl.structured_unplaced, NetworkDecl.wellTyped_unplaced]

lemma bufferSize?_unplaced {attributes : Params} {span : Option Span} {size : Option Nat}
    (h : bufferSize? attributes span = .ok size) : bufferSize? attributes none = .ok size := by
  rw [bufferSize?] at h ⊢
  split at h <;> grind

lemma resolve_unplaced {instances : List Instance} (h : resolve registry instances c = .ok k) :
    resolve registry instances c.unplaced = .ok { k with span := none } := by
  obtain ⟨hnamed, hsource, htarget, hsourcePort, htargetPort, hsize, hattributes, -⟩ := resolve_eq_ok_iff.mp h
  exact resolve_eq_ok_iff.mpr
    ⟨hnamed, hsource, htarget, hsourcePort, htargetPort, bufferSize?_unplaced hsize, hattributes, rfl⟩

lemma build_unplaced (h : build decl registry = .ok n) : build decl.unplaced registry = .ok n.unplaced := by
  obtain ⟨hgraph, htyped⟩ := build_eq_ok_iff.mp h
  obtain ⟨hstructured, hname, hinstances, -⟩ := graph_eq_ok_iff.mp hgraph
  refine build_eq_ok_iff.mpr ⟨graph_eq_ok_iff.mpr ⟨NetworkDecl.structured_unplaced.mpr hstructured,
    hname, ?_, ?_⟩, NetworkDecl.wellTyped_unplaced.mpr htyped⟩
  · rw [unplaced, hinstances, NetworkDecl.unplaced, List.map_map]
    rfl
  · rw [NetworkDecl.unplaced, unplaced, List.map_map, List.map_map, ← forall₂_eq_eq_eq,
      forall₂_map_left_iff, forall₂_map_right_iff]
    exact (forall₂_resolve hgraph).imp fun c k => resolve_unplaced

/-- A network has the description that it was built from, without places in the text. Its
connections lead between the instances and ports that were named, and its description builds it
again. -/
theorem build_toDecl (decl : NetworkDecl) (registry : Registry) (n : Network) (h : build decl registry = .ok n) :
    n.toDecl = decl.unplaced ∧ Forall₂ (n.Follows registry) decl.connections n.connections ∧
      build n.toDecl registry = .ok n.unplaced := by
  refine ⟨toDecl_of_build h, ?_, toDecl_of_build h ▸ build_unplaced h⟩
  obtain ⟨hgraph, htyped⟩ := build_eq_ok_iff.mp h
  have htypes := (wellTyped_iff hgraph (graph_eq_ok_iff.mp hgraph).2.2.2).mpr htyped
  have hks := (forall₂_and_left n.connections decl.connections).mpr ⟨htypes, (forall₂_resolve hgraph).flip⟩
  exact hks.flip.imp fun c k hk => follows_of_resolve hk.2 hk.1

/-- A delay whose output is joined twice to its own input. -/
def ring : NetworkDecl where
  name := "ring"
  instances := [⟨"a", "Delay", [("size", .int 1)], some ⟨0, 4⟩⟩]
  connections := replicate 2 ⟨"a", "out", "a", "in", [("bufferSize", .int 3)], some ⟨5, 9⟩⟩

def delays : Registry :=
  ⟨[⟨"Delay", [⟨"in", .bool⟩], [⟨"out", .bool⟩]⟩]⟩

def ringNetwork : Network where
  name := "ring"
  instances := [⟨"a", "Delay", [("size", .int 1)]⟩]
  connections := replicate 2
    ⟨0, ⟨"out", .bool⟩, 0, ⟨"in", .bool⟩, some 3, [("bufferSize", .int 3)], some ⟨5, 9⟩⟩

theorem build_toDecl_ring : build ring delays = .ok ringNetwork ∧ ringNetwork.toDecl =
    ring.unplaced ∧ build ringNetwork.toDecl delays = .ok ringNetwork.unplaced := by
  have h : build ring delays = .ok ringNetwork := by rfl
  obtain ⟨hdecl, -, hbuild⟩ := build_toDecl ring delays ringNetwork h
  exact ⟨h, hdecl, hbuild⟩

end Network

end ActorNet
