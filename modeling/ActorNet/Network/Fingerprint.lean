import ActorNet.Digest
import ActorNet.Network.Graph

/-!
# Fingerprints

A fingerprint identifies a network and the classes it was checked against. Spans and formatting of
the source do not take part in it, nor does the order in which classes were registered.
-/

namespace ActorNet

def compilerVersion : String := "0.3.1"

/-- The digests of a network and of the classes behind it. -/
structure Fingerprint where
  networkHash : String
  registryHash : String
deriving DecidableEq, Repr

namespace Fingerprint

/-- The text of a network that is hashed: the compact document of its description. -/
def networkText (n : Network) : String :=
  n.toDecl.toJson.compact

def compute (n : Network) (registry : Registry) : Fingerprint :=
  ⟨Digest.ofText (networkText n), Digest.ofText registry.canonical⟩

def document (f : Fingerprint) : String :=
  (Json.obj [("network_hash", .str f.networkHash), ("registry_fingerprint", .str f.registryHash),
    ("compiler_version", .str compilerVersion)]).pretty ++ "\n"

end Fingerprint

end ActorNet
