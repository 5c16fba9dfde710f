import ActorNet.Actor.Interface
import ActorNet.Main
import ActorNet.Proofs.Casting.Idempotence
import ActorNet.Proofs.Merging.Firing
import ActorNet.Proofs.Network.Fingerprints
import ActorNet.Proofs.Network.Misfits
import ActorNet.Proofs.Network.Spelling
import ActorNet.Proofs.PhiLowering.Routes
import ActorNet.Proofs.PhiLowering.Zeros
import ActorNet.Proofs.Predication.Governing
import ActorNet.Proofs.Schedule.TrivialGuards
import ActorNet.Proofs.Semantics.Footprint
import ActorNet.Proofs.Semantics.Modular
import ActorNet.Proofs.Semantics.Stores
import ActorNet.Proofs.SingleStore.Canonical
import ActorNet.Proofs.Structure.Repointing
import ActorNet.Proofs.Types.Order
import ActorNet.Proofs.WellFormed.Copies
import ActorNet.Proofs.WellFormed.Handles
import ActorNet.Proofs.WellFormed.Invariants
