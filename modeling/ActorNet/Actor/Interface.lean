import ActorNet.Actor.Basic
import ActorNet.Network.Registry

/-!
# Actors as classes

A network sees of an actor only its name and its ports.
-/

namespace ActorNet

def Actor.interface (a : Actor) : ActorClass :=
  { name := a.name, inputs := a.inputs, outputs := a.outputs }

end ActorNet
