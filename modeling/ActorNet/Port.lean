import ActorNet.Ty.Text

/-!
# Ports

A port is a named, typed end of a channel.
-/

namespace ActorNet

structure Port where
  name : String
  ty : Ty
deriving DecidableEq, Repr, Inhabited

namespace Port

def toJson (p : Port) : Json :=
  .obj [("name", .str p.name), ("type", p.ty.toJson)]

def ofJson? (j : Json) : Option Port := do
  let r ← j.record? ["name", "type"]
  return {
    name := ← r.required? "name" Json.asString?
    ty := ← r.required? "type" Ty.ofJson? }

end Port

end ActorNet
