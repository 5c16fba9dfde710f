import ActorNet.Actor.Basic
import ActorNet.Network.Graph

/-!
# Drawings

Networks and state machines in the DOT language. A network has a box for every instance and an edge
for every connection; a state machine has a circle for every state, a double one for the initial
state, and an edge for every transition.
-/

namespace ActorNet

namespace Dot

def isNameChar (c : Char) : Bool :=
  c.isAlphanum || c = '_'

/-- A name made of letters, digits and underscores that does not start with a digit. -/
def graphName (name : String) : String :=
  let cleaned := name.toList.map fun c => if isNameChar c then c else '_'
  match cleaned with
  | [] => "g_"
  | c :: _ => if c.isDigit then "g_" ++ String.ofList cleaned else String.ofList cleaned

def labelChar : Char → List Char
  | '\\' => ['\\', '\\']
  | '"' => ['\\', '"']
  | c => [c]

def label (s : String) : String :=
  String.ofList (s.toList.flatMap labelChar)

def graph (name : String) (lines : List String) : String :=
  let settings := ["digraph " ++ graphName name ++ " \x7b",
    "    rankdir=LR;",
    "    node [fontname=\"Helvetica\", fontsize=10];",
    "    edge [fontname=\"Helvetica\", fontsize=9];",
    ""]
  String.join ((settings ++ lines ++ ["\x7d"]).map (· ++ "\n"))

def nodesAndEdges (nodes edges : List String) : List String :=
  if edges.isEmpty then nodes else nodes ++ "" :: edges

end Dot

def Network.dot (n : Network) : String :=
  let nodes := n.instances.zipIdx.map fun (i, index) =>
    "    n" ++ toString index ++ " [shape=box, style=filled, fillcolor=lightblue, label=\"" ++ Dot.label i.id
      ++ "\\n" ++ Dot.label i.cls ++ "\"];"
  let edges := n.connections.map fun c =>
    let buffer := match c.bufferSize with
      | some size => " [" ++ toString size ++ "]"
      | none => ""
    "    n" ++ toString c.source ++ " -> n" ++ toString c.target ++ " [taillabel=\"" ++ Dot.label c.sourcePort.name
      ++ "\", headlabel=\"" ++ Dot.label c.targetPort.name ++ "\", label=\"" ++ c.sourcePort.ty.text ++ buffer
      ++ "\"];"
  Dot.graph n.name (Dot.nodesAndEdges nodes edges)

namespace Actor

def fsmLines (a : Actor) (fsm : Fsm) : List String :=
  let nodes := fsm.stateIds.map fun s =>
    let shape := if s = fsm.initial then "doublecircle" else "circle"
    "    s" ++ toString s.index ++ " [shape=" ++ shape ++ ", label=\"" ++ Dot.label (fsm.stateName s) ++ "\"];"
  let edges := fsm.transitions.map fun t =>
    let name := match a.action? t.action with
      | some action => action.name
      | none => "?"
    "    s" ++ toString t.source.index ++ " -> s" ++ toString t.target.index ++ " [label=\"" ++ Dot.label name
      ++ "\"];"
  Dot.nodesAndEdges nodes edges

/-- The state machine of an actor as a graph; an actor without one has a single state that all its
actions keep. -/
def dot (a : Actor) : String :=
  let lines := match a.fsm with
    | some fsm => a.fsmLines fsm
    | none => "    s0 [shape=doublecircle, label=\"\"];" :: a.actions.map fun action =>
        "    s0 -> s0 [label=\"" ++ Dot.label action.name ++ "\"];"
  Dot.graph a.name lines

end Actor

end ActorNet
