/-
A network is a circuit with a root. Compiling lists its leaves and containers, keeps the edges
between listed leaves, and gives every listed leaf its position as id. A network that was not
compiled yet lists nothing, although its circuit may hold ids of an earlier network.

The edges of a compiled network are kept apart from those of the circuit, so compiling never changes
the wiring of the circuit. A leaf is exported as its id and the ids of the leaves it is connected to
within the network; containers are not exported.
-/
import Netlist.Circuit.Basic
import Netlist.Part.Basic

namespace Netlist

/-! ## Wires -/

variable {P : Type}

/-- For each node, the nodes it feeds and the nodes that feed it. -/
structure Wires where
  forward : Array (List NodeId) := #[]
  backward : Array (List NodeId) := #[]
  deriving DecidableEq, Repr

namespace Wires

/-- The nodes that a node feeds. -/
def targets (w : Wires) (n : NodeId) : List NodeId := w.forward.getD n []

/-- The nodes that feed a node. -/
def sources (w : Wires) (n : NodeId) : List NodeId := w.backward.getD n []

/-- The edges of a circuit. -/
def ofCircuit (c : Circuit P) : Wires :=
  ⟨c.nodes.map (·.forward.toList), c.nodes.map (·.backward.toList)⟩

/-- Keeps only the edges with both ends in a set. -/
def restrict (w : Wires) (keep : NodeId → Bool) : Wires :=
  let trim (n : NodeId) (ends : List NodeId) := if keep n then ends.filter keep else []
  ⟨w.forward.mapIdx trim, w.backward.mapIdx trim⟩

/-- Removes a node from the lists of some nodes. -/
def erase (lists : Array (List NodeId)) (n : NodeId) (holders : List NodeId) :
    Array (List NodeId) :=
  holders.foldl (fun lists m => lists.modify m (·.filter (· != n))) lists

/-- Removes the edges that end at a node. -/
def detachSources (w : Wires) (n : NodeId) : Wires :=
  ⟨erase w.forward n (w.sources n), w.backward.modify n fun _ => []⟩

/-- Removes the edges that start at a node. -/
def detachTargets (w : Wires) (n : NodeId) : Wires :=
  ⟨w.forward.modify n fun _ => [], erase w.backward n (w.targets n)⟩

/-- Removes all edges of a node. -/
def detach (w : Wires) (n : NodeId) : Wires := (w.detachSources n).detachTargets n

/-- Removes all edges of some nodes, one node after the other. -/
def detachAll (w : Wires) (nodes : List NodeId) : Wires := nodes.foldl detach w

end Wires

/-! ## Networks -/

/-- A circuit with a root, and what the last compilation found. -/
structure Network (P : Type) where
  circuit : Circuit P
  root : NodeId
  /-- The leaves in the order of their ids. -/
  leaves : List NodeId := []
  containers : List NodeId := []
  /-- Problems that did not stop the last compilation. -/
  diagnostics : List Failure := []
  wires : Wires := {}

namespace Network

/-- An uncompiled network. The root must be a node of the circuit. -/
def ofRoot (circuit : Circuit P) (root : NodeId) : Except Failure (Network P) :=
  if root < circuit.size then .ok { circuit, root } else .error (.badRoot root)

/-- The leaf with the given id. -/
def leaf? (net : Network P) (id : Nat) : Option NodeId := net.leaves[id]?

/-- The id of a node, if it has one. -/
def idOf? (net : Network P) (n : NodeId) : Option Nat := (net.circuit.node? n).bind (·.id)

/-! ## Ids -/

/-- Takes the ids away from some nodes. -/
def clearIds (c : Circuit P) (nodes : List NodeId) : Circuit P :=
  nodes.foldl (fun c n => c.modify n ({ · with id := none })) c

/-- Gives each node of a list its position as id. -/
def numberLeaves (c : Circuit P) (leaves : List NodeId) : Circuit P :=
  leaves.zipIdx.foldl (fun c x => c.modify x.1 ({ · with id := some x.2 })) c

/-- Drops the leaves outside of a set and numbers the others anew. -/
def keepLeaves (net : Network P) (keep : NodeId → Bool) : Network P :=
  let kept := net.leaves.filter keep
  let dropped := net.leaves.filter (!keep ·)
  { net with leaves := kept, circuit := numberLeaves (clearIds net.circuit dropped) kept }

/-! ## Exporting -/

/-- The id of a node that must have one. -/
def resolve (net : Network P) (n : NodeId) : Except Failure Nat :=
  match net.idOf? n with
  | some id => .ok id
  | none => .error (.notInNetwork n)

/-- The part that a leaf is exported as. -/
def describe (net : Network P) (n : NodeId) : Except Failure (Part P) := do
  let node ← net.circuit.fetch n
  match node.kind with
  | .container => throw (.containerExport n)
  | .leaf cell =>
    let id ← net.resolve n
    let connections ← (net.wires.targets n).mapM net.resolve
    let connectionsFrom ← (net.wires.sources n).mapM net.resolve
    return {
      id, cell, connections, connectionsFrom, pinned := node.pinned, payload := node.payload }

/-- The parts of all leaves, in the order of their ids. -/
def parts (net : Network P) : Except Failure (List (Part P)) := net.leaves.mapM net.describe

/-! ## Texts -/

/-- The line of a listed leaf. -/
def renderLeaf (net : Network P) (n : NodeId) (id : Nat) : String :=
  let targets := ", ".intercalate ((net.wires.targets n).filterMap net.idOf? |>.map toString)
  s!"\t{id}{pinMark (net.circuit.isPinned n)} ({nodeName n}) -> [{targets}]\n"

/-- The text of a network. -/
def render (net : Network P) : String :=
  s!"Network rooted at {nodeName net.root} with {net.leaves.length} leaves:\n" ++
    String.join (net.leaves.mapIdx fun id n => net.renderLeaf n id)

end Network

end Netlist
