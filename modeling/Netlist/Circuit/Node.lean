/-
Nodes of a circuit. A leaf is a cell that is exported and simulated; a container only groups the
ports of other nodes. A port slot is a single node or a bus of nodes that share one bit position.
Nodes are named by their place in the order of creation.
-/
import Netlist.Cell

namespace Netlist

/-- The place of a node in the order of creation. -/
abbrev NodeId := Nat

/-- One slot of a side of a node. -/
inductive Port where
  | single (node : NodeId)
  /-- Nodes that are driven and read as one bit. -/
  | bus (nodes : List NodeId)
  deriving DecidableEq, Repr

/-- The nodes behind a slot. -/
def Port.nodes : Port → List NodeId
  | single n => [n]
  | bus ns => ns

/-- The two sides of a node. -/
inductive Side where
  | input
  | output
  deriving DecidableEq, Repr

/-- What a node is. -/
inductive Kind where
  | container
  | leaf (cell : Cell)
  deriving DecidableEq, Repr

/-- A node, with the edges to the leaves it feeds and from the leaves that feed it. The payload is
data of the exporter. -/
structure Node (P : Type) where
  kind : Kind
  inputs : List Port := []
  outputs : List Port := []
  forward : Array NodeId := #[]
  backward : Array NodeId := #[]
  pinned : Bool := false
  /-- The position in the network that was compiled last, for its leaves. -/
  id : Option Nat := none
  payload : Option P := none
  deriving DecidableEq, Repr

namespace Node

variable {P : Type}

/-- Whether the node is a gate or a timer. -/
def isLeaf (node : Node P) : Bool :=
  match node.kind with
  | .container => false
  | .leaf _ => true

/-- The slots of one side. -/
def slots (node : Node P) : Side → List Port
  | .input => node.inputs
  | .output => node.outputs

/-- The nodes behind the slots of one side, in order. -/
def exposed (node : Node P) (side : Side) : List NodeId := (node.slots side).flatMap Port.nodes

/-- The nodes next to a node, in the order in which a traversal visits them. -/
def neighbours (node : Node P) : List NodeId :=
  node.exposed .input ++ node.exposed .output ++ node.forward.toList ++ node.backward.toList

end Node

end Netlist
