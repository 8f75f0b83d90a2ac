/-
Circuits are built by adding nodes, which are never removed. A leaf is its own only port on both
sides. The ports of a container may name nodes that do not exist yet; an operation that then meets
such a node fails with `Failure.missingNode`.

A circuit is consistent if edges are recorded alike on both ends: every edge has the same multiplicity
in the forward list of its source and in the backward list of its target.
-/
import Netlist.Circuit.Node

namespace Netlist

/-- The nodes of a circuit in the order of creation. -/
structure Circuit (P : Type) where
  nodes : Array (Node P) := #[]

namespace Circuit

variable {P : Type}

/-! ## Looking up -/

/-- The number of nodes, containers included. -/
def size (c : Circuit P) : Nat := c.nodes.size

/-- All nodes in the order of creation. -/
def ids (c : Circuit P) : List NodeId := List.range c.size

/-- The node with the given name, if there is one. -/
def node? (c : Circuit P) (n : NodeId) : Option (Node P) := c.nodes[n]?

/-- The node with the given name. -/
def fetch (c : Circuit P) (n : NodeId) : Except Failure (Node P) :=
  match c.node? n with
  | some node => .ok node
  | none => .error (.missingNode n c.size)

theorem mem_ids {c : Circuit P} {n : NodeId} : n ∈ c.ids ↔ n < c.size := List.mem_range

theorem mem_ids_of_node? {c : Circuit P} {n : NodeId} {node : Node P} (h : c.node? n = some node) :
    n ∈ c.ids :=
  mem_ids.2 (Array.getElem?_eq_some_iff.1 h).1

theorem mem_ids_of_fetch {c : Circuit P} {n : NodeId} {node : Node P} (h : c.fetch n = .ok node) :
    n ∈ c.ids := by
  unfold fetch at h
  split at h
  · next found => exact mem_ids_of_node? found
  · cases h

/-- The number of edges. -/
def edgeCount (c : Circuit P) : Nat := (c.nodes.toList.flatMap (·.forward.toList)).length

/-- Whether a node is pinned. -/
def isPinned (c : Circuit P) (n : NodeId) : Bool := (c.node? n).any (·.pinned)

/-- The pinned nodes. -/
def pinnedNodes (c : Circuit P) : List NodeId := c.ids.filter c.isPinned

/-! ## Adding nodes -/

/-- Adds a node behind all others. -/
def push (c : Circuit P) (node : Node P) : Circuit P × NodeId :=
  let n := c.size
  (⟨c.nodes.push node⟩, n)

/-- A leaf that is its own port. -/
def leafNode (P : Type) (cell : Cell) (self : NodeId) : Node P :=
  { kind := .leaf cell, inputs := [.single self], outputs := [.single self] }

/-- Adds a leaf. -/
def addLeaf (c : Circuit P) (cell : Cell) : Circuit P × NodeId := c.push (leafNode P cell c.size)

/-- Adds a gate. -/
def addGate (c : Circuit P) (mode : Mode) : Circuit P × NodeId := c.addLeaf (.gate mode)

/-- Adds a timer. -/
def addTimer (c : Circuit P) (ticks seconds : Nat) : Circuit P × NodeId :=
  c.addLeaf (.timer ticks seconds)

/-- Adds a container that exposes the given ports. -/
def addContainer (c : Circuit P) (inputs outputs : List Port) : Circuit P × NodeId :=
  c.push { kind := .container, inputs, outputs }

/-- Adds leaves in order. -/
def addLeaves (c : Circuit P) (cells : List Cell) : Circuit P :=
  cells.foldl (fun c cell => (c.addLeaf cell).1) c

/-! ## Changing nodes -/

/-- Changes one node; nothing happens if it does not exist. -/
def modify (c : Circuit P) (n : NodeId) (f : Node P → Node P) : Circuit P := ⟨c.nodes.modify n f⟩

@[simp] theorem size_modify (c : Circuit P) (n : NodeId) (f : Node P → Node P) :
    (c.modify n f).size = c.size := by
  simp [modify, size]

/-- Replaces the slots of one side of a container. -/
def setSlots (c : Circuit P) (side : Side) (n : NodeId) (ports : List Port) :
    Except Failure (Circuit P) := do
  let node ← c.fetch n
  if node.isLeaf then throw .leafPorts
  match side with
  | .input => return c.modify n ({ · with inputs := ports })
  | .output => return c.modify n ({ · with outputs := ports })

/-- Marks a node that exists as a designated input or output. -/
def markPinned (c : Circuit P) (n : NodeId) : Circuit P := c.modify n ({ · with pinned := true })

/-- Marks a node as a designated input or output, which no elimination removes. -/
def pin (c : Circuit P) (n : NodeId) : Except Failure (Circuit P) := do
  let _ ← c.fetch n
  return c.markPinned n

/-- Attaches data of the exporter to a node. -/
def setPayload (c : Circuit P) (n : NodeId) (payload : P) : Except Failure (Circuit P) := do
  let _ ← c.fetch n
  return c.modify n ({ · with payload := some payload })

/-- Records an edge on both of its ends. -/
def link (c : Circuit P) (source target : NodeId) : Circuit P :=
  let c := c.modify source fun node => { node with forward := node.forward.push target }
  c.modify target fun node => { node with backward := node.backward.push source }

/-- Records edges in order. -/
def linkAll (c : Circuit P) (edges : List (NodeId × NodeId)) : Circuit P :=
  edges.foldl (fun c e => c.link e.1 e.2) c

/-! ## Checking -/

/-- The forward edges of a node, none if it does not exist. -/
def forwardOf (c : Circuit P) (n : NodeId) : List NodeId :=
  ((c.node? n).map (·.forward.toList)).getD []

/-- The backward edges of a node, none if it does not exist. -/
def backwardOf (c : Circuit P) (n : NodeId) : List NodeId :=
  ((c.node? n).map (·.backward.toList)).getD []

/-- Checks that an edge has the same multiplicity on both ends. -/
def checkEdge (c : Circuit P) (a b : NodeId) : Except Failure Unit :=
  let forward := (c.forwardOf a).count b
  let backward := (c.backwardOf b).count a
  if forward = backward then .ok () else .error (.inconsistent (.unequalEnds a b forward backward))

/-- Checks that a source `b` of `a` has an edge to it. -/
def checkSource (c : Circuit P) (a b : NodeId) : Except Failure Unit :=
  if a ∈ c.forwardOf b then .ok () else .error (.inconsistent (.missingForward b a))

/-- Checks the edges of one node. -/
def checkNode (c : Circuit P) (a : NodeId) : Except Failure Unit := do
  (c.forwardOf a).forM (c.checkEdge a)
  (c.backwardOf a).forM (c.checkSource a)

/-- Checks the edges of all nodes. -/
def check (c : Circuit P) : Except Failure Unit := c.ids.forM c.checkNode

end Circuit

/-! ## Texts -/

variable {P : Type}

/-- The mark of a pinned node. -/
def pinMark (pinned : Bool) : String := if pinned then "*" else ""

/-- What a node is, in words. -/
def Kind.render : Kind → String
  | .container => "container"
  | .leaf (.gate mode) => mode.title
  | .leaf (.timer ticks seconds) => s!"timer {seconds}s {ticks}t"

/-- The line of a node. -/
def Node.render (node : Node P) (n : NodeId) : String :=
  let targets := ", ".intercalate (node.forward.toList.map nodeName)
  s!"\t{nodeName n}{pinMark node.pinned} = {node.kind.render} -> [{targets}]\n"

/-- The text of a circuit. -/
def Circuit.render (c : Circuit P) : String :=
  let lines := c.nodes.toList.mapIdx fun n node => node.render n
  s!"Circuit with {c.size} nodes:\n" ++ String.join lines

end Netlist
