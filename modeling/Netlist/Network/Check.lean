/-
The check of a network: the circuit is consistent, every listed leaf is listed once and has its
position as id, the compiled edges join listed leaves and have the same multiplicity on both ends,
and no other node has an id.
-/
import Netlist.Circuit.Basic
import Netlist.Network.Basic
import Netlist.Visited

namespace Netlist.Network

variable {P : Type}

/-- Checks the listed leaves in order, after those in `seen`, and gives all of them as a set. -/
def checkLeaves (net : Network P) (seen : NodeSet) :
    List (NodeId × Nat) → Except Failure (NodeSet)
  | [] => .ok seen
  | (n, position) :: rest => do
    if seen.contains n then throw (.inconsistent (.listedTwice n))
    let node ← net.circuit.fetch n
    if !node.isLeaf then throw (.inconsistent (.listedContainer n))
    if node.id ≠ some position then throw (.inconsistent (.wrongId n node.id position))
    net.checkLeaves (seen.insert n) rest

/-- Checks a compiled edge from the side of its source. -/
def checkTarget (net : Network P) (listed : NodeId → Bool) (a b : NodeId) :
    Except Failure Unit := do
  if !listed b then throw (.inconsistent (.leavesNetwork a b))
  let forward := (net.wires.targets a).count b
  let backward := (net.wires.sources b).count a
  if forward ≠ backward then throw (.inconsistent (.unequalEnds a b forward backward))

/-- Checks a compiled edge from the side of its target. -/
def checkSource (listed : NodeId → Bool) (a b : NodeId) : Except Failure Unit :=
  if listed b then .ok () else .error (.inconsistent (.leavesNetwork b a))

/-- Checks the compiled edges of a leaf. -/
def checkWires (net : Network P) (listed : NodeId → Bool) (a : NodeId) : Except Failure Unit := do
  (net.wires.targets a).forM (net.checkTarget listed a)
  (net.wires.sources a).forM (checkSource listed a)

/-- Checks that a node which is not listed has no id. -/
def checkUnlisted (net : Network P) (listed : NodeId → Bool) (n : NodeId) : Except Failure Unit :=
  match net.idOf? n with
  | some id => if listed n then .ok () else .error (.inconsistent (.strayId n id))
  | none => .ok ()

/-- Checks a network. -/
def check (net : Network P) : Except Failure Unit := do
  net.circuit.check
  let seen ← net.checkLeaves {} net.leaves.zipIdx
  net.leaves.forM (net.checkWires (seen.contains ·))
  net.circuit.ids.forM (net.checkUnlisted (seen.contains ·))

end Netlist.Network
