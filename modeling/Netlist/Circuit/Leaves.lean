/-
The leaves behind ports. Ports are looked through on the same side of nested containers, in
preorder and from left to right, and no node is entered twice; containers may be shared and may
even contain themselves.
-/
import Netlist.Circuit.Basic
import Netlist.Visited

namespace Netlist.Circuit

variable {P : Type}

/-- Continues the preorder walk: `pending` holds the nodes to enter, next one first, and `found`
the leaves met so far. -/
def leavesFrom (c : Circuit P) (side : Side) (seen : NodeSet) (found : Array NodeId)
    (pending : List NodeId) : Except Failure (List NodeId) :=
  match pending with
  | [] => .ok found.toList
  | n :: rest =>
    if _fresh : seen.contains n then leavesFrom c side seen found rest
    else
      match _found : c.fetch n with
      | .error e => .error e
      | .ok node =>
        if node.isLeaf then leavesFrom c side (seen.insert n) (found.push n) rest
        else leavesFrom c side (seen.insert n) found (node.exposed side ++ rest)
termination_by (unvisited c.ids seen, pending.length)
decreasing_by
  · exact Prod.Lex.right _ (Nat.lt_succ_self _)
  · exact Prod.Lex.left _ _ (unvisited_insert_lt (mem_ids_of_fetch _found) (by simpa using _fresh))
  · exact Prod.Lex.left _ _ (unvisited_insert_lt (mem_ids_of_fetch _found) (by simpa using _fresh))

/-- The leaves behind some nodes, each once, in preorder. -/
def leavesBehind (c : Circuit P) (side : Side) (nodes : List NodeId) :
    Except Failure (List NodeId) :=
  c.leavesFrom side {} #[] nodes

/-- The leaves behind one side of a node, one list for each slot. -/
def slotLeaves (c : Circuit P) (side : Side) (n : NodeId) :
    Except Failure (List (List NodeId)) := do
  let node ← c.fetch n
  (node.slots side).mapM fun port => c.leavesBehind side port.nodes

/-- Pins every leaf behind the ports of a node. Nothing is pinned if a port leads to a node that
does not exist. -/
def pinPorts (c : Circuit P) (n : NodeId) : Except Failure (Circuit P) := do
  let node ← c.fetch n
  let inputs ← c.leavesBehind .input (node.exposed .input)
  let outputs ← c.leavesBehind .output (node.exposed .output)
  return (inputs ++ outputs).foldl markPinned c

end Netlist.Circuit
