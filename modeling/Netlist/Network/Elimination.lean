/-
Elimination removes leaves that cannot influence a pinned leaf. The cascade removes unpinned
leaves that feed nothing, then those that fed only them, and so on; feedback loops survive it. The
pruning of dead loops keeps exactly the leaves from which a path of forward edges reaches a pinned
leaf. Neither ever removes a pinned leaf.
-/
import Netlist.Network.Basic
import Netlist.Visited

namespace Netlist

variable {P : Type}

namespace Circuit

/-- Whether a node is a leaf that is not pinned and feeds nothing. -/
def isDeadEnd (c : Circuit P) (w : Wires) (n : NodeId) : Bool :=
  match c.node? n with
  | some node => node.isLeaf && (w.targets n).isEmpty && !node.pinned
  | none => false

theorem mem_ids_of_isDeadEnd {c : Circuit P} {w : Wires} {n : NodeId} (h : c.isDeadEnd w n = true) :
    n ∈ c.ids := by
  unfold isDeadEnd at h
  split at h
  · next found => exact mem_ids_of_node? found
  · cases h

end Circuit

namespace Network

/-! ## Dead ends -/

/-- The edges that are left in a cascade and the leaves that it has removed. -/
structure Cascade where
  wires : Wires
  removed : NodeSet

/-- Removes the dead ends among `pending`, next one first. The sources of a removed leaf may have
become dead ends and are looked at next. -/
def cascadeFrom (c : Circuit P) (state : Cascade) (pending : List NodeId) : Cascade :=
  match pending with
  | [] => state
  | n :: rest =>
    if _fresh : state.removed.contains n then cascadeFrom c state rest
    else if _dead : c.isDeadEnd state.wires n then
      let sources := state.wires.sources n
      cascadeFrom c ⟨state.wires.detachSources n, state.removed.insert n⟩ (sources ++ rest)
    else cascadeFrom c state rest
termination_by (unvisited c.ids state.removed, pending.length)
decreasing_by
  · exact Prod.Lex.right _ (Nat.lt_succ_self _)
  · exact Prod.Lex.left _ _
      (unvisited_insert_lt (Circuit.mem_ids_of_isDeadEnd _dead) (by simpa using _fresh))
  · exact Prod.Lex.right _ (Nat.lt_succ_self _)

/-- Looks at the leaves in order and cascades from each. -/
def cascade (net : Network P) : Cascade :=
  net.leaves.foldl (fun state leaf => cascadeFrom net.circuit state [leaf]) ⟨net.wires, {}⟩

/-- Removes the unpinned leaves that feed nothing, and then their sources in cascade. -/
def removeDeadEnds (net : Network P) : Network P :=
  let state := net.cascade
  { net with wires := state.wires }.keepLeaves (!state.removed.contains ·)

/-! ## Dead loops -/

/-- Walks from `pending` against the edges between listed leaves, and adds what it meets to
`live`. -/
def liveFrom (w : Wires) (listed live : NodeSet) (pending : List NodeId) :
    NodeSet :=
  match pending with
  | [] => live
  | n :: rest =>
    if _fresh : live.contains n then liveFrom w listed live rest
    else if _listed : listed.contains n then
      liveFrom w listed (live.insert n) (w.sources n ++ rest)
    else liveFrom w listed live rest
termination_by (unvisited (List.range listed.bound) live, pending.length)
decreasing_by
  · exact Prod.Lex.right _ (Nat.lt_succ_self _)
  · exact Prod.Lex.left _ _
      (unvisited_insert_lt (List.mem_range.2 (NodeSet.lt_bound _listed)) (by simpa using _fresh))
  · exact Prod.Lex.right _ (Nat.lt_succ_self _)

/-- The leaves from which a path of forward edges reaches a pinned leaf. -/
def liveLeaves (net : Network P) : NodeSet :=
  liveFrom net.wires (NodeSet.ofList net.leaves) {} (net.leaves.filter net.circuit.isPinned)

/-- Removes the leaves from which no path of forward edges reaches a pinned leaf. -/
def pruneDeadLoops (net : Network P) : Network P :=
  let live := net.liveLeaves
  let dead := net.leaves.filter (!live.contains ·)
  { net with wires := net.wires.detachAll dead }.keepLeaves (live.contains ·)

end Network

end Netlist
