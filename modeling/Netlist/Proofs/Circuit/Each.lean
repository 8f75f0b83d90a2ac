/-
Properties that every node of a circuit has. A step that adds nodes with a property and changes others
without breaking it keeps the property.
-/
import Netlist.Circuit.Wiring
import Netlist.Proofs.Circuit.Cells

namespace Netlist.Circuit

variable {P : Type}

/-- All nodes of a circuit have a property. -/
def Each (p : Node P → Prop) (c : Circuit P) : Prop := ∀ n node, c.node? n = some node → p node

namespace Each

variable {p : Node P → Prop} {c : Circuit P}

theorem empty : Each p ⟨#[]⟩ := fun n node hn => by simp [node?] at hn

theorem push (hc : c.Each p) {node : Node P} (hnode : p node) : (c.push node).1.Each p := by
  intro n found hn
  rw [node?_push] at hn
  split at hn
  · cases hn
    exact hnode
  · exact hc n found hn

theorem modify (hc : c.Each p) (n : NodeId) {f : Node P → Node P} (hf : ∀ node, p node → p (f node)) :
    (c.modify n f).Each p := by
  intro m found hm
  rw [node?_modify] at hm
  split at hm
  · obtain ⟨node, hnode, rfl⟩ := Option.map_eq_some_iff.1 hm
    exact hf node (hc m node hnode)
  · exact hc m found hm

theorem addLeaves (hleaf : ∀ cell n, p (leafNode P cell n)) (hc : c.Each p) (cells : List Cell) :
    (c.addLeaves cells).Each p := by
  induction cells generalizing c with
  | nil => exact hc
  | cons cell cells ih => exact ih (hc.push (hleaf cell c.size))

/-- Edges are recorded without a look at anything else of a node. -/
theorem linkAll (hedges : ∀ node forward backward, p node → p { node with forward, backward }) (hc : c.Each p)
    (edges : List (NodeId × NodeId)) : (c.linkAll edges).Each p := by
  induction edges generalizing c with
  | nil => exact hc
  | cons e edges ih =>
    have hsource : (c.modify e.1 fun node => { node with forward := node.forward.push e.2 }).Each p :=
      hc.modify e.1 fun node => hedges node _ _
    exact ih (hsource.modify e.2 fun node => hedges node _ _)

theorem foldl_markPinned (hpin : ∀ node, p node → p { node with pinned := true }) (hc : c.Each p)
    (ns : List NodeId) : (ns.foldl markPinned c).Each p := by
  induction ns generalizing c with
  | nil => exact hc
  | cons n ns ih => exact ih (hc.modify n hpin)

end Each

theorem isPinned_eq_false {c : Circuit P} (hc : c.Each (·.pinned = false)) (n : NodeId) : c.isPinned n = false := by
  unfold isPinned
  cases hn : c.node? n with
  | none => rfl
  | some node => exact hc n node hn

end Netlist.Circuit
