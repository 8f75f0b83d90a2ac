/-
Networks of leaves with edges between them and a root that exposes some of the leaves, node by node:
their cells, sources and pins. The simple and the random networks are of this kind.
-/
import Mathlib.Tactic
import Netlist.Proofs.Circuit.Each
import Netlist.Proofs.Generate.Rooted

namespace Netlist.Generate

open Circuit

variable {P : Type}

/-! ## Pins -/

/-- Only the leaves behind the root are pinned. -/
theorem circuit_withRoot {c : Circuit P} {inputs outputs : List NodeId} {net : Network P}
    (hinputs : ∀ n ∈ inputs, (c.cell? n).isSome) (houtputs : ∀ n ∈ outputs, (c.cell? n).isSome)
    (hnodup : inputs.Nodup) (hnodup' : outputs.Nodup) (h : withRoot c inputs outputs = .ok net) :
    net.circuit = (inputs ++ outputs).foldl markPinned (rootCircuit c inputs outputs) := by
  obtain ⟨rooted, hrooted, hcircuit⟩ := exists_addRoot h
  cases hrooted.symm.trans (addRoot_eq_ok hinputs houtputs hnodup hnodup')
  exact hcircuit

theorem isPinned_rootCircuit {c : Circuit P} (hc : c.Each (·.pinned = false)) (inputs outputs : List NodeId)
    (n : NodeId) : (rootCircuit c inputs outputs).isPinned n = false :=
  isPinned_eq_false (hc.push rfl) n

/-! ## Wired leaves -/

/-- A circuit of leaves with edges between them. -/
def wired (P : Type) (cells : List Cell) (edges : List (NodeId × NodeId)) : Circuit P :=
  (leaves P cells).linkAll edges

section Wired

variable {cells : List Cell} {edges : List (NodeId × NodeId)}

theorem size_wired : (wired P cells edges).size = cells.length := by
  rw [wired, (SamePorts.linkAll _ _).size_eq, leaves, size_addLeaves]
  exact Nat.zero_add _

theorem cell?_wired (n : Nat) : (wired P cells edges).cell? n = cells[n]? := by
  rw [wired, (SamePorts.linkAll _ _).cell?_eq, leaves, cell?_addLeaves]
  exact if_neg (Nat.not_lt_zero n)

theorem isSome_cell?_wired {n : Nat} (hn : n < cells.length) : ((wired P cells edges).cell? n).isSome := by
  rw [cell?_wired, List.getElem?_eq_getElem hn]
  rfl

theorem backwardOf_wired (hedges : ∀ e ∈ edges, e.2 < cells.length) (n : NodeId) :
    (wired P cells edges).backwardOf n = sourcesIn edges n := by
  have hsize : (leaves P cells).size = cells.length := (size_addLeaves cells _).trans (Nat.zero_add _)
  rw [wired, backwardOf_linkAll (hsize ▸ hedges), leaves, backwardOf_addLeaves]
  simp [backwardOf, node?]

theorem each_wired (p : Node P → Prop) (hleaf : ∀ cell n, p (leafNode P cell n))
    (hedges : ∀ node forward backward, p node → p { node with forward, backward }) : (wired P cells edges).Each p :=
  Each.linkAll hedges (Each.addLeaves hleaf .empty cells) edges

theorem portsExist_wired : (wired P cells edges).PortsExist :=
  (PortsExist.addLeaves (c := ⟨#[]⟩) fun {_} hnode => absurd hnode (Array.not_mem_empty _)).same (.linkAll _ edges)

end Wired

/-- A network of leaves with edges between them, and a root behind them. -/
structure WiredNetwork (cells : List Cell) (edges : List (NodeId × NodeId)) (inputs outputs : List NodeId)
    (net : Network P) : Prop where
  rooted : Rooted (wired P cells edges) inputs outputs net
  built : net.circuit.Built
  sources : ∀ n, net.circuit.backwardOf n = sourcesIn edges n
  pinned : ∀ n, net.circuit.isPinned n = true ↔ n ∈ inputs ∨ n ∈ outputs

section WiredNetwork

variable {cells : List Cell} {edges : List (NodeId × NodeId)} {inputs outputs : List NodeId}

/-- Such a network is generated if its edges and its root name leaves. -/
theorem exists_wiredNetwork (P : Type) (hedges : ∀ e ∈ edges, e.1 < cells.length ∧ e.2 < cells.length)
    (hinputs : ∀ n ∈ inputs, n < cells.length) (houtputs : ∀ n ∈ outputs, n < cells.length)
    (hnodup : inputs.Nodup) (hnodup' : outputs.Nodup) : ∃ net : Network P,
    withRoot (wired P cells edges) inputs outputs = .ok net ∧ WiredNetwork cells edges inputs outputs net := by
  have hins : ∀ n ∈ inputs, ((wired P cells edges).cell? n).isSome := fun n hn => isSome_cell?_wired (hinputs n hn)
  have houts : ∀ n ∈ outputs, ((wired P cells edges).cell? n).isSome := fun n hn => isSome_cell?_wired (houtputs n hn)
  obtain ⟨net, hnet, hrooted⟩ := withRoot_eq_ok hins houts hnodup hnodup'
  refine ⟨net, hnet, hrooted, built_wired hedges hnet, fun n => ?_, fun n => ?_⟩
  · rw [hrooted.backward, backwardOf_wired fun e he => (hedges e he).2]
  · have hplain : (wired P cells edges).Each (·.pinned = false) :=
      each_wired _ (fun _ _ => rfl) fun _ _ _ hnode => hnode
    rw [circuit_withRoot hins houts hnodup hnodup' hnet, isPinned_foldl_markPinned,
      isPinned_rootCircuit hplain, List.mem_append]
    have hsize : (rootCircuit (wired P cells edges) inputs outputs).size = cells.length + 1 := by
      rw [rootCircuit, addContainer, size_push, size_wired]
    rw [hsize]
    constructor
    · rintro (hfalse | ⟨hn, -⟩)
      · cases hfalse
      · exact hn
    · intro hn
      exact .inr ⟨hn, Nat.lt_succ_of_lt (hn.elim (hinputs n) (houtputs n))⟩

namespace WiredNetwork

variable {net : Network P} (h : WiredNetwork cells edges inputs outputs net)

include h

theorem size : net.circuit.size = cells.length + 1 := by rw [h.rooted.size, size_wired]

theorem root : net.root = cells.length := by
  rw [h.rooted.start]
  exact size_wired

theorem root_lt : net.root < net.circuit.size := by
  rw [h.root, h.size]
  exact Nat.lt_succ_self _

theorem cell (n : Nat) : net.circuit.cell? n = cells[n]? := (h.rooted.cell n).trans (cell?_wired n)

theorem ports : net.circuit.PortsExist := h.rooted.ports portsExist_wired

/-- The root is the container behind the leaves. -/
theorem exists_root : ∃ node, net.circuit.node? net.root = some node ∧ node.kind = .container ∧
    node.inputs = inputs.map .single ∧ node.outputs = outputs.map .single := by
  obtain ⟨node, hnode, hinputs, houtputs⟩ := h.rooted.root
  have hroot : net.circuit.node? net.root = some node := by rwa [h.root, ← size_wired (P := P)]
  have hcell : node.cell? = none := by
    have hnone := h.cell net.root
    rwa [cell?, hroot, Option.bind_some, h.root, List.getElem?_eq_none (Nat.le_refl _)] at hnone
  refine ⟨node, hroot, ?_, hinputs, houtputs⟩
  unfold Node.cell? at hcell
  split at hcell
  · assumption
  · cases hcell

end WiredNetwork

end WiredNetwork

/-! ## Simple networks -/

theorem chain_eq_ok (P : Type) {len : Nat} (hlen : 0 < len) (mode : Mode) : ∃ net : Network P,
    chain P len mode = .ok net ∧
      WiredNetwork (List.replicate len (.gate mode)) (inSequence (List.range len)) [0] [len - 1] net := by
  obtain ⟨net, hnet, hwired⟩ : ∃ net, withRoot (chainCircuit P len mode) [0] [len - 1] = .ok net ∧
      WiredNetwork (List.replicate len (.gate mode)) (inSequence (List.range len)) [0] [len - 1] net :=
    exists_wiredNetwork P (fun e he => by simpa using mem_inSequence_range he) (by simpa using hlen)
      (by simpa using Nat.sub_lt hlen Nat.one_pos) (List.nodup_singleton _) (List.nodup_singleton _)
  refine ⟨net, ?_, hwired⟩
  rw [chain, require, if_pos (decide_eq_true hlen)]
  exact hnet

theorem mesh_eq_ok (P : Type) {len : Nat} (hlen : 2 ≤ len) : ∃ net : Network P, mesh P len = .ok net ∧
    WiredNetwork (List.replicate len (.gate .xor)) (meshEdges len) [len - 1] [0, 1] net := by
  have hpos : 0 < len := Nat.zero_lt_of_lt hlen
  obtain ⟨net, hnet, hwired⟩ : ∃ net, withRoot (meshCircuit P len) [len - 1] [0, 1] = .ok net ∧
      WiredNetwork (List.replicate len (.gate .xor)) (meshEdges len) [len - 1] [0, 1] net :=
    exists_wiredNetwork P (fun e he => by simpa using mem_meshEdges he)
      (by simpa using Nat.sub_lt hpos Nat.one_pos) (by simpa using ⟨hpos, Nat.lt_of_succ_le hlen⟩)
      (List.nodup_singleton _) (by decide)
  refine ⟨net, ?_, hwired⟩
  rw [mesh, require, if_pos (decide_eq_true hlen)]
  exact hnet

theorem timerRing_eq_ok (P : Type) {len : Nat} (hlen : 0 < len) (ticks : Nat) : ∃ net : Network P,
    timerRing P len ticks = .ok net ∧
      WiredNetwork (.gate .or :: List.replicate len (.timer ticks 0)) (ringEdges len) [0] [len] net := by
  obtain ⟨net, hnet, hwired⟩ : ∃ net, withRoot (timerRingCircuit P len ticks) [0] [len] = .ok net ∧
      WiredNetwork (.gate .or :: List.replicate len (.timer ticks 0)) (ringEdges len) [0] [len] net :=
    exists_wiredNetwork P (fun e he => by simpa using mem_ringEdges he) (by simp) (by simp)
      (List.nodup_singleton _) (List.nodup_singleton _)
  refine ⟨net, ?_, hwired⟩
  rw [timerRing, require, if_pos (decide_eq_true hlen)]
  exact hnet

end Netlist.Generate
