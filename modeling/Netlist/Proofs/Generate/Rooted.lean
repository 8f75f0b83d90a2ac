/-
Networks whose root exposes single leaves, as all generated networks do. The leaves behind the root
are pinned, and a compilation with enough budget reaches them, so they are listed whatever is
eliminated, and each slot of the root leads to the id of its leaf.
-/
import Netlist.Proofs.Circuit.Connections
import Netlist.Proofs.Generate.Built
import Netlist.Proofs.Network.Reordering

namespace Netlist

variable {P : Type}

namespace Network

/-- The ids of the leaves behind each slot of the root. -/
def slotIds (net : Network P) (side : Side) : Except Failure (List (List Nat)) := do
  (← net.circuit.slotLeaves side net.root).mapM (·.mapM net.resolve)

/-- Slots of single leaves lead to the positions of these leaves. -/
theorem slotIds_single {net : Network P} (hids : net.Numbered) {side : Side} {root : Node P}
    (hroot : net.circuit.node? net.root = some root) {leaves : List NodeId}
    (hslots : root.slots side = leaves.map .single) (hleaves : ∀ n ∈ leaves, (net.circuit.cell? n).isSome)
    (hlisted : ∀ n ∈ leaves, n ∈ net.leaves) :
    net.slotIds side = .ok (leaves.map fun n => [net.leaves.idxOf n]) := by
  rw [slotIds, Circuit.slotLeaves_single hroot hslots hleaves]
  show (leaves.map ([·])).mapM (·.mapM net.resolve) = _
  rw [List.mapM_map]
  refine mapM_eq_pure fun n hn => mapM_resolve hids fun m hm => ?_
  rw [List.mem_singleton.1 hm]
  exact hlisted n hn

theorem survives_of_isPinned {net : Network P} {n : NodeId} (hn : n ∈ net.leaves)
    (hp : net.circuit.isPinned n = true) (o : CompileOptions) : net.Survives o n := by
  refine ⟨hn, fun _ => ?_⟩
  split
  · exact .pinned hn hp
  · rintro ⟨-, hp', -⟩
    exact absurd (hp.symm.trans hp') (by decide)

end Network

namespace Generate

open Circuit

/-! ## Adding a root -/

/-- An uncompiled network whose root is right behind a circuit and exposes some of its leaves. -/
structure Rooted (c : Circuit P) (inputs outputs : List NodeId) (net : Network P) : Prop where
  start : net = ⟨net.circuit, c.size, [], [], [], {}⟩
  size : net.circuit.size = c.size + 1
  cell : ∀ n, net.circuit.cell? n = c.cell? n
  backward : ∀ n, net.circuit.backwardOf n = c.backwardOf n
  root : ∃ node, net.circuit.node? c.size = some node ∧ node.inputs = inputs.map .single ∧
    node.outputs = outputs.map .single
  ports : c.PortsExist → net.circuit.PortsExist
  pinned : ∀ n, n ∈ inputs ∨ n ∈ outputs → net.circuit.isPinned n = true

theorem flatMap_single (ns : List NodeId) : (ns.map Port.single).flatMap Port.nodes = ns := by
  simp [List.flatMap_map, Port.nodes]

/-- The circuit of a network with the given root, before the leaves behind the root are pinned. -/
def rootCircuit (c : Circuit P) (inputs outputs : List NodeId) : Circuit P :=
  (c.addContainer (inputs.map .single) (outputs.map .single)).1

theorem node?_rootCircuit (c : Circuit P) (inputs outputs : List NodeId) :
    (rootCircuit c inputs outputs).node? c.size = some
      { kind := .container, inputs := inputs.map .single, outputs := outputs.map .single } := by
  rw [rootCircuit, addContainer, node?_push, if_pos rfl]

variable {c : Circuit P} {inputs outputs : List NodeId}

theorem pinPorts_rootCircuit (hinputs : ∀ n ∈ inputs, (c.cell? n).isSome)
    (houtputs : ∀ n ∈ outputs, (c.cell? n).isSome) (hnodup : inputs.Nodup) (hnodup' : outputs.Nodup) :
    (rootCircuit c inputs outputs).pinPorts c.size =
      .ok ((inputs ++ outputs).foldl markPinned (rootCircuit c inputs outputs)) := by
  have hleaf : ∀ n, (c.cell? n).isSome → ((rootCircuit c inputs outputs).cell? n).isSome :=
    fun n hn => isSome_cell?_addContainer hn ..
  have hbehind := leavesBehind_leaves .input (fun n hn => hleaf n (hinputs n hn)) hnodup
  have hbehind' := leavesBehind_leaves .output (fun n hn => hleaf n (houtputs n hn)) hnodup'
  rw [pinPorts, fetch_eq_ok.2 (node?_rootCircuit c inputs outputs)]
  simp only [bind, Except.bind, Node.exposed, Node.slots, flatMap_single, hbehind, hbehind']
  rfl

theorem addRoot_eq_ok (hinputs : ∀ n ∈ inputs, (c.cell? n).isSome)
    (houtputs : ∀ n ∈ outputs, (c.cell? n).isSome) (hnodup : inputs.Nodup) (hnodup' : outputs.Nodup) :
    addRoot c inputs outputs =
      .ok ((inputs ++ outputs).foldl markPinned (rootCircuit c inputs outputs), c.size) :=
  bind_eq_ok.2 ⟨_, pinPorts_rootCircuit hinputs houtputs hnodup hnodup', rfl⟩

theorem withRoot_eq_ok (hinputs : ∀ n ∈ inputs, (c.cell? n).isSome)
    (houtputs : ∀ n ∈ outputs, (c.cell? n).isSome) (hnodup : inputs.Nodup) (hnodup' : outputs.Nodup) :
    ∃ net, withRoot c inputs outputs = .ok net ∧ Rooted c inputs outputs net := by
  obtain ⟨pinned, hpinned⟩ : ∃ x, (inputs ++ outputs).foldl markPinned (rootCircuit c inputs outputs) = x :=
    ⟨_, rfl⟩
  have hsize : (rootCircuit c inputs outputs).size = c.size + 1 := size_push ..
  have hlt : ∀ n, n ∈ inputs ∨ n ∈ outputs → n < c.size := by
    rintro n (hn | hn)
    · exact lt_size_of_cell? (hinputs n hn)
    · exact lt_size_of_cell? (houtputs n hn)
  have hwiring : SameWiring (rootCircuit c inputs outputs) pinned := hpinned ▸ .foldl_markPinned ..
  have hports : SamePorts (rootCircuit c inputs outputs) pinned := hpinned ▸ .foldl_markPinned ..
  have hadd := addRoot_eq_ok hinputs houtputs hnodup hnodup'
  rw [hpinned] at hadd
  refine ⟨⟨pinned, c.size, [], [], [], {}⟩, ?_, rfl, hwiring.size.trans hsize, fun n => ?_, fun n => ?_, ?_, ?_, ?_⟩
  · refine bind_eq_ok.2 ⟨(pinned, c.size), hadd, if_pos ?_⟩
    rw [hwiring.size, hsize]
    exact Nat.lt_succ_self _
  · exact (hwiring.cell n).trans (cell?_addContainer ..)
  · exact (hwiring.backward n).trans (backwardOf_push c rfl n)
  · obtain ⟨node, hnode, hface⟩ := hports.exists_node (node?_rootCircuit c inputs outputs)
    obtain ⟨-, hnodeInputs, hnodeOutputs⟩ := Node.face_eq_iff.1 hface
    exact ⟨node, hnode, hnodeInputs, hnodeOutputs⟩
  · intro hc
    refine PortsExist.same (hc.addContainer fun port hport m hm => ?_) hports
    rw [← List.map_append] at hport
    obtain ⟨n, hn, rfl⟩ := List.mem_map.1 hport
    rw [List.mem_singleton.1 hm]
    exact hlt n (List.mem_append.1 hn)
  · intro n hn
    rw [← hpinned, isPinned_foldl_markPinned, hsize]
    exact .inr ⟨List.mem_append.2 hn, Nat.lt_succ_of_lt (hlt n hn)⟩

/-! ## Compiling from the root -/

variable {net : Network P}

theorem Rooted.schematic_eq (h : Rooted c inputs outputs net) : net.circuit.schematic = c.schematic := by
  unfold Circuit.schematic
  rw [funext h.cell, funext h.backward]

theorem Rooted.adjacent (h : Rooted c inputs outputs net) {n : NodeId} (hn : n ∈ inputs ∨ n ∈ outputs) :
    net.circuit.Adjacent c.size n := by
  obtain ⟨node, hnode, hinputs, houtputs⟩ := h.root
  refine ⟨node, hnode, ?_⟩
  simp only [Node.neighbours, Node.exposed, Node.slots, hinputs, houtputs, flatMap_single, List.mem_append]
  tauto

/-- What a compilation of a network with such a root gives. -/
structure Routed (inputs outputs : List NodeId) (net compiled : Network P) : Prop where
  sound : compiled.Sound
  numbered : compiled.Numbered
  realizes : compiled.Realizes net.circuit.schematic
  listed : ∀ n, n ∈ inputs ∨ n ∈ outputs → n ∈ compiled.leaves
  inputs : compiled.slotIds .input = .ok (inputs.map fun n => [compiled.leaves.idxOf n])
  outputs : compiled.slotIds .output = .ok (outputs.map fun n => [compiled.leaves.idxOf n])

theorem Rooted.compile (h : Rooted c inputs outputs net) (hnet : net.circuit.Built) (hports : c.PortsExist)
    (hinputs : ∀ n ∈ inputs, (c.cell? n).isSome) (houtputs : ∀ n ∈ outputs, (c.cell? n).isSome)
    {o : CompileOptions} (ho : net.circuit.size < o.maxDepth) :
    ∃ compiled, net.compile o = .ok compiled ∧ Routed inputs outputs net compiled := by
  have hroot : c.size < net.circuit.size := by
    rw [h.size]
    exact Nat.lt_succ_self _
  obtain ⟨found, hroomy⟩ := Network.exists_roomy hnet.wellWired (h.ports hports) hroot ho
  obtain ⟨compiled, hcompile, hsound, hnumbered, hleaves, hrealizes⟩ := hroomy.compile hnet.wellWired rfl
  have hcompile' : net.compile o = .ok compiled := by rwa [h.start]
  -- the root reaches the leaves that it exposes, and no pass drops them because they are pinned
  have hlisted : ∀ n, n ∈ inputs ∨ n ∈ outputs → n ∈ compiled.leaves := by
    intro n hn
    have hcell : (net.circuit.cell? n).isSome := by
      rw [h.cell]
      exact hn.elim (hinputs n) (houtputs n)
    have hsurveyed := hroomy.mem_leaves.2 ⟨hcell, .single (h.adjacent hn)⟩
    have hpinned := (Network.isPinned_withoutIds net.circuit n).trans (h.pinned n hn)
    exact (hleaves n).2 (Network.survives_of_isPinned hsurveyed hpinned o)
  have hcell : ∀ n, compiled.circuit.cell? n = c.cell? n := fun n =>
    ((Network.sameWiring_of_withoutIds (Network.withoutIds_compile hcompile')).cell n).trans (h.cell n)
  obtain ⟨node, hnode, hnodeInputs, hnodeOutputs⟩ := h.root
  obtain ⟨root, hcompiled, hface⟩ :=
    (SamePorts.of_withoutIds (Network.withoutIds_compile hcompile')).exists_node hnode
  obtain ⟨-, hrootInputs, hrootOutputs⟩ := Node.face_eq_iff.1 hface
  have hplace : compiled.root = c.size := by rw [Network.root_compile hcompile', h.start]
  rw [← hplace] at hcompiled
  refine ⟨compiled, hcompile', hsound, hnumbered, hrealizes, hlisted, ?_, ?_⟩
  · exact Network.slotIds_single hnumbered hcompiled (hrootInputs.trans hnodeInputs)
      (fun n hn => hcell n ▸ hinputs n hn) fun n hn => hlisted n (.inl hn)
  · exact Network.slotIds_single hnumbered hcompiled (hrootOutputs.trans hnodeOutputs)
      (fun n hn => hcell n ▸ houtputs n hn) fun n hn => hlisted n (.inr hn)

end Generate

end Netlist
