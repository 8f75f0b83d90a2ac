/-
Networks within the limits of the export. A compilation keeps the cell of every leaf that it lists and
drops some of its sources at most, so the parts of a network are within the limits whatever the budget
and the elimination are, if the leaves of its circuit are.
-/
import Netlist.Proofs.Network.Compile
import Netlist.Proofs.Network.Export
import Netlist.Proofs.PartList.RoundTrip

namespace Netlist

variable {P : Type}

theorem Wires.Restricts.sources_sublist {w w' : Wires} {keep : NodeId → Bool} (h : w.Restricts keep w') (n : NodeId) :
    (w'.sources n).Sublist (w.sources n) := by
  rw [h.sources]
  split
  · exact List.filter_sublist
  · exact List.nil_sublist _

/-- A circuit whose leaves are no longer than the longest delay and have no more sources than the export
takes. -/
def Circuit.Limited (c : Circuit P) : Prop :=
  ∀ n cell, c.cell? n = some cell → cell.delay ≤ maxDelay ∧ (c.backwardOf n).length ≤ maxInputs

namespace Network

/-- A network whose parts pass the limits of the export and make a simulator, however it is compiled. -/
def Exportable (net : Network P) : Prop :=
  ∀ o : CompileOptions, ∃ compiled parts, net.compile o = .ok compiled ∧ compiled.parts = .ok parts ∧
    checkLimits parts = .ok () ∧ ∀ so : SimulatorOptions, ∃ s, Simulator.ofParts parts so = .ok s

variable {net : Network P}

/-- The parts of a compiled network are leaves of its circuit, with some of their sources. -/
theorem Describes.within {compiled : Network P} {n : NodeId} {p : Part P} (h : compiled.Describes n p)
    (hcell : compiled.circuit.cell? n = net.circuit.cell? n)
    (hsources : (compiled.wires.sources n).Sublist (net.circuit.backwardOf n)) (hlimited : net.circuit.Limited) :
    p.cell.delay ≤ maxDelay ∧ p.connectionsFrom.length ≤ maxInputs := by
  obtain ⟨hdelay, hinputs⟩ := hlimited n p.cell (hcell.symm.trans h.cell)
  refine ⟨hdelay, ?_⟩
  rw [h.connectionsFrom, List.length_map]
  exact hsources.length_le.trans hinputs

theorem exportable_of_limited (hc : net.circuit.WellWired) (hports : net.circuit.PortsExist)
    (hroot : net.root < net.circuit.size) (hlimited : net.circuit.Limited) : net.Exportable := by
  intro o
  obtain ⟨found, hfound, hcompile⟩ := compile_eq_ok hc hports hroot o.maxDepth
  obtain ⟨compiled, keep, hcompiled, hpruned, -⟩ := hcompile o rfl
  have hsound := hpruned.prunes.sound (sound_ofSurvey (wellWired_withoutIds hc) hfound net.root)
  obtain ⟨parts, hparts, hdescribes⟩ := parts_eq_ok hsound hpruned.numbered
  have hcell := (sameWiring_of_withoutIds (withoutIds_compile hcompiled)).cell
  have hsources : ∀ n, (compiled.wires.sources n).Sublist (net.circuit.backwardOf n) := by
    intro n
    have hsurveyed := (restricts_ofSurvey (withoutIds net.circuit) net.root found).sources_sublist n
    rw [Wires.sources_ofCircuit, backwardOf_withoutIds] at hsurveyed
    exact (hpruned.prunes.wires.sources_sublist n).trans hsurveyed
  have hwithin : ∀ p ∈ parts, p.cell.delay ≤ maxDelay ∧ p.connectionsFrom.length ≤ maxInputs := by
    intro p hp
    obtain ⟨i, hi⟩ := List.getElem?_of_mem hp
    obtain ⟨n, -, -, hn⟩ := exists_leaf hsound hdescribes hi
    exact hn.within (hcell n) (hsources n) hlimited
  have hclosed := closed_parts hsound hdescribes
  refine ⟨compiled, parts, hcompiled, hparts, checkLimits_eq_ok.2 hwithin, fun so => ?_⟩
  exact ⟨_, Simulator.ofParts_eq_ok.2 ⟨⟨hclosed.id, hclosed.source, fun p hp => (hwithin p hp).1⟩, rfl⟩⟩

end Network

end Netlist
