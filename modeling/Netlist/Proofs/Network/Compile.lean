/-
What a compilation gives. It succeeds on every circuit whose ports exist, and the network that it
gives is sound and numbered. Its leaves are those of the survey but for the eliminated ones, and
without diagnostics every leaf reads what it reads in the circuit.
-/
import Netlist.Proofs.Circuit.Survey
import Netlist.Proofs.Network.Elimination

namespace Netlist

variable {P : Type}

namespace Network

/-! ## Surveyed networks -/

theorem portsExist_withoutIds {c : Circuit P} (h : c.PortsExist) : (withoutIds c).PortsExist := by
  intro node hnode m hm
  obtain ⟨old, hold, rfl⟩ := Array.mem_map.1 hnode
  rw [size_withoutIds]
  exact h old hold m hm

theorem portsExist_of_withoutIds {c c' : Circuit P} (h : withoutIds c' = withoutIds c)
    (hc : c.PortsExist) : c'.PortsExist := by
  intro node hnode m hm
  have hmem : { node with id := none } ∈ (withoutIds c').nodes := Array.mem_map_of_mem hnode
  rw [← size_withoutIds, h]
  rw [h] at hmem
  exact portsExist_withoutIds hc _ hmem m hm

theorem wellWired_withoutIds {c : Circuit P} (h : c.WellWired) : (withoutIds c).WellWired :=
  h.of_withoutIds (withoutIds_withoutIds c)

theorem mirrored_withoutIds {c : Circuit P} (h : c.Mirrored) : (withoutIds c).Mirrored := by
  intro a b
  rw [forwardOf_withoutIds, backwardOf_withoutIds]
  exact h a b

variable {c : Circuit P} {found : Survey}

/-- The edges of a surveyed network are those of the circuit between its leaves. -/
theorem restricts_ofSurvey (c : Circuit P) (root : NodeId) (found : Survey) :
    (Wires.ofCircuit c).Restricts (fun n => decide (n ∈ found.leaves.toList))
      (ofSurvey c root found).wires := by
  have hlisted : (fun n => decide (n ∈ found.leaves.toList)) =
      ((NodeSet.ofList found.leaves.toList).contains ·) := by
    funext n
    rw [NodeSet.contains_ofList, List.contains_eq_mem]
  rw [hlisted]
  exact Wires.restricts_restrict ..

theorem mirror_ofCircuit (hc : c.Mirrored) : (Wires.ofCircuit c).Mirror := by
  intro a b
  rw [Wires.targets_ofCircuit, Wires.sources_ofCircuit, hc]

theorem sound_of_mirrored (hc : c.Mirrored) (hfound : c.Surveyed found) (root : NodeId) :
    (ofSurvey c root found).Sound := by
  have hwires := restricts_ofSurvey c root found
  refine ⟨hfound.nodup, fun n hn => hfound.leaf n (Array.mem_def.2 hn), fun a b hab => ?_,
    hwires.mirror (mirror_ofCircuit hc)⟩
  obtain ⟨-, ha, hb⟩ := hwires.mem_targets.1 hab
  exact ⟨of_decide_eq_true ha, of_decide_eq_true hb⟩

theorem sound_ofSurvey (hc : c.WellWired) (hfound : c.Surveyed found) (root : NodeId) :
    (ofSurvey c root found).Sound :=
  sound_of_mirrored hc.mirrored hfound root

theorem targets_ofSurvey_withoutIds (net : Network P) (found : Survey) (n : NodeId) :
    (ofSurvey (withoutIds net.circuit) net.root found).wires.targets n = if n ∈ found.leaves.toList then
      (net.circuit.forwardOf n).filter (· ∈ found.leaves.toList) else [] := by
  simpa using (restricts_ofSurvey (withoutIds net.circuit) net.root found).targets n

theorem sources_ofSurvey_withoutIds (net : Network P) (found : Survey) (n : NodeId) :
    (ofSurvey (withoutIds net.circuit) net.root found).wires.sources n = if n ∈ found.leaves.toList then
      (net.circuit.backwardOf n).filter (· ∈ found.leaves.toList) else [] := by
  simpa using (restricts_ofSurvey (withoutIds net.circuit) net.root found).sources n

/-- If nothing was cut off, a leaf reads what it reads in the circuit. -/
theorem sources_ofSurvey (hc : c.WellWired) (hfound : c.Surveyed found) (hcuts : found.diagnostics = #[])
    (root : NodeId) {n : NodeId} (hn : n ∈ found.leaves) :
    (ofSurvey c root found).wires.sources n = c.backwardOf n := by
  refine ((restricts_ofSurvey c root found).sources_eq (by simpa using hn) fun m hm => ?_).trans
    (Wires.sources_ofCircuit c n)
  rw [Wires.sources_ofCircuit] at hm
  obtain ⟨node, hnode⟩ := Circuit.node?_of_lt (Circuit.lt_size_of_cell? (hfound.leaf n hn))
  have hneighbour : m ∈ node.neighbours := by
    rw [Circuit.backwardOf, hnode] at hm
    exact List.mem_append_right _ hm
  have hleaf := (hc.joins m n (hc.mem_backwardOf.1 hm)).1
  rcases hfound.next n node (Or.inl hn) hnode m hneighbour with hl | ⟨d, hd⟩
  · simpa using hfound.mem_leaves hl hleaf
  · simp [hcuts] at hd

/-! ## Compiled networks -/

theorem diagnostics_eliminate (net : Network P) (o : CompileOptions) :
    (net.eliminate o).diagnostics = net.diagnostics := by
  unfold eliminate
  split
  · split <;> rfl
  · rfl

theorem root_compile {net net' : Network P} {o : CompileOptions} (h : net.compile o = .ok net') :
    net'.root = net.root := by
  obtain ⟨found, -, h⟩ := compile_eq_ok_iff.1 h
  cases h
  rw [assignIds, eliminate]
  split
  · split <;> rfl
  · rfl

theorem noStrays_eliminate {net : Network P} (hnet : net.Sound) (h : net.NoStrays)
    (o : CompileOptions) : (net.eliminate o).NoStrays := by
  have hends := (numbered_removeDeadEnds hnet h).strays
  unfold eliminate
  split
  · split
    · exact (numbered_pruneDeadLoops ((prunes_removeDeadEnds hnet).sound hnet) hends).strays
    · exact hends
  · exact h

theorem Prunes.assignIds {net net' : Network P} {keep : NodeId → Bool} (h : Prunes net keep net') :
    Prunes net keep net'.assignIds :=
  ⟨h.leaves, h.wires, (withoutIds_numberLeaves _ _).trans h.circuit, h.pinned, h.closed⟩

/-- `net'` is what a compilation makes of a circuit that was surveyed: a part of the surveyed
network, with its ids. -/
structure Compiled (net : Network P) (found : Survey) (keep : NodeId → Bool) (net' : Network P) :
    Prop where
  prunes : Prunes (ofSurvey (withoutIds net.circuit) net.root found) keep net'
  numbered : net'.Numbered
  diagnostics : net'.diagnostics = found.diagnostics.toList

theorem compiled_of_mirrored {net : Network P} (hc : net.circuit.Mirrored)
    (hfound : (withoutIds net.circuit).Surveyed found) (o : CompileOptions) :
    ∃ keep, Compiled net found keep
      ((ofSurvey (withoutIds net.circuit) net.root found).eliminate o).assignIds := by
  have hsound := sound_of_mirrored (mirrored_withoutIds hc) hfound net.root
  have hstrays : (ofSurvey (withoutIds net.circuit) net.root found).NoStrays :=
    noStrays_of_withoutIds (withoutIds_withoutIds _).symm
  obtain ⟨keep, hkeep⟩ := prunes_eliminate hsound o
  have hsound' := hkeep.sound hsound
  have hstrays' := noStrays_eliminate hsound hstrays o
  exact ⟨keep, hkeep.assignIds, numbered_assignIds hsound'.nodup hsound'.lt_size hstrays',
    diagnostics_eliminate _ o⟩

theorem compiled_assignIds {net : Network P} (hc : net.circuit.WellWired)
    (hfound : (withoutIds net.circuit).Surveyed found) (o : CompileOptions) :
    ∃ keep, Compiled net found keep
      ((ofSurvey (withoutIds net.circuit) net.root found).eliminate o).assignIds :=
  compiled_of_mirrored hc.mirrored hfound o

theorem survey_of_mirrored {net : Network P} (hc : net.circuit.Mirrored) (hports : net.circuit.PortsExist)
    (hroot : net.root < net.circuit.size) (maxDepth : Nat) :
    ∃ found, (withoutIds net.circuit).survey net.root maxDepth = .ok found ∧
      (withoutIds net.circuit).Surveyed found := by
  have hroot' : net.root < (withoutIds net.circuit).size := by rwa [size_withoutIds]
  exact Circuit.survey_eq_ok (portsExist_withoutIds hports) (mirrored_withoutIds hc) hroot' maxDepth

theorem exists_survey {net : Network P} (hc : net.circuit.WellWired) (hports : net.circuit.PortsExist)
    (hroot : net.root < net.circuit.size) (maxDepth : Nat) :
    ∃ found, (withoutIds net.circuit).survey net.root maxDepth = .ok found ∧
      (withoutIds net.circuit).Surveyed found :=
  survey_of_mirrored hc.mirrored hports hroot maxDepth

theorem compile_of_survey {net : Network P} {o : CompileOptions}
    (h : (withoutIds net.circuit).survey net.root o.maxDepth = .ok found) :
    net.compile o = .ok ((ofSurvey (withoutIds net.circuit) net.root found).eliminate o).assignIds :=
  compile_eq_ok_iff.2 ⟨found, h, rfl⟩

/-- Compilations with one depth budget succeed and start from one survey. Without elimination they
keep all of its leaves. -/
theorem compile_eq_ok {net : Network P} (hc : net.circuit.WellWired) (hports : net.circuit.PortsExist)
    (hroot : net.root < net.circuit.size) (maxDepth : Nat) :
    ∃ found, (withoutIds net.circuit).Surveyed found ∧ ∀ o : CompileOptions, o.maxDepth = maxDepth →
      ∃ net' keep, net.compile o = .ok net' ∧ Compiled net found keep net' ∧
        (o.deadEnds = false → net'.leaves = found.leaves.toList) := by
  obtain ⟨found, hsurvey, hfound⟩ := exists_survey hc hports hroot maxDepth
  refine ⟨found, hfound, ?_⟩
  rintro o rfl
  obtain ⟨keep, hcompiled⟩ := compiled_assignIds hc hfound o
  refine ⟨_, keep, compile_of_survey hsurvey, hcompiled, ?_⟩
  intro hends
  rw [eliminate, hends]
  rfl

end Network

end Netlist
