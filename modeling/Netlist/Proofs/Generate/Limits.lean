/-
The generated networks are within the limits of the export. In a chain a leaf has one source at most, in a
mesh two and in an adder three, and the sources of a random network are as many as are asked for.
-/
import Netlist.Proofs.Generate.Addition
import Netlist.Proofs.Generate.Random
import Netlist.Proofs.Network.Limits

namespace Netlist.Generate

open Circuit

variable {P : Type}

theorem length_sourcesIn (edges : List (NodeId × NodeId)) (n : NodeId) :
    (sourcesIn edges n).length = (edges.map (·.2)).count n := by
  induction edges with
  | nil => rfl
  | cons e edges ih =>
    rw [← List.singleton_append, sourcesIn_append, List.length_append, ih, List.map_append, List.count_append]
    congr 1
    by_cases hn : e.2 = n <;> simp [sourcesIn, hn]

theorem WiredNetwork.exportable {cells : List Cell} {edges : List (NodeId × NodeId)} {inputs outputs : List NodeId}
    {net : Network P} (h : WiredNetwork cells edges inputs outputs net)
    (hcells : ∀ cell ∈ cells, cell.delay ≤ maxDelay) (hedges : ∀ n, (edges.map (·.2)).count n ≤ maxInputs) :
    net.Exportable := by
  refine Network.exportable_of_limited h.built.wellWired h.ports h.root_lt fun n cell hn => ⟨?_, ?_⟩
  · exact hcells cell (List.mem_of_getElem? ((h.cell n).symm.trans hn))
  · rw [h.sources, length_sourcesIn]
    exact hedges n

/-! ## Chains -/

theorem exists_chain (P : Type) {len : Nat} (hlen : 0 < len) (mode : Mode) :
    ∃ net : Network P, chain P len mode = .ok net ∧ net.Exportable := by
  obtain ⟨net, hnet, hwired⟩ := chain_eq_ok P hlen mode
  refine ⟨net, hnet, hwired.exportable (fun cell hcell => ?_) fun n => ?_⟩
  · rw [List.eq_of_mem_replicate hcell]
    exact Nat.zero_le _
  · have htargets : (inSequence (List.range len)).map (·.2) = (List.range len).tail :=
      List.map_snd_zip (by simp)
    have hnodup := List.nodup_range.sublist (List.tail_sublist (List.range len))
    rw [htargets]
    exact (List.nodup_iff_count_le_one.1 hnodup n).trans (by decide)

/-! ## Meshes -/

/-- Every gate of a mesh feeds two others. -/
theorem count_targets_mesh (gates : List Nat) (n : NodeId) :
    ((gates.flatMap fun i => [(i + 2, i + 1), (i + 2, i)]).map (·.2)).count n =
      (gates.map (· + 1)).count n + gates.count n := by
  induction gates with
  | nil => rfl
  | cons i gates ih =>
    rw [List.flatMap_cons, List.map_append, List.count_append, ih]
    simp only [List.map_cons, List.map_nil, List.count_cons, List.count_nil]
    omega

theorem exists_mesh (P : Type) {len : Nat} (hlen : 2 ≤ len) :
    ∃ net : Network P, mesh P len = .ok net ∧ net.Exportable := by
  obtain ⟨net, hnet, hwired⟩ := mesh_eq_ok P hlen
  refine ⟨net, hnet, hwired.exportable (fun cell hcell => ?_) fun n => ?_⟩
  · rw [List.eq_of_mem_replicate hcell]
    exact Nat.zero_le _
  · have hnodup : ((List.range (len - 2)).map (· + 1)).Nodup := List.nodup_range.map (Nat.succ_injective)
    rw [meshEdges, count_targets_mesh]
    exact (Nat.add_le_add (List.nodup_iff_count_le_one.1 hnodup n)
      (List.nodup_iff_count_le_one.1 List.nodup_range n)).trans (by decide)

/-! ## Adders -/

theorem Role.length_sources (len : Nat) (r : Role) : (r.sources len).length ≤ 3 := by
  unfold sources
  split <;> exact Nat.le_of_ble_eq_true rfl

theorem exists_rippleCarry (P : Type) (len : Nat) :
    ∃ net : Network P, rippleCarry P len = .ok net ∧ net.Exportable := by
  obtain ⟨c, net, hnet, hadds, hports, hrooted⟩ := rippleCarry_eq_ok P len
  refine ⟨net, hnet, Network.exportable_of_limited (built_rippleCarry hnet).wellWired (hrooted.ports hports) ?_
    fun n cell hn => ?_⟩
  · rw [hrooted.start, hrooted.size]
    exact Nat.lt_succ_self _
  · obtain ⟨r, hwithin, rfl, hr⟩ := hadds.exists_role ((hrooted.cell n).symm.trans hn)
    rw [Role.delay_of_cell? hr, hrooted.backward, hadds.backward r hwithin, List.length_map]
    exact ⟨Nat.zero_le _, (r.length_sources len).trans (by decide)⟩

/-! ## Random networks -/

theorem Drawn.exportable {len maxFanin : Nat} {net : Network P} (h : Drawn len maxFanin net)
    (hfanin : maxFanin ≤ maxInputs) : net.Exportable := by
  refine Network.exportable_of_limited h.built.wellWired h.ports ?_ fun n cell hn => ⟨?_, ?_⟩
  · rw [h.root, h.size]
    exact Nat.lt_succ_self _
  · exact (h.delay n cell hn).trans (by decide)
  · rcases Nat.lt_or_ge n (ioCount len) with hinput | hbehind
    · rw [(h.input n hinput).2]
      exact Nat.zero_le _
    · exact (h.behind n hbehind ((h.isLeaf n).1 (Option.isSome_of_eq_some hn))).2.trans hfanin

end Netlist.Generate
