/-
Which circuits and networks pass their checks. A well wired circuit passes: the multiplicities of
its edges agree on both ends. A network over such a circuit passes if it is sound and numbered.
-/
import Netlist.Network.Check
import Netlist.Proofs.Circuit.Built
import Netlist.Proofs.Network.Elimination

namespace Netlist

variable {P : Type}

/-- A well wired circuit passes its check. -/
theorem Circuit.check_eq_ok {c : Circuit P} (hc : c.WellWired) : c.check = .ok () := by
  refine forM_eq_ok.2 fun a _ => ?_
  refine bind_eq_ok.2 ⟨(), forM_eq_ok.2 fun b _ => ?_, forM_eq_ok.2 fun b hb => ?_⟩
  · exact if_pos (hc.mirror a b)
  · exact if_pos (hc.mem_backwardOf.1 hb)

namespace Network

variable {net : Network P}

/-! ## Listed leaves -/

/-- Leaves that are listed once, with the ids that go with them, pass one after the other. -/
theorem checkLeaves_eq_ok : ∀ {xs : List (NodeId × Nat)} (seen : NodeSet), (xs.map Prod.fst).Nodup →
    (∀ x ∈ xs, seen.contains x.1 = false ∧ (net.circuit.cell? x.1).isSome ∧ net.idOf? x.1 = some x.2) →
    ∃ seen', net.checkLeaves seen xs = .ok seen' ∧
      ∀ n, seen'.contains n = true ↔ n ∈ xs.map Prod.fst ∨ seen.contains n = true
  | [], seen, _, _ => ⟨seen, rfl, fun n => by simp⟩
  | (n, position) :: xs, seen, hnodup, h => by
    obtain ⟨hfirst, hnodup⟩ := List.nodup_cons.1 hnodup
    obtain ⟨hfresh, hleaf, hid⟩ := h (n, position) (List.mem_cons_self ..)
    obtain ⟨node, hnode⟩ := Circuit.node?_of_lt (Circuit.lt_size_of_cell? hleaf)
    rw [← Circuit.isLeaf_eq hnode] at hleaf
    have hposition : node.id = some position := by simpa [idOf?, hnode] using hid
    obtain ⟨seen', hrest, hseen'⟩ := checkLeaves_eq_ok (seen.insert n) hnodup fun x hx => by
      obtain ⟨hfresh', hleaf', hid'⟩ := h x (List.mem_cons_of_mem _ hx)
      have hne : x.1 ≠ n := by
        rintro rfl
        exact hfirst (List.mem_map.2 ⟨x, hx, rfl⟩)
      exact ⟨by simp [hne, hfresh'], hleaf', hid'⟩
    refine ⟨seen', ?_, fun m => ?_⟩
    · rw [checkLeaves, hfresh, Circuit.fetch_eq_ok.2 hnode]
      simpa [bind, Except.bind, hleaf, hposition] using hrest
    · rw [hseen', NodeSet.contains_insert, List.map_cons, List.mem_cons, Bool.or_eq_true, beq_iff_eq]
      tauto

theorem checkLeaves_leaves (hnet : net.Sound) (hids : net.Numbered) :
    ∃ seen, net.checkLeaves {} net.leaves.zipIdx = .ok seen ∧
      ∀ n, seen.contains n = true ↔ n ∈ net.leaves := by
  have hfst : net.leaves.zipIdx.map Prod.fst = net.leaves := List.zipIdx_map_fst ..
  have hentry : ∀ x ∈ net.leaves.zipIdx, ({} : NodeSet).contains x.1 = false ∧
      (net.circuit.cell? x.1).isSome ∧ net.idOf? x.1 = some x.2 := by
    intro x hx
    obtain ⟨hi, hget⟩ := List.getElem?_eq_some_iff.1 (List.mem_zipIdx_iff_getElem?.1 hx)
    have hmem : x.1 ∈ net.leaves := hget ▸ List.getElem_mem hi
    refine ⟨NodeSet.contains_empty _, hnet.leaf _ hmem, ?_⟩
    rw [hids.listed _ hmem, ← hget, hnet.nodup.idxOf_getElem]
  obtain ⟨seen, hseen, hmem⟩ := checkLeaves_eq_ok {} (hfst.symm ▸ hnet.nodup) hentry
  exact ⟨seen, hseen, fun n => by simpa [hfst] using hmem n⟩

/-! ## Edges and ids -/

theorem checkWires_eq_ok (hnet : net.Sound) {listed : NodeId → Bool}
    (hlisted : ∀ n, listed n = true ↔ n ∈ net.leaves) (a : NodeId) : net.checkWires listed a = .ok () := by
  refine bind_eq_ok.2 ⟨(), forM_eq_ok.2 fun b hb => ?_, forM_eq_ok.2 fun b hb => ?_⟩
  · rw [checkTarget, (hlisted b).2 (hnet.joins a b hb).2, hnet.mirror a b]
    simp
    rfl
  · exact if_pos ((hlisted b).2 (hnet.mem_of_mem_sources hb).1)

theorem checkUnlisted_eq_ok (hids : net.Numbered) {listed : NodeId → Bool}
    (hlisted : ∀ n, listed n = true ↔ n ∈ net.leaves) (n : NodeId) :
    net.checkUnlisted listed n = .ok () := by
  unfold checkUnlisted
  split
  · next id hid =>
    have hn : n ∈ net.leaves := by
      by_contra hn
      rw [hids.strays n hn] at hid
      cases hid
    exact if_pos ((hlisted n).2 hn)
  · rfl

/-- A sound and numbered network passes its check. -/
theorem check_eq_ok (hc : net.circuit.WellWired) (hnet : net.Sound) (hids : net.Numbered) :
    net.check = .ok () := by
  obtain ⟨seen, hseen, hlisted⟩ := checkLeaves_leaves hnet hids
  refine bind_eq_ok.2 ⟨(), Circuit.check_eq_ok hc, bind_eq_ok.2 ⟨seen, hseen, bind_eq_ok.2 ⟨(), ?_, ?_⟩⟩⟩
  · exact forM_eq_ok.2 fun a _ => checkWires_eq_ok hnet hlisted a
  · exact forM_eq_ok.2 fun n _ => checkUnlisted_eq_ok hids hlisted n

end Network

end Netlist
