/-
The exported part list of a network. A sound and numbered network is exported without a failure:
the part at a position describes the leaf at that position, and its connections are those of the
leaf by id. A simulator accepts the list unless a delay is too long.
-/
import Mathlib.Algebra.BigOperators.Fin
import Netlist.Network.Basic
import Netlist.Proofs.Network.Elimination
import Netlist.Proofs.Simulator.Layout

namespace Netlist

variable {P : Type}

/-! ## Closed part lists -/

/-- Ids are positions, connections lead to parts of the list, and every connection is recorded as
often on its source as on its target. -/
structure ClosedParts (parts : List (Part P)) : Prop where
  id : ∀ i (p : Part P), parts[i]? = some p → p.id = i
  target : ∀ p ∈ parts, ∀ j ∈ p.connections, j < parts.length
  source : ∀ p ∈ parts, ∀ j ∈ p.connectionsFrom, j < parts.length
  mirror : ∀ i j (p q : Part P), parts[i]? = some p → parts[j]? = some q →
    p.connections.count j = q.connectionsFrom.count i

theorem length_eq_sum_count {n : Nat} {ids : List Nat} (h : ∀ i ∈ ids, i < n) :
    ids.length = ∑ i : Fin n, ids.count i.1 := by
  have hsum := Multiset.sum_count_eq_card (s := Finset.range n) (m := (ids : Multiset Nat))
    (by simpa using h)
  rw [Finset.sum_range] at hsum
  simpa using hsum.symm

/-- Counted over all parts, there are as many outgoing connections as incoming ones. -/
theorem ClosedParts.fan {parts : List (Part P)} (h : ClosedParts parts) :
    (parts.map (·.connections.length)).sum = (parts.map (·.connectionsFrom.length)).sum := by
  have hget : ∀ i : Fin parts.length, parts[i.1]? = some parts[i] := fun i => List.getElem?_eq_getElem i.2
  calc (parts.map (·.connections.length)).sum
      = ∑ i : Fin parts.length, parts[i].connections.length := (Fin.sum_univ_fun_getElem ..).symm
    _ = ∑ i : Fin parts.length, ∑ j : Fin parts.length, parts[i].connections.count j.1 :=
        Finset.sum_congr rfl fun i _ => length_eq_sum_count (h.target _ (List.getElem_mem i.2))
    _ = ∑ j : Fin parts.length, ∑ i : Fin parts.length, parts[i].connections.count j.1 := Finset.sum_comm
    _ = ∑ j : Fin parts.length, ∑ i : Fin parts.length, parts[j].connectionsFrom.count i.1 :=
        Finset.sum_congr rfl fun j _ => Finset.sum_congr rfl fun i _ =>
          h.mirror i j _ _ (hget i) (hget j)
    _ = ∑ j : Fin parts.length, parts[j].connectionsFrom.length :=
        Finset.sum_congr rfl fun j _ => (length_eq_sum_count (h.source _ (List.getElem_mem j.2))).symm
    _ = (parts.map (·.connectionsFrom.length)).sum :=
        Fin.sum_univ_fun_getElem parts (·.connectionsFrom.length)

namespace Network

/-! ## Descriptions -/

/-- A part that describes a leaf of a network. -/
structure Describes (net : Network P) (n : NodeId) (p : Part P) : Prop where
  id : p.id = net.leaves.idxOf n
  cell : net.circuit.cell? n = some p.cell
  connections : p.connections = (net.wires.targets n).map (net.leaves.idxOf ·)
  connectionsFrom : p.connectionsFrom = (net.wires.sources n).map (net.leaves.idxOf ·)
  pinned : p.pinned = net.circuit.isPinned n

variable {net : Network P}

theorem resolve_eq_ok (hids : net.Numbered) {n : NodeId} (hn : n ∈ net.leaves) :
    net.resolve n = .ok (net.leaves.idxOf n) := by
  rw [resolve, hids.listed n hn]

theorem mapM_resolve (hids : net.Numbered) {ns : List NodeId} (hns : ∀ n ∈ ns, n ∈ net.leaves) :
    ns.mapM net.resolve = .ok (ns.map (net.leaves.idxOf ·)) :=
  mapM_eq_pure fun n hn => resolve_eq_ok hids (hns n hn)

/-- Every listed leaf has a description. -/
theorem describe_eq_ok (hnet : net.Sound) (hids : net.Numbered) {n : NodeId} (hn : n ∈ net.leaves) :
    ∃ p, net.describe n = .ok p ∧ net.Describes n p := by
  have hleaf := hnet.leaf n hn
  obtain ⟨node, hnode⟩ := Circuit.node?_of_lt (hnet.lt_size n hn)
  have htargets := mapM_resolve hids fun m hm => (hnet.joins n m hm).2
  have hsources := mapM_resolve hids fun m hm => (hnet.mem_of_mem_sources (b := n) hm).1
  have hcell : net.circuit.cell? n = node.cell? := by rw [Circuit.cell?, hnode, Option.bind_some]
  rw [hcell, Node.cell?] at hleaf
  unfold describe
  rw [Circuit.fetch_eq_ok.2 hnode]
  cases hkind : node.kind with
  | container => simp [hkind] at hleaf
  | leaf cell =>
    simp only [bind, Except.bind, hkind, resolve_eq_ok hids hn] at htargets hsources ⊢
    rw [htargets, hsources]
    refine ⟨_, rfl, rfl, ?_, rfl, rfl, ?_⟩
    · rw [hcell, Node.cell?, hkind]
    · simp [Circuit.isPinned, hnode]

theorem parts_eq_ok (hnet : net.Sound) (hids : net.Numbered) :
    ∃ parts, net.parts = .ok parts ∧ List.Forall₂ net.Describes net.leaves parts :=
  exists_mapM_eq_ok fun _ hn => describe_eq_ok hnet hids hn

/-! ## Positions -/

section Parts

variable {parts : List (Part P)}

/-- The part at the position of a leaf describes it. -/
theorem exists_part (hparts : List.Forall₂ net.Describes net.leaves parts) {n : NodeId} (hn : n ∈ net.leaves) :
    ∃ p, parts[net.leaves.idxOf n]? = some p ∧ net.Describes n p := by
  have hi := List.idxOf_lt_length_of_mem hn
  have hi' : net.leaves.idxOf n < parts.length := hparts.length_eq ▸ hi
  refine ⟨_, List.getElem?_eq_getElem hi', ?_⟩
  have hdescribes := hparts.get hi hi'
  rwa [List.get_eq_getElem, List.getElem_idxOf] at hdescribes

/-- Every part describes a leaf at its position. -/
theorem exists_leaf (hnet : net.Sound) (hparts : List.Forall₂ net.Describes net.leaves parts) {i : Nat}
    {p : Part P} (hp : parts[i]? = some p) : ∃ n ∈ net.leaves, net.leaves.idxOf n = i ∧ net.Describes n p := by
  obtain ⟨hi, rfl⟩ := List.getElem?_eq_some_iff.1 hp
  have hi' : i < net.leaves.length := hparts.length_eq ▸ hi
  exact ⟨net.leaves[i], List.getElem_mem hi', hnet.nodup.idxOf_getElem i hi', hparts.get hi' hi⟩

/-- Among listed leaves, an id occurs as often as its leaf. -/
theorem count_map_idxOf {ns : List NodeId} (hns : ∀ n ∈ ns, n ∈ net.leaves) (m : NodeId) :
    (ns.map (net.leaves.idxOf ·)).count (net.leaves.idxOf m) = ns.count m := by
  rw [List.count, List.countP_map]
  refine List.countP_congr fun n hn => ?_
  simp only [Function.comp_apply, beq_iff_eq]
  exact List.idxOf_inj (hns n hn)

theorem closed_parts (hnet : net.Sound) (hparts : List.Forall₂ net.Describes net.leaves parts) :
    ClosedParts parts := by
  have hlt : ∀ n ∈ net.leaves, net.leaves.idxOf n < parts.length := by
    intro n hn
    rw [← hparts.length_eq]
    exact List.idxOf_lt_length_of_mem hn
  constructor
  · intro i p hp
    obtain ⟨n, -, hi, hdescribes⟩ := exists_leaf hnet hparts hp
    rw [hdescribes.id, hi]
  · intro p hp j hj
    obtain ⟨i, hi⟩ := List.getElem?_of_mem hp
    obtain ⟨n, -, -, hdescribes⟩ := exists_leaf hnet hparts hi
    rw [hdescribes.connections] at hj
    obtain ⟨m, hm, rfl⟩ := List.mem_map.1 hj
    exact hlt m (hnet.joins n m hm).2
  · intro p hp j hj
    obtain ⟨i, hi⟩ := List.getElem?_of_mem hp
    obtain ⟨n, -, -, hdescribes⟩ := exists_leaf hnet hparts hi
    rw [hdescribes.connectionsFrom] at hj
    obtain ⟨m, hm, rfl⟩ := List.mem_map.1 hj
    exact hlt m (hnet.mem_of_mem_sources hm).1
  · intro i j p q hp hq
    obtain ⟨n, -, rfl, hn⟩ := exists_leaf hnet hparts hp
    obtain ⟨m, -, rfl, hm⟩ := exists_leaf hnet hparts hq
    rw [hn.connections, hm.connectionsFrom, count_map_idxOf (fun k hk => (hnet.joins n k hk).2),
      count_map_idxOf (fun k hk => (hnet.mem_of_mem_sources hk).1), hnet.mirror]

theorem accepted_parts (hnet : net.Sound) (hparts : List.Forall₂ net.Describes net.leaves parts)
    (hdelay : ∀ n ∈ net.leaves, ∀ cell, net.circuit.cell? n = some cell → cell.delay ≤ maxDelay) :
    Accepted parts where
  id := (closed_parts hnet hparts).id
  source := (closed_parts hnet hparts).source
  delay p hp := by
    obtain ⟨i, hi⟩ := List.getElem?_of_mem hp
    obtain ⟨n, hn, -, hdescribes⟩ := exists_leaf hnet hparts hi
    exact hdelay n hn p.cell hdescribes.cell

end Parts

end Network

end Netlist
