/-
Connections between containers of leaves, and the leaves behind the ports of such a container. If
all slots hold leaves, then the contract is met in one go: the edges are recorded slot by slot, and
nothing is joined one level down.
-/
import Netlist.Proofs.Circuit.Reordering

namespace Netlist.Circuit

variable {P : Type} {c : Circuit P}

/-! ## Edges and nodes after a change -/

theorem sourcesIn_append (edges edges' : List (NodeId × NodeId)) (n : NodeId) :
    sourcesIn (edges ++ edges') n = sourcesIn edges n ++ sourcesIn edges' n :=
  List.filterMap_append ..

theorem backwardOf_linkAll {edges : List (NodeId × NodeId)} (h : ∀ e ∈ edges, e.2 < c.size) (n : NodeId) :
    (c.linkAll edges).backwardOf n = c.backwardOf n ++ sourcesIn edges n := by
  rw [backwardOf, backwardOf, node?_linkAll]
  cases hn : c.node? n with
  | some node => simp
  | none =>
    have hnone : sourcesIn edges n = [] := by
      refine List.filterMap_eq_nil_iff.2 fun e he => if_neg ?_
      rintro rfl
      obtain ⟨node, hnode⟩ := node?_of_lt (h e he)
      cases hn.symm.trans hnode
    simp [hnone]

theorem backwardOf_addLeaves : ∀ (cells : List Cell) (c : Circuit P) (n : NodeId),
    (c.addLeaves cells).backwardOf n = c.backwardOf n
  | [], _, _ => rfl
  | cell :: cells, c, n => by
    have hleaf : (c.addLeaf cell).1.backwardOf n = c.backwardOf n := backwardOf_push c rfl n
    rw [← hleaf]
    exact backwardOf_addLeaves cells (c.addLeaf cell).1 n

/-! ## Existing ports -/

/-- The ports of a new node may be older nodes or the new one itself. -/
theorem PortsExist.push (hc : c.PortsExist) {node : Node P}
    (h : ∀ m : Nat, m ∈ node.exposed .input ++ node.exposed .output → m ≤ c.size) :
    (c.push node).1.PortsExist := by
  intro found hfound m hm
  have hsize : (c.push node).1.size = c.size + 1 := Array.size_push ..
  rw [hsize]
  rcases Array.mem_push.1 hfound with hfound | rfl
  · exact Nat.lt_succ_of_lt (hc found hfound m hm)
  · exact Nat.lt_succ_of_le (h m hm)

theorem PortsExist.addContainer (hc : c.PortsExist) {inputs outputs : List Port}
    (h : ∀ port ∈ inputs ++ outputs, ∀ m : Nat, m ∈ port.nodes → m < c.size) :
    (c.addContainer inputs outputs).1.PortsExist := by
  refine hc.push fun m hm => ?_
  rcases List.mem_append.1 hm with hm | hm
  · obtain ⟨port, hport, hm⟩ := List.mem_flatMap.1 hm
    exact Nat.le_of_lt (h port (List.mem_append_left _ hport) m hm)
  · obtain ⟨port, hport, hm⟩ := List.mem_flatMap.1 hm
    exact Nat.le_of_lt (h port (List.mem_append_right _ hport) m hm)

theorem PortsExist.addLeaves : ∀ {cells : List Cell} {c : Circuit P}, c.PortsExist →
    (c.addLeaves cells).PortsExist
  | [], _, hc => hc
  | cell :: cells, c, hc => by
    have hleaf : (c.addLeaf cell).1.PortsExist := by
      refine hc.push fun m hm => ?_
      have hself : m = c.size := by simpa [Node.exposed, Node.slots, leafNode, Port.nodes] using hm
      exact Nat.le_of_eq hself
    exact hleaf.addLeaves

/-! ## Connections -/

/-- A pending list of edges is recorded in order. -/
theorem planFrom_link {lenient : Bool} {met : PairSet} : ∀ {edges : List (NodeId × NodeId)} {done : Plan},
    c.planFrom lenient met done (edges.map fun e => .link e.1 e.2) =
      { done with edges := done.edges ++ edges }
  | [], done => by simp [planFrom]
  | e :: edges, done => by
    rw [List.map_cons, planFrom, planFrom_link]
    simp

theorem taskOf_leaves {parent pair : NodeId × NodeId} (h : c.JoinsLeaves pair) :
    c.taskOf parent pair = .ok (some (.link pair.1 pair.2)) := by
  obtain ⟨a, ha⟩ := node?_of_lt (lt_size_of_cell? h.1)
  obtain ⟨b, hb⟩ := node?_of_lt (lt_size_of_cell? h.2)
  rw [taskOf, fetch_eq_ok.2 ha]
  show (if a.isLeaf then _ else _) = _
  rw [if_pos ((isLeaf_eq ha).trans h.1), fetch_eq_ok.2 hb]
  show (if b.isLeaf then _ else _) = _
  rw [if_pos ((isLeaf_eq hb).trans h.2)]
  rfl

section Joined

variable {lenient : Bool} {sender receiver : NodeId} {s r : Node P}

theorem contract_leaves (hs : c.node? sender = some s) (hr : c.node? receiver = some r)
    (houtputs : s.outputs ≠ []) (hinputs : r.inputs ≠ [])
    (hlength : s.outputs.length = r.inputs.length ∨ lenient = true)
    (hleaves : ∀ e ∈ matchedPairs s.outputs r.inputs, c.JoinsLeaves e) :
    c.contract lenient sender receiver =
      .ok ((matchedPairs s.outputs r.inputs).map fun e => .link e.1 e.2) := by
  have htasks : (matchedPairs s.outputs r.inputs).mapM (c.taskOf (sender, receiver)) =
      .ok ((matchedPairs s.outputs r.inputs).map fun e => some (.link e.1 e.2)) :=
    mapM_eq_pure fun e he => taskOf_leaves (hleaves e he)
  have harity : ¬ (s.outputs.length ≠ r.inputs.length ∧ lenient = false) := by
    rintro ⟨hne, hstrict⟩
    rcases hlength with heq | hlenient
    · exact hne heq
    · exact absurd (hlenient.symm.trans hstrict) (by decide)
  rw [contract, fetch_eq_ok.2 hs, fetch_eq_ok.2 hr]
  simp only [bind, Except.bind, List.isEmpty_iff, houtputs, hinputs, if_false, harity, htasks]
  show Except.ok (List.filterMap id (List.map _ _)) = _
  rw [List.filterMap_map]
  exact congrArg Except.ok (congrFun List.filterMap_eq_map' _)

/-- Two nodes whose slots hold leaves are connected without a failure, slot by slot. -/
theorem connect_leaves (hs : c.node? sender = some s) (hr : c.node? receiver = some r)
    (houtputs : s.outputs ≠ []) (hinputs : r.inputs ≠ [])
    (hlength : s.outputs.length = r.inputs.length ∨ lenient = true)
    (hleaves : ∀ e ∈ matchedPairs s.outputs r.inputs, c.JoinsLeaves e) :
    (c.connect sender receiver lenient).complete = .ok (c.linkAll (matchedPairs s.outputs r.inputs)) := by
  have hcontract := contract_leaves hs hr houtputs hinputs hlength hleaves
  -- all tasks of the one contract are edges, so no pair of nodes is left to be met
  have hplan : c.plan sender receiver lenient =
      { edges := (matchedPairs s.outputs r.inputs).toArray, visited := #[(sender, receiver)] } := by
    rw [plan, planFrom_join_of_ok (by simp) hcontract, List.append_nil, planFrom_link]
    simp
  rw [connect, hplan]
  rfl

end Joined

/-! ## Leaves behind ports -/

theorem leavesFrom_leaves {side : Side} : ∀ {leaves : List NodeId} {seen : NodeSet} {found : Array NodeId},
    (∀ n ∈ leaves, (c.cell? n).isSome) → leaves.Nodup → (∀ n ∈ leaves, seen.contains n = false) →
    c.leavesFrom side seen found leaves = .ok (found.toList ++ leaves)
  | [], _, _, _, _, _ => by rw [leavesFrom, List.append_nil]
  | n :: leaves, seen, found, hleaves, hnodup, hseen => by
    obtain ⟨hn, hrest⟩ := List.nodup_cons.1 hnodup
    have hleaf := hleaves n (List.mem_cons_self ..)
    obtain ⟨node, hnode⟩ := node?_of_lt (lt_size_of_cell? hleaf)
    have hfetch := fetch_eq_ok.2 hnode
    have hfresh : ∀ m ∈ leaves, (seen.insert n).contains m = false := fun m hm => by
      rw [NodeSet.contains_insert, hseen m (List.mem_cons_of_mem _ hm), Bool.or_false, beq_eq_false_iff_ne]
      rintro rfl
      exact hn hm
    rw [leavesFrom, dif_neg (by rw [hseen n (List.mem_cons_self ..)]; decide)]
    split
    · next e hfound => cases hfound.symm.trans hfetch
    · next other hfound =>
      rw [Except.ok.inj (hfound.symm.trans hfetch), if_pos ((isLeaf_eq hnode).trans hleaf),
        leavesFrom_leaves (fun m hm => hleaves m (List.mem_cons_of_mem _ hm)) hrest hfresh]
      simp

/-- A port of leaves leads to these leaves. -/
theorem leavesBehind_leaves (side : Side) {leaves : List NodeId} (h : ∀ n ∈ leaves, (c.cell? n).isSome)
    (hnodup : leaves.Nodup) : c.leavesBehind side leaves = .ok leaves :=
  leavesFrom_leaves h hnodup fun _ _ => NodeSet.contains_empty _

/-- Slots of single leaves lead to these leaves. -/
theorem slotLeaves_single {side : Side} {n : NodeId} {node : Node P} (hn : c.node? n = some node)
    {leaves : List NodeId} (hslots : node.slots side = leaves.map .single)
    (hleaves : ∀ m ∈ leaves, (c.cell? m).isSome) : c.slotLeaves side n = .ok (leaves.map ([·])) := by
  rw [slotLeaves, fetch_eq_ok.2 hn]
  show (node.slots side).mapM (fun port => c.leavesBehind side port.nodes) = _
  rw [hslots, List.mapM_map]
  refine mapM_eq_pure fun m hm => ?_
  have hm := hleaves m hm
  exact leavesBehind_leaves side (by simpa [Port.nodes] using hm) (List.nodup_singleton m)

/-! ## Pins -/

theorem isPinned_markPinned {n m : NodeId} : (c.markPinned n).isPinned m = true ↔
    c.isPinned m = true ∨ (m = n ∧ m < c.size) := by
  rw [isPinned, isPinned, markPinned, node?_modify]
  by_cases hm : m < c.size
  · obtain ⟨node, hnode⟩ := node?_of_lt hm
    by_cases hn : n = m
    · subst hn
      simp [hnode, hm]
    · simp [hnode, hn, Ne.symm hn]
  · have hnone : c.node? m = none := Array.getElem?_eq_none (Nat.le_of_not_lt hm)
    simp [hnone, hm]

/-- Exactly the nodes of the list are pinned in addition. -/
theorem isPinned_foldl_markPinned {m : NodeId} : ∀ {ns : List NodeId} {c : Circuit P},
    (ns.foldl markPinned c).isPinned m = true ↔ c.isPinned m = true ∨ (m ∈ ns ∧ m < c.size)
  | [], c => by simp
  | n :: ns, c => by
    rw [List.foldl_cons, isPinned_foldl_markPinned, isPinned_markPinned, markPinned, size_modify]
    simp only [List.mem_cons]
    tauto

end Netlist.Circuit
