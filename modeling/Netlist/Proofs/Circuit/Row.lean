/-
Surveys of circuits whose leaves are in a row. From each leaf but the last one the walk goes on to the
next one before it comes to any later leaf, so it goes down the whole row and lists the leaves in
their order. On its way back it meets nothing but what it has listed.
-/
import Netlist.Proofs.Circuit.Recursion

namespace Netlist.Circuit

variable {P : Type} {c : Circuit P} {maxDepth depth : Nat} {w : Walk}

/-! ## Several visits -/

theorem visitAll_append {ns ns' : List NodeId} :
    c.visitAll maxDepth depth w (ns ++ ns') = c.visitAll maxDepth depth w ns >>= (c.visitAll maxDepth depth · ns') :=
  List.foldlM_append

/-- Nodes that were met before are passed over. -/
theorem visitAll_of_seen : ∀ {ns : List NodeId}, (∀ m ∈ ns, w.seen.contains m = true) →
    c.visitAll maxDepth depth w ns = .ok w
  | [], _ => rfl
  | n :: ns, h => by
    rw [visitAll_cons, visit_of_seen (h n (List.mem_cons_self ..))]
    exact visitAll_of_seen fun m hm => h m (List.mem_cons_of_mem _ hm)

/-! ## Down a row -/

/-- The first nodes are leaves in a row: nothing else is next to them, and the next one comes before the
later ones. -/
def Row (c : Circuit P) (count : Nat) : Prop := ∀ k < count, ∃ node, c.node? k = some node ∧ node.isLeaf = true ∧
  (∀ m ∈ node.neighbours, m < count) ∧
  (k + 1 < count → ∃ front back : List Nat, node.neighbours = front ++ (k + 1) :: back ∧ ∀ m ∈ front, m ≤ k)

/-- Of the leaves in a row the first ones have been met. -/
def Walk.Met (w : Walk) (count k : Nat) : Prop := ∀ m < count, w.seen.contains m = true ↔ m < k

variable {count k : Nat}

theorem Walk.Met.enter (h : w.Met count k) (node : Node P) : (w.enter k node).Met count (k + 1) := by
  intro m hm
  rw [Walk.enter, NodeSet.contains_insert, Bool.or_eq_true, beq_iff_eq, h m hm]
  omega

theorem leaves_enter {node : Node P} (hleaf : node.isLeaf = true) (w : Walk) (n : NodeId) :
    (w.enter n node).found.leaves.toList = w.found.leaves.toList ++ [n] := by
  rw [Walk.enter, Survey.list, if_pos hleaf, Array.toList_push]

theorem Walk.Met.visit (h : w.Met count k) (hk : k < count) (hdepth : depth < maxDepth) {node : Node P}
    (hnode : c.node? k = some node) :
    c.visit maxDepth depth w k = c.visitAll maxDepth (depth + 1) (w.enter k node) node.neighbours := by
  have hfresh : ¬ w.seen.contains k = true := by
    rw [h k hk]
    exact Nat.lt_irrefl k
  rw [visit_of_fresh hfresh (Nat.not_le_of_lt hdepth), fetch_eq_ok.2 hnode]
  rfl

/-- From a leaf of a row the walk lists this one and the rest of the row. -/
theorem visit_row (h : c.Row count) (maxDepth : Nat) : ∀ (rest k depth : Nat) (w : Walk), k + (rest + 1) = count →
    depth + rest < maxDepth → w.Met count k → ∃ w', c.visit maxDepth depth w k = .ok w' ∧ w'.Met count count ∧
      w'.found.leaves.toList = w.found.leaves.toList ++ List.range' k (rest + 1) := by
  intro rest
  induction rest with
  | zero =>
    intro k depth w hlast hdepth hmet
    have hk : k < count := by omega
    obtain ⟨node, hnode, hleaf, hwithin, -⟩ := h k hk
    have hmet' : (w.enter k node).Met count count := hlast ▸ hmet.enter node
    refine ⟨w.enter k node, ?_, hmet', leaves_enter hleaf w k⟩
    rw [hmet.visit hk (Nat.lt_of_add_right_lt hdepth) hnode]
    exact visitAll_of_seen fun m hm => (hmet' m (hwithin m hm)).2 (hwithin m hm)
  | succ rest ih =>
    intro k depth w hlast hdepth hmet
    have hk : k < count := by omega
    obtain ⟨node, hnode, hleaf, hwithin, hnext⟩ := h k hk
    obtain ⟨front, back, hneighbours, hfront⟩ := hnext (by omega)
    have hmet' := hmet.enter node
    obtain ⟨w', hvisit, hall, hleaves⟩ := ih (k + 1) (depth + 1) _ (by omega) (by omega) hmet'
    have hpassed : c.visitAll maxDepth (depth + 1) (w.enter k node) front = .ok (w.enter k node) := by
      refine visitAll_of_seen fun m hm => (hmet' m ?_).2 (Nat.lt_succ_of_le (hfront m hm))
      exact hwithin m (by simp [hneighbours, hm])
    have hback : c.visitAll maxDepth (depth + 1) w' back = .ok w' := by
      refine visitAll_of_seen fun m hm => ?_
      have hm : m < count := hwithin m (by simp [hneighbours, hm])
      exact (hall m hm).2 hm
    refine ⟨w', ?_, hall, ?_⟩
    · rw [hmet.visit hk (by omega) hnode, hneighbours, visitAll_append, hpassed]
      show c.visitAll maxDepth (depth + 1) (w.enter k node) ((k + 1) :: back) = .ok w'
      rw [visitAll_cons, hvisit]
      exact hback
    · rw [hleaves, leaves_enter hleaf, List.append_assoc]
      rfl

/-- A survey from a container in front of a row lists the leaves in their order. -/
theorem survey_row (h : c.Row count) {root : NodeId} {node : Node P} (hroot : c.node? root = some node)
    (hcontainer : node.isLeaf = false) {rest : List NodeId} (hneighbours : node.neighbours = 0 :: rest)
    (hrest : ∀ m ∈ rest, m < count) (hcount : 0 < count) (hbudget : count + 1 < maxDepth) :
    (c.survey root maxDepth).map (·.leaves.toList) = .ok (List.range count) := by
  have hmet : (Walk.enter {} root node).Met count 0 := by
    intro m hm
    obtain ⟨leaf, hleaf, hkind, -⟩ := h m hm
    have hne : m ≠ root := by
      rintro rfl
      cases hroot.symm.trans hleaf
      cases hcontainer.symm.trans hkind
    simp [Walk.enter, hne]
  obtain ⟨w, hvisit, hall, hleaves⟩ :=
    visit_row h maxDepth (count - 1) 0 2 _ (by omega) (by omega) hmet
  have hfresh : ¬ ({} : Walk).seen.contains root = true := by simp
  have hback : c.visitAll maxDepth 2 w rest = .ok w :=
    visitAll_of_seen fun m hm => (hall m (hrest m hm)).2 (hrest m hm)
  have hall : c.visit maxDepth 1 {} root = .ok w := by
    rw [visit_of_fresh hfresh (by omega), fetch_eq_ok.2 hroot]
    show c.visitAll maxDepth 2 (Walk.enter {} root node) node.neighbours = .ok w
    rw [hneighbours, visitAll_cons, hvisit]
    exact hback
  rw [survey_eq_visit, hall]
  show Except.ok w.found.leaves.toList = _
  rw [hleaves, Nat.sub_add_cancel hcount, ← List.range_eq_range']
  simp [Walk.enter, Survey.list, hcontainer]

end Netlist.Circuit
