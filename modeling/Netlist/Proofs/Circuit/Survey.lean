/-
What a survey lists. If the ports of a circuit exist, the survey succeeds; it lists every node at
most once, and every neighbour of a listed node is listed too or was cut off.
-/
import Mathlib.Data.List.Nodup
import Netlist.Proofs.Circuit.Built

namespace Netlist

variable {P : Type}

/-! ## Listed nodes -/

/-- A node that a survey has entered. -/
def Survey.Lists (found : Survey) (n : NodeId) : Prop := n ∈ found.leaves ∨ n ∈ found.containers

/-- A node that the budget has cut off. -/
def Survey.Cuts (found : Survey) (n : NodeId) : Prop :=
  ∃ maxDepth, .depthExhausted n maxDepth ∈ found.diagnostics

theorem Survey.lists_list {found : Survey} {n : NodeId} {node : Node P} {m : NodeId} :
    (found.list n node).Lists m ↔ m = n ∨ found.Lists m := by
  unfold list Lists
  split <;> simp <;> tauto

theorem Survey.Cuts.list {found : Survey} {m : NodeId} (h : found.Cuts m) (n : NodeId)
    (node : Node P) : (found.list n node).Cuts m := by
  obtain ⟨d, hd⟩ := h
  unfold Survey.list
  split <;> exact ⟨d, hd⟩

theorem Survey.cuts_cut {found : Survey} {n : NodeId} {maxDepth : Nat} {m : NodeId} :
    (found.cut n maxDepth).Cuts m ↔ m = n ∨ found.Cuts m := by
  unfold cut Cuts
  simp only [Array.mem_push]
  constructor
  · rintro ⟨d, hd | hd⟩
    · exact Or.inr ⟨d, hd⟩
    · cases hd
      exact Or.inl rfl
  · rintro (rfl | ⟨d, hd⟩)
    · exact ⟨maxDepth, Or.inr rfl⟩
    · exact ⟨d, Or.inl hd⟩

/-- A node that a survey has listed or cut off, or will still visit. -/
def Survey.Meets (found : Survey) (stack : List (List NodeId)) (m : NodeId) : Prop :=
  found.Lists m ∨ found.Cuts m ∨ ∃ frame ∈ stack, m ∈ frame

theorem nodup_push {α : Type} {as : Array α} {a : α} (h : as.toList.Nodup) (ha : a ∉ as) :
    (as.push a).toList.Nodup := by
  rw [Array.toList_push, ← List.concat_eq_append]
  exact h.concat fun hmem => ha (Array.mem_def.2 hmem)

section Meets

variable {found : Survey} {n m : NodeId} {siblings : List NodeId} {below stack : List (List NodeId)}

theorem Survey.meets_leave :
    found.Meets ([] :: below) m ↔ found.Meets below m := by
  simp [Meets]

theorem Survey.meets_next :
    found.Meets ((n :: siblings) :: below) m ↔ m = n ∨ found.Meets (siblings :: below) m := by
  simp only [Meets, List.mem_cons, or_and_right, exists_or, exists_eq_left]
  tauto

theorem Survey.meets_cut (maxDepth : Nat) :
    (found.cut n maxDepth).Meets stack m ↔ m = n ∨ found.Meets stack m := by
  have hlists : (found.cut n maxDepth).Lists m ↔ found.Lists m := Iff.rfl
  rw [Meets, Meets, hlists, cuts_cut]
  tauto

theorem Survey.meets_list {node : Node P} (h : m = n ∨ found.Meets stack m) (frame : List NodeId) :
    (found.list n node).Meets (frame :: stack) m := by
  rw [Meets, lists_list]
  rcases h with rfl | hl | hcut | ⟨f, hf, hm⟩
  · exact Or.inl (Or.inl rfl)
  · exact Or.inl (Or.inr hl)
  · exact Or.inr (Or.inl (hcut.list n node))
  · exact Or.inr (Or.inr ⟨f, List.mem_cons_of_mem _ hf, hm⟩)

end Meets

namespace Circuit

/-! ## Existing neighbours -/

/-- The ports of all nodes are nodes of the circuit. -/
def PortsExist (c : Circuit P) : Prop :=
  ∀ node ∈ c.nodes, ∀ m ∈ node.exposed .input ++ node.exposed .output, m < c.size

instance (c : Circuit P) : Decidable c.PortsExist :=
  inferInstanceAs (Decidable (∀ node ∈ c.nodes, ∀ m ∈ node.exposed .input ++ node.exposed .output,
    m < c.size))

/-- A node with an edge exists, because the edge is recorded on it. -/
theorem Mirrored.lt_size {c : Circuit P} (hc : c.Mirrored) {a b : NodeId} (h : b ∈ c.forwardOf a) :
    a < c.size ∧ b < c.size := by
  have hnone : ∀ n, ¬ n < c.size → c.node? n = none := fun n hn =>
    Array.getElem?_eq_none (Nat.le_of_not_lt hn)
  have hback := hc.mem_backwardOf.2 h
  constructor
  · by_contra ha
    rw [forwardOf, hnone a ha] at h
    cases h
  · by_contra hb
    rw [backwardOf, hnone b hb] at hback
    cases hback

theorem neighbours_lt {c : Circuit P} (hports : c.PortsExist) (hc : c.Mirrored) {n : NodeId}
    {node : Node P} (hn : c.node? n = some node) {m : NodeId} (hm : m ∈ node.neighbours) :
    m < c.size := by
  rw [Node.neighbours, List.append_assoc, List.mem_append] at hm
  rcases hm with hm | hm
  · exact hports node (Array.mem_of_getElem? hn) m hm
  · rcases List.mem_append.1 hm with hm | hm
    · have hforward : m ∈ c.forwardOf n := by simpa [forwardOf, hn] using hm
      exact (hc.lt_size hforward).2
    · have hbackward : m ∈ c.backwardOf n := by simpa [backwardOf, hn] using hm
      exact (hc.lt_size (hc.mem_backwardOf.1 hbackward)).1

/-! ## One step of a survey -/

section Step

variable {c : Circuit P} {maxDepth depth : Nat} {seen : NodeSet} {found : Survey} {n : NodeId}
  {siblings : List NodeId} {below : List (List NodeId)}

theorem surveyFrom_nil (hdepth : depth = [].length) : c.surveyFrom maxDepth seen found [] depth hdepth = .ok found := by
  subst hdepth
  rw [surveyFrom]

theorem surveyFrom_leave (hdepth : depth = ([] :: below).length) :
    c.surveyFrom maxDepth seen found ([] :: below) depth hdepth =
      c.surveyFrom maxDepth seen found below (depth - 1) (Nat.sub_eq_of_eq_add hdepth) := by
  subst hdepth
  rw [surveyFrom]

theorem surveyFrom_of_seen (hdepth : depth = ((n :: siblings) :: below).length) (hn : seen.contains n = true) :
    c.surveyFrom maxDepth seen found ((n :: siblings) :: below) depth hdepth =
      c.surveyFrom maxDepth seen found (siblings :: below) depth hdepth := by
  subst hdepth
  rw [surveyFrom, dif_pos hn]

theorem surveyFrom_of_deep (hdepth : depth = ((n :: siblings) :: below).length) (hn : ¬ seen.contains n = true)
    (hbudget : maxDepth ≤ depth) : c.surveyFrom maxDepth seen found ((n :: siblings) :: below) depth hdepth =
      c.surveyFrom maxDepth seen (found.cut n maxDepth) (siblings :: below) depth hdepth := by
  subst hdepth
  rw [surveyFrom, dif_neg hn, if_pos hbudget]

theorem surveyFrom_of_fresh (hdepth : depth = ((n :: siblings) :: below).length) (hn : ¬ seen.contains n = true)
    (hbudget : ¬ maxDepth ≤ depth) {node : Node P} (hnode : c.fetch n = .ok node) :
    c.surveyFrom maxDepth seen found ((n :: siblings) :: below) depth hdepth =
      c.surveyFrom maxDepth (seen.insert n) (found.list n node) (node.neighbours :: siblings :: below) (depth + 1)
        (congrArg (· + 1) hdepth) := by
  subst hdepth
  rw [surveyFrom, dif_neg hn, if_neg hbudget]
  split
  · next e he => cases he.symm.trans hnode
  · next found hfound =>
    cases hfound.symm.trans hnode
    rfl

end Step

/-- A survey fails only at a node that does not exist. -/
theorem surveyFrom_eq_ok {c : Circuit P} (hports : c.PortsExist) (hc : c.Mirrored) (maxDepth : Nat)
    (seen : NodeSet) (found : Survey) (stack : List (List NodeId)) (depth : Nat) (hdepth : depth = stack.length)
    (hstack : ∀ frame ∈ stack, ∀ m ∈ frame, m < c.size) :
    ∃ found', c.surveyFrom maxDepth seen found stack depth hdepth = .ok found' := by
  fun_induction surveyFrom c maxDepth seen found stack depth hdepth with
  | case1 seen found => exact ⟨found, rfl⟩
  | case2 seen found below _ ih => exact ih fun frame hframe => hstack frame (List.mem_cons_of_mem _ hframe)
  | case3 seen found n siblings below _ _ ih =>
    simp only [List.forall_mem_cons] at hstack ih
    exact ih ⟨hstack.1.2, hstack.2⟩
  | case4 seen found n siblings below _ _ _ ih =>
    simp only [List.forall_mem_cons] at hstack ih
    exact ih ⟨hstack.1.2, hstack.2⟩
  | case5 seen found n siblings below _ e he _ _ =>
    simp only [List.forall_mem_cons] at hstack
    obtain ⟨node, hnode⟩ := node?_of_lt hstack.1.1
    rw [fetch_eq_ok.2 hnode] at he
    cases he
  | case6 seen found n siblings below _ node hnode _ _ ih =>
    simp only [List.forall_mem_cons] at hstack ih
    exact ih ⟨fun m => neighbours_lt hports hc (fetch_eq_ok.1 hnode), hstack.1.2, hstack.2⟩

/-! ## The survey so far -/

/-- What holds while a survey walks: the listed nodes are those seen, each once, and it meets their
neighbours. -/
structure Surveying (c : Circuit P) (seen : NodeSet) (found : Survey)
    (stack : List (List NodeId)) : Prop where
  seen : ∀ n, seen.contains n = true ↔ found.Lists n
  nodup : found.leaves.toList.Nodup
  leaf : ∀ n ∈ found.leaves, (c.cell? n).isSome
  container : ∀ n ∈ found.containers, c.cell? n = none
  next : ∀ n node, found.Lists n → c.node? n = some node → ∀ m ∈ node.neighbours, found.Meets stack m

namespace Surveying

variable {c : Circuit P} {seen : NodeSet} {found : Survey} {below : List (List NodeId)} {n : NodeId}
  {siblings : List NodeId}

theorem leave (h : Surveying c seen found ([] :: below)) : Surveying c seen found below := by
  refine ⟨h.seen, h.nodup, h.leaf, h.container, ?_⟩
  intro m node hm hnode k hk
  exact Survey.meets_leave.1 (h.next m node hm hnode k hk)

theorem skip (h : Surveying c seen found ((n :: siblings) :: below)) (hn : seen.contains n = true) :
    Surveying c seen found (siblings :: below) := by
  refine ⟨h.seen, h.nodup, h.leaf, h.container, ?_⟩
  intro m node hm hnode k hk
  rcases Survey.meets_next.1 (h.next m node hm hnode k hk) with rfl | hk
  · exact Or.inl ((h.seen _).1 hn)
  · exact hk

theorem cut (h : Surveying c seen found ((n :: siblings) :: below)) (maxDepth : Nat) :
    Surveying c seen (found.cut n maxDepth) (siblings :: below) := by
  refine ⟨h.seen, h.nodup, h.leaf, h.container, ?_⟩
  intro m node hm hnode k hk
  exact (Survey.meets_cut maxDepth).2 (Survey.meets_next.1 (h.next m node hm hnode k hk))

/-- A fresh neighbour is listed, and its own neighbours are visited next. -/
theorem enter (h : Surveying c seen found ((n :: siblings) :: below))
    (hn : ¬ seen.contains n = true) {node : Node P} (hnode : c.node? n = some node) :
    Surveying c (seen.insert n) (found.list n node) (node.neighbours :: siblings :: below) := by
  refine ⟨?_, ?_, ?_, ?_, ?_⟩
  · intro m
    rw [NodeSet.contains_insert, Survey.lists_list, ← h.seen]
    simp
  · -- a node is listed when it is marked as seen, so a fresh node is not in the list
    unfold Survey.list
    split
    · exact nodup_push h.nodup fun hm => hn ((h.seen n).2 (Or.inl hm))
    · exact h.nodup
  · intro m hm
    unfold Survey.list at hm
    split at hm
    · next hleaf =>
      rcases Array.mem_push.1 hm with hm | rfl
      · exact h.leaf m hm
      · exact isLeaf_eq hnode ▸ hleaf
    · exact h.leaf m hm
  · intro m hm
    unfold Survey.list at hm
    split at hm
    · exact h.container m hm
    · next hleaf =>
      rcases Array.mem_push.1 hm with hm | rfl
      · exact h.container m hm
      · simpa [isLeaf_eq hnode] using hleaf
  · intro m other hm hother k hk
    rcases Survey.lists_list.1 hm with rfl | hm
    · obtain rfl : node = other := Option.some.inj (hnode.symm.trans hother)
      exact Or.inr (Or.inr ⟨_, List.mem_cons_self .., hk⟩)
    · exact Survey.meets_list (Survey.meets_next.1 (h.next m other hm hother k hk)) _

end Surveying

theorem surveying_start (c : Circuit P) (root : NodeId) : Surveying c {} {} [[root]] :=
  ⟨fun n => by simp [Survey.Lists], by simp, by simp, by simp, fun n node hn => by simp [Survey.Lists] at hn⟩

/-- The invariant holds to the end of a survey, when nothing is left to visit. -/
theorem surveying_surveyFrom {c : Circuit P} {maxDepth : Nat} {seen : NodeSet} {found found' : Survey}
    {stack : List (List NodeId)} {depth : Nat} {hdepth : depth = stack.length} (h : Surveying c seen found stack)
    (h' : c.surveyFrom maxDepth seen found stack depth hdepth = .ok found') :
    ∃ seen', Surveying c seen' found' [] := by
  fun_induction surveyFrom c maxDepth seen found stack depth hdepth with
  | case1 seen found =>
    cases h'
    exact ⟨seen, h⟩
  | case2 seen found below _ ih => exact ih h.leave h'
  | case3 seen found n siblings below hn _ ih => exact ih (h.skip hn) h'
  | case4 seen found n siblings below _ _ _ ih => exact ih (h.cut maxDepth) h'
  | case5 => cases h'
  | case6 seen found n siblings below hn node hnode _ _ ih =>
    exact ih (h.enter hn (fetch_eq_ok.1 hnode)) h'

/-! ## Surveys -/

/-- A finished survey: its leaves and containers, each leaf once, and with them all neighbours that
were not cut off. -/
structure Surveyed (c : Circuit P) (found : Survey) : Prop where
  nodup : found.leaves.toList.Nodup
  leaf : ∀ n ∈ found.leaves, (c.cell? n).isSome
  container : ∀ n ∈ found.containers, c.cell? n = none
  next : ∀ n node, found.Lists n → c.node? n = some node → ∀ m ∈ node.neighbours,
    found.Lists m ∨ found.Cuts m

theorem Surveyed.mem_leaves {c : Circuit P} {found : Survey} (h : c.Surveyed found) {n : NodeId}
    (hn : found.Lists n) (hleaf : (c.cell? n).isSome) : n ∈ found.leaves := by
  rcases hn with hn | hn
  · exact hn
  · rw [h.container n hn] at hleaf
    cases hleaf

/-- Every survey that succeeds is finished. -/
theorem surveyed_of_eq_ok {c : Circuit P} {root : NodeId} {maxDepth : Nat} {found : Survey}
    (h : c.survey root maxDepth = .ok found) : c.Surveyed found := by
  obtain ⟨seen, h⟩ := surveying_surveyFrom (surveying_start c root) h
  refine ⟨h.nodup, h.leaf, h.container, fun n node hn hnode m hm => ?_⟩
  simpa [Survey.Meets] using h.next n node hn hnode m hm

theorem survey_eq_ok {c : Circuit P} (hports : c.PortsExist) (hc : c.Mirrored) {root : NodeId}
    (hroot : root < c.size) (maxDepth : Nat) :
    ∃ found, c.survey root maxDepth = .ok found ∧ c.Surveyed found := by
  obtain ⟨found, hfound⟩ := surveyFrom_eq_ok hports hc maxDepth {} {} [[root]] 1 rfl (by simpa using hroot)
  exact ⟨found, hfound, surveyed_of_eq_ok hfound⟩

end Circuit

end Netlist
