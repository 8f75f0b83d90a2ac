/-
What is left of the edges of a network when some of its nodes go. However they are removed, by a
restriction or node by node, every remaining node keeps its edges to and from remaining nodes, in
order, and a removed node has none.
-/
import Netlist.Circuit.Basic
import Netlist.Network.Basic

namespace Netlist

variable {P : Type}

namespace Wires

/-! ## Looking at changed lists -/

theorem getD_modify {lists : Array (List NodeId)} {f : List NodeId → List NodeId} (hf : f [] = [])
    (i m : NodeId) : (lists.modify i f).getD m [] =
      if m = i then f (lists.getD m []) else lists.getD m [] := by
  simp only [Array.getD_eq_getD_getElem?, Array.getElem?_modify]
  by_cases h : m = i
  · subst h
    cases lists[m]? <;> simp [hf]
  · simp [h, Ne.symm h]

theorem getD_erase (n m : NodeId) : ∀ (holders : List NodeId) (lists : Array (List NodeId)),
    (erase lists n holders).getD m [] =
      if m ∈ holders then (lists.getD m []).filter (· != n) else lists.getD m []
  | [], lists => by simp [erase]
  | k :: holders, lists => by
    have ih := getD_erase n m holders (lists.modify k (·.filter (· != n)))
    rw [getD_modify (by simp)] at ih
    change (erase (lists.modify k (·.filter (· != n))) n holders).getD m [] = _
    rw [ih]
    by_cases hk : m = k <;> by_cases hm : m ∈ holders <;> simp [hk, hm]

theorem getD_mapIdx {lists : Array (List NodeId)} {f : NodeId → List NodeId → List NodeId}
    (hf : ∀ n, f n [] = []) (n : NodeId) : (lists.mapIdx f).getD n [] = f n (lists.getD n []) := by
  simp only [Array.getD_eq_getD_getElem?, Array.getElem?_mapIdx]
  cases lists[n]? <;> simp [hf]

@[simp] theorem targets_ofCircuit (c : Circuit P) (n : NodeId) :
    (ofCircuit c).targets n = c.forwardOf n := by
  simp only [targets, ofCircuit, Circuit.forwardOf, Circuit.node?, Array.getD_eq_getD_getElem?,
    Array.getElem?_map]

@[simp] theorem sources_ofCircuit (c : Circuit P) (n : NodeId) :
    (ofCircuit c).sources n = c.backwardOf n := by
  simp only [sources, ofCircuit, Circuit.backwardOf, Circuit.node?, Array.getD_eq_getD_getElem?,
    Array.getElem?_map]

/-! ## Edges on both ends -/

/-- Every edge has the same multiplicity on both of its ends. -/
def Mirror (w : Wires) : Prop := ∀ a b, (w.targets a).count b = (w.sources b).count a

theorem Mirror.mem_iff {w : Wires} (h : w.Mirror) {a b : NodeId} :
    a ∈ w.sources b ↔ b ∈ w.targets a := by
  rw [← List.count_pos_iff, ← List.count_pos_iff, h]

/-! ## Restrictions -/

/-- `w'` has the edges of `w` between the nodes in `keep`. -/
structure Restricts (w : Wires) (keep : NodeId → Bool) (w' : Wires) : Prop where
  targets : ∀ n, w'.targets n = if keep n then (w.targets n).filter keep else []
  sources : ∀ n, w'.sources n = if keep n then (w.sources n).filter keep else []

theorem restricts_restrict (w : Wires) (keep : NodeId → Bool) : w.Restricts keep (w.restrict keep) :=
  ⟨getD_mapIdx fun n => by simp, getD_mapIdx fun n => by simp⟩

namespace Restricts

variable {w w' w'' : Wires} {keep keep' : NodeId → Bool}

theorem refl (w : Wires) : w.Restricts (fun _ => true) w :=
  ⟨fun _ => (List.filter_eq_self.2 fun _ _ => rfl).symm,
    fun _ => (List.filter_eq_self.2 fun _ _ => rfl).symm⟩

theorem trans (h : w.Restricts keep w') (h' : w'.Restricts keep' w'') :
    w.Restricts (fun n => keep n && keep' n) w'' := by
  refine ⟨fun n => ?_, fun n => ?_⟩
  · rw [h'.targets, h.targets]
    cases keep n <;> simp [List.filter_filter, Bool.and_comm]
  · rw [h'.sources, h.sources]
    cases keep n <;> simp [List.filter_filter, Bool.and_comm]

/-- Only the nodes that have edges matter. -/
theorem congr (h : w.Restricts keep w') (hw : w.Mirror)
    (heq : ∀ a b, b ∈ w.targets a → keep a = keep' a ∧ keep b = keep' b) : w.Restricts keep' w' := by
  refine ⟨fun n => ?_, fun n => ?_⟩
  · rw [h.targets]
    cases hn : w.targets n with
    | nil => simp
    | cons m rest =>
      have hmem : ∀ b ∈ m :: rest, keep n = keep' n ∧ keep b = keep' b := fun b hb => heq n b (hn ▸ hb)
      rw [(hmem m (List.mem_cons_self ..)).1, List.filter_congr fun b hb => (hmem b hb).2]
  · rw [h.sources]
    cases hn : w.sources n with
    | nil => simp
    | cons m rest =>
      have hmem : ∀ b ∈ m :: rest, keep b = keep' b ∧ keep n = keep' n := fun b hb =>
        heq b n (hw.mem_iff.1 (hn ▸ hb))
      rw [(hmem m (List.mem_cons_self ..)).2, List.filter_congr fun b hb => (hmem b hb).1]

theorem mirror (h : w.Restricts keep w') (hw : w.Mirror) : w'.Mirror := by
  intro a b
  have hcount : ∀ (x : NodeId) (l : List NodeId), keep x = false → (l.filter keep).count x = 0 :=
    fun x l hx => List.count_eq_zero.2 fun hmem => by simp [hx] at hmem
  rw [h.targets, h.sources]
  cases ha : keep a with
  | false => cases hb : keep b <;> simp [hcount a _ ha]
  | true =>
    cases hb : keep b with
    | false => simp [hcount b _ hb]
    | true => simp [List.count_filter, ha, hb, hw a b]

theorem mem_targets (h : w.Restricts keep w') {a b : NodeId} :
    b ∈ w'.targets a ↔ b ∈ w.targets a ∧ keep a = true ∧ keep b = true := by
  rw [h.targets]
  cases keep a <;> simp

/-- An edge keeps its multiplicity if both of its ends remain. -/
theorem count_targets (h : w.Restricts keep w') {a b : NodeId}
    (hkeep : b ∈ w.targets a → keep a = true ∧ keep b = true) :
    (w'.targets a).count b = (w.targets a).count b := by
  by_cases hab : b ∈ w.targets a
  · obtain ⟨ha, hb⟩ := hkeep hab
    rw [h.targets, if_pos ha, List.count_filter hb]
  · have hab' : b ∉ w'.targets a := fun hmem => hab (h.mem_targets.1 hmem).1
    rw [List.count_eq_zero.2 hab, List.count_eq_zero.2 hab']

/-- If the sources of the remaining nodes remain, then they keep all of their sources. -/
theorem sources_eq (h : w.Restricts keep w') {n : NodeId} (hn : keep n = true)
    (hsources : ∀ m ∈ w.sources n, keep m = true) : w'.sources n = w.sources n := by
  rw [h.sources, if_pos hn, List.filter_eq_self.2 hsources]

end Restricts

/-! ## Removing nodes -/

theorem targets_detachSources (w : Wires) (n m : NodeId) : (w.detachSources n).targets m =
    if m ∈ w.sources n then (w.targets m).filter (· != n) else w.targets m :=
  getD_erase n m _ _

theorem sources_detachSources (w : Wires) (n m : NodeId) :
    (w.detachSources n).sources m = if m = n then [] else w.sources m :=
  getD_modify rfl n m

theorem targets_detachTargets (w : Wires) (n m : NodeId) :
    (w.detachTargets n).targets m = if m = n then [] else w.targets m :=
  getD_modify rfl n m

theorem sources_detachTargets (w : Wires) (n m : NodeId) : (w.detachTargets n).sources m =
    if m ∈ w.targets n then (w.sources m).filter (· != n) else w.sources m :=
  getD_erase n m _ _

variable {w : Wires}

/-- A node is erased from all lists of targets once its sources are detached. -/
theorem Mirror.targets_detachSources (hw : w.Mirror) (n m : NodeId) :
    (w.detachSources n).targets m = (w.targets m).filter (· != n) := by
  rw [Wires.targets_detachSources]
  split
  · rfl
  · next hm =>
    rw [List.filter_eq_self.2]
    intro k hk
    simpa using fun heq : k = n => hm (hw.mem_iff.2 (heq ▸ hk))

/-- A node that feeds nothing is gone once its sources are detached. -/
theorem restricts_detachSources (hw : w.Mirror) {n : NodeId} (hn : w.targets n = []) :
    w.Restricts (· != n) (w.detachSources n) := by
  refine ⟨fun m => ?_, fun m => ?_⟩
  · rw [hw.targets_detachSources]
    by_cases hm : m = n
    · simp [hm, hn]
    · simp [hm]
  · rw [sources_detachSources]
    by_cases hm : m = n
    · simp [hm]
    · -- the node feeds nothing, so it is nowhere among the sources
      have hfresh : ∀ k ∈ w.sources m, (k != n) = true := by
        intro k hk
        rw [bne_iff_ne]
        rintro rfl
        simpa [hn] using hw.mem_iff.1 hk
      simp [hm, List.filter_eq_self.2 hfresh]

theorem restricts_detach (hw : w.Mirror) (n : NodeId) : w.Restricts (· != n) (w.detach n) := by
  refine ⟨fun m => ?_, fun m => ?_⟩
  · rw [detach, targets_detachTargets, hw.targets_detachSources]
    by_cases hm : m = n <;> simp [hm]
  · rw [detach, sources_detachTargets, hw.targets_detachSources, sources_detachSources]
    by_cases hm : m = n
    · simp [hm]
    · by_cases hmem : m ∈ w.targets n
      · simp [hm, hmem]
      · have hfresh : ∀ k ∈ w.sources m, (k != n) = true := by
          intro k hk
          rw [bne_iff_ne]
          rintro rfl
          exact hmem (hw.mem_iff.1 hk)
        simp [hm, hmem, List.filter_eq_self.2 hfresh]

theorem restricts_detachAll : ∀ {w : Wires}, w.Mirror → ∀ ns : List NodeId,
    w.Restricts (!ns.contains ·) (w.detachAll ns)
  | w, _, [] => .refl w
  | w, hw, n :: ns => by
    have hfirst := restricts_detach hw n
    have hrest := restricts_detachAll (hfirst.mirror hw) ns
    refine (hfirst.trans hrest).congr hw fun a b _ => ?_
    simp [bne, Bool.beq_eq_decide_eq]

/-! ## The order of removals -/

theorem size_erase (n : NodeId) : ∀ (holders : List NodeId) (lists : Array (List NodeId)),
    (erase lists n holders).size = lists.size
  | [], _ => rfl
  | m :: holders, lists => (size_erase n holders (lists.modify m _)).trans Array.size_modify

theorem size_detachSources (w : Wires) (n : NodeId) : (w.detachSources n).forward.size = w.forward.size ∧
    (w.detachSources n).backward.size = w.backward.size :=
  ⟨size_erase n _ _, Array.size_modify⟩

theorem size_detachAll : ∀ (ns : List NodeId) (w : Wires),
    (w.detachAll ns).forward.size = w.forward.size ∧ (w.detachAll ns).backward.size = w.backward.size
  | [], _ => ⟨rfl, rfl⟩
  | n :: ns, w => by
    obtain ⟨hforward, hbackward⟩ := size_detachAll ns (w.detach n)
    constructor
    · refine hforward.trans ?_
      simp [detach, detachSources, detachTargets, size_erase]
    · refine hbackward.trans ?_
      simp [detach, detachSources, detachTargets, size_erase]

theorem array_eq_of_getD {lists lists' : Array (List NodeId)} (hsize : lists.size = lists'.size)
    (h : ∀ n, lists.getD n [] = lists'.getD n []) : lists = lists' := by
  refine Array.ext hsize fun i hi hi' => ?_
  simpa [Array.getD, hi, hi'] using h i

/-- What a restriction leaves is settled by the nodes that it keeps. -/
theorem Restricts.unique {w' w'' : Wires} {keep : NodeId → Bool} (h : w.Restricts keep w')
    (h' : w.Restricts keep w'') (hforward : w'.forward.size = w''.forward.size)
    (hbackward : w'.backward.size = w''.backward.size) : w' = w'' := by
  have hf : w'.forward = w''.forward :=
    array_eq_of_getD hforward fun n => (h.targets n).trans (h'.targets n).symm
  have hb : w'.backward = w''.backward :=
    array_eq_of_getD hbackward fun n => (h.sources n).trans (h'.sources n).symm
  calc w' = ⟨w'.forward, w'.backward⟩ := rfl
    _ = w'' := by rw [hf, hb]

/-- Nodes may be removed in any order. -/
theorem detachAll_perm (hw : w.Mirror) {ns ns' : List NodeId} (h : ns.Perm ns') :
    w.detachAll ns = w.detachAll ns' := by
  have hkeep : (!ns.contains ·) = (!ns'.contains ·) := by
    funext n
    rw [h.contains_eq]
  obtain ⟨hforward, hbackward⟩ := size_detachAll ns w
  obtain ⟨hforward', hbackward'⟩ := size_detachAll ns' w
  refine (restricts_detachAll hw ns).unique ?_ (hforward.trans hforward'.symm) (hbackward.trans hbackward'.symm)
  rw [hkeep]
  exact restricts_detachAll hw ns'

end Wires

end Netlist
