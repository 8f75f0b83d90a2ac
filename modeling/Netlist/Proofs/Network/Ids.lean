/-
The ids of a network. Numbering gives every listed leaf its position and no other node an id, as
long as no id is left on a node that is not listed.
-/
import Mathlib.Data.List.Nodup
import Netlist.Proofs.Circuit.Cells

namespace Netlist

variable {P : Type}

namespace Network

/-- The id that a node of a circuit holds. -/
def idIn? (c : Circuit P) (n : NodeId) : Option Nat := (c.node? n).bind (·.id)

/-! ## Changing ids -/

theorem idIn?_modify {c : Circuit P} {n : NodeId} (hn : n < c.size) (i : Option Nat) (m : NodeId) :
    idIn? (c.modify n ({ · with id := i })) m = if m = n then i else idIn? c m := by
  obtain ⟨node, hnode⟩ := Circuit.node?_of_lt hn
  unfold idIn?
  rw [Circuit.node?_modify]
  by_cases hm : m = n
  · simp [hm, hnode]
  · simp [hm, Ne.symm hm]

theorem idIn?_clearIds (m : NodeId) : ∀ (ns : List NodeId) (c : Circuit P), (∀ n ∈ ns, n < c.size) →
    idIn? (clearIds c ns) m = if m ∈ ns then none else idIn? c m
  | [], c, _ => by simp [clearIds]
  | n :: ns, c, h => by
    have hn := h n (List.mem_cons_self ..)
    have ih := idIn?_clearIds m ns (c.modify n ({ · with id := none })) fun k hk => by
      rw [Circuit.size_modify]
      exact h k (List.mem_cons_of_mem _ hk)
    change idIn? (clearIds (c.modify n _) ns) m = _
    rw [ih, idIn?_modify hn]
    by_cases hm : m = n <;> by_cases hns : m ∈ ns <;> simp [hm, hns]

/-- Ids may be taken away in any order. -/
theorem clearIds_perm (c : Circuit P) {ns ns' : List NodeId} (h : ns.Perm ns') :
    clearIds c ns = clearIds c ns' := by
  refine h.foldl_eq' (fun n _ m _ c => ?_) c
  refine congrArg Circuit.mk (Array.ext_getElem? fun k => ?_)
  simp only [Circuit.modify, Array.getElem?_modify]
  split <;> split <;> rfl

/-- Every numbered node holds its position. -/
theorem idIn?_numberLeaves {c : Circuit P} {ns : List NodeId} (hns : ns.Nodup) (h : ∀ n ∈ ns, n < c.size)
    (m : NodeId) :
    idIn? (numberLeaves c ns) m = if m ∈ ns then some (ns.idxOf m) else idIn? c m := by
  have key : ∀ (ns : List NodeId) (k : Nat) (c : Circuit P), ns.Nodup → (∀ n ∈ ns, n < c.size) →
      idIn? ((ns.zipIdx k).foldl (fun c x => c.modify x.1 ({ · with id := some x.2 })) c) m =
        if m ∈ ns then some (k + ns.idxOf m) else idIn? c m := by
    intro ns
    induction ns with
    | nil => exact fun k c _ _ => by simp
    | cons n ns ih =>
      -- the first node keeps its number, because it does not come again
      intro k c hnodup hlt
      obtain ⟨hfresh, hnodup⟩ := List.nodup_cons.1 hnodup
      have hn := hlt n (List.mem_cons_self ..)
      rw [List.zipIdx_cons, List.foldl_cons, ih (k + 1) _ hnodup fun l hl => by
        rw [Circuit.size_modify]
        exact hlt l (List.mem_cons_of_mem _ hl), idIn?_modify hn]
      by_cases hm : m = n
      · subst hm
        simp [hfresh]
      · have hidx : (n :: ns).idxOf m = ns.idxOf m + 1 := List.idxOf_cons_ne _ (Ne.symm hm)
        by_cases hns : m ∈ ns
        · simp [hns, hidx]
          omega
        · simp [hm, hns]
  have hstart := key ns 0 c hns h
  rwa [Nat.zero_add] at hstart

/-! ## Numbered networks -/

/-- No node outside of the list has an id. -/
def NoStrays (net : Network P) : Prop := ∀ n, n ∉ net.leaves → net.idOf? n = none

/-- The ids are the positions in the list. -/
structure Numbered (net : Network P) : Prop where
  listed : ∀ n ∈ net.leaves, net.idOf? n = some (net.leaves.idxOf n)
  strays : net.NoStrays

theorem Numbered.idOf?_eq {net : Network P} (h : net.Numbered) {keep : NodeId → Bool}
    (hkeep : ∀ n, n ∈ net.leaves ↔ keep n = true) (n : NodeId) :
    net.idOf? n = if keep n then some (net.leaves.idxOf n) else none := by
  split
  · next hn => exact h.listed n ((hkeep n).2 hn)
  · next hn => exact h.strays n fun hmem => hn ((hkeep n).1 hmem)

theorem noStrays_of_withoutIds {net : Network P} (h : net.circuit = withoutIds net.circuit) :
    net.NoStrays := by
  intro n _
  rw [idOf?, h, node?_withoutIds]
  cases net.circuit.node? n <;> rfl

theorem numbered_assignIds {net : Network P} (hnodup : net.leaves.Nodup)
    (hlt : ∀ n ∈ net.leaves, n < net.circuit.size) (h : net.NoStrays) : net.assignIds.Numbered := by
  have hid : ∀ n, net.assignIds.idOf? n =
      if n ∈ net.leaves then some (net.leaves.idxOf n) else net.idOf? n :=
    idIn?_numberLeaves hnodup hlt
  exact ⟨fun n hn => (hid n).trans (if_pos hn), fun n hn => (hid n).trans ((if_neg hn).trans (h n hn))⟩

/-- Kept leaves get their positions, dropped ones lose their ids, and no other id changes. -/
theorem idOf?_keepLeaves (net : Network P) (hnodup : net.leaves.Nodup)
    (hlt : ∀ n ∈ net.leaves, n < net.circuit.size) (keep : NodeId → Bool) (n : NodeId) :
    (net.keepLeaves keep).idOf? n =
      if n ∈ net.leaves.filter keep then some ((net.leaves.filter keep).idxOf n)
      else if n ∈ net.leaves then none else net.idOf? n := by
  have hsize : (clearIds net.circuit (net.leaves.filter (!keep ·))).size = net.circuit.size :=
    (sameWiring_of_withoutIds (withoutIds_clearIds _ _)).size
  have hdropped : ∀ n ∈ net.leaves.filter (!keep ·), n < net.circuit.size := fun n hn =>
    hlt n (List.mem_of_mem_filter hn)
  have hkept : ∀ n ∈ net.leaves.filter keep,
      n < (clearIds net.circuit (net.leaves.filter (!keep ·))).size := fun n hn =>
    hsize ▸ hlt n (List.mem_of_mem_filter hn)
  have hnumber := idIn?_numberLeaves (hnodup.filter keep) hkept n
  rw [idIn?_clearIds n _ _ hdropped] at hnumber
  refine hnumber.trans ?_
  split
  · rfl
  · next hn =>
    -- a leaf that is not kept is dropped
    have hiff : n ∈ net.leaves.filter (!keep ·) ↔ n ∈ net.leaves := by
      rw [List.mem_filter]
      refine and_iff_left_of_imp fun hmem => ?_
      simpa [hmem] using hn
    rw [if_congr hiff rfl rfl]
    rfl

theorem numbered_keepLeaves (net : Network P) (hnodup : net.leaves.Nodup)
    (hlt : ∀ n ∈ net.leaves, n < net.circuit.size) (h : net.NoStrays) (keep : NodeId → Bool) :
    (net.keepLeaves keep).Numbered := by
  have hid := idOf?_keepLeaves net hnodup hlt keep
  refine ⟨fun n hn => (hid n).trans (if_pos hn), fun n hn => (hid n).trans ((if_neg hn).trans ?_)⟩
  split
  · rfl
  · next hmem => exact h n hmem

end Network

end Netlist
