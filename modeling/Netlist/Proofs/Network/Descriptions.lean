/-
What a network answers about one node, in every state that it can be in. A container is refused, and
a listed leaf is described by its position. A leaf that is not listed is refused too once the network
was compiled. Before that, an id that an earlier network has left in the circuit is still read as if
it were a position, and a leaf that holds one gets a description.
-/
import Netlist.Proofs.Network.Passes

namespace Netlist

variable {P : Type}

namespace Network

variable {net net' : Network P} {n : NodeId}

/-! ## Descriptions of single nodes -/

theorem describe_container (hn : n < net.circuit.size) (hcell : net.circuit.cell? n = none) :
    net.describe n = .error (.containerExport n) := by
  obtain ⟨node, hnode⟩ := Circuit.node?_of_lt hn
  rw [Circuit.cell?, hnode, Option.bind_some, Node.cell?] at hcell
  rw [describe, Circuit.fetch_eq_ok.2 hnode]
  cases hkind : node.kind with
  | container =>
    simp only [bind, Except.bind, hkind]
    rfl
  | leaf cell => simp [hkind] at hcell

theorem describe_without_id {cell : Cell} (hcell : net.circuit.cell? n = some cell) (hid : net.idOf? n = none) :
    net.describe n = .error (.notInNetwork n) := by
  obtain ⟨node, hnode⟩ := Circuit.node?_of_lt (Circuit.lt_size_of_cell? (Option.isSome_of_mem hcell))
  rw [Circuit.cell?, hnode, Option.bind_some, Node.cell?] at hcell
  rw [describe, Circuit.fetch_eq_ok.2 hnode]
  cases hkind : node.kind with
  | container => simp [hkind] at hcell
  | leaf other => simp only [bind, Except.bind, hkind, resolve, hid]

/-- A leaf that holds an id is described, even if nothing is listed. -/
theorem describe_with_id {cell : Cell} (hcell : net.circuit.cell? n = some cell) {id : Nat}
    (hid : net.idOf? n = some id) (htargets : net.wires.targets n = []) (hsources : net.wires.sources n = []) :
    ∃ p, net.describe n = .ok p ∧ p.id = id := by
  obtain ⟨node, hnode⟩ := Circuit.node?_of_lt (Circuit.lt_size_of_cell? (Option.isSome_of_mem hcell))
  rw [Circuit.cell?, hnode, Option.bind_some, Node.cell?] at hcell
  rw [describe, Circuit.fetch_eq_ok.2 hnode, htargets, hsources]
  cases hkind : node.kind with
  | container => simp [hkind] at hcell
  | leaf other =>
    simp only [bind, Except.bind, hkind, resolve, hid, List.mapM_nil]
    exact ⟨_, rfl, rfl⟩

/-! ## Networks that were not compiled -/

/-- Nothing is listed, and the circuit is the one that was handed over. -/
structure Unlisted (net : Network P) (c : Circuit P) : Prop where
  leaves : net.leaves = []
  circuit : net.circuit = c

theorem Unlisted.keepLeaves {c : Circuit P} (h : net.Unlisted c) (wires : Wires) (keep : NodeId → Bool) :
    ({ net with wires }.keepLeaves keep).Unlisted c := by
  obtain ⟨hleaves, rfl⟩ := h
  constructor
  · simp [Network.keepLeaves, hleaves]
  · simp [Network.keepLeaves, hleaves, clearIds, numberLeaves]

theorem Unlisted.perform {c : Circuit P} (h : net.Unlisted c) {pass : Pass} (hpass : ∀ o, pass ≠ .compile o)
    (h' : net.perform pass = .ok net') : net'.Unlisted c := by
  cases pass with
  | compile o => exact absurd rfl (hpass o)
  | removeDeadEnds =>
    cases h'
    exact h.keepLeaves _ _
  | pruneDeadLoops =>
    cases h'
    exact h.keepLeaves _ _

theorem Unlisted.performAll {c : Circuit P} : ∀ {passes : List Pass} {net : Network P}, net.Unlisted c →
    (∀ o, .compile o ∉ passes) → net.performAll passes = .ok net' → net'.Unlisted c
  | [], _, h, _, h' => by
    cases h'
    exact h
  | pass :: passes, _, h, hpasses, h' => by
    obtain ⟨mid, hmid, h'⟩ := bind_eq_ok.1 h'
    refine (h.perform (fun o ho => hpasses o ?_) hmid).performAll (fun o ho => hpasses o ?_) h'
    · rw [ho]
      exact List.mem_cons_self ..
    · exact List.mem_cons_of_mem _ ho

/-! ## All states -/

theorem Describes.lt_length {p : Part P} (h : net.Describes n p) (hnet : net.Sound) :
    ∀ j ∈ p.connections ++ p.connectionsFrom, j < net.leaves.length := by
  intro j hj
  rw [h.connections, h.connectionsFrom, ← List.map_append] at hj
  obtain ⟨m, hm, rfl⟩ := List.mem_map.1 hj
  refine List.idxOf_lt_length_of_mem ?_
  rcases List.mem_append.1 hm with hm | hm
  · exact (hnet.joins n m hm).2
  · exact (hnet.mem_of_mem_sources hm).1

theorem Unlisted.describe_eq_error_iff {c : Circuit P} (h : net.Unlisted c) (hnet : net.Sound)
    (hn : (c.cell? n).isSome) : net.describe n = .error (.notInNetwork n) ↔ idIn? c n = none := by
  obtain ⟨hleaves, rfl⟩ := h
  obtain ⟨cell, hcell⟩ := Option.isSome_iff_exists.1 hn
  cases hid : idIn? net.circuit n with
  | none => exact iff_of_true (describe_without_id hcell hid) rfl
  | some id =>
    have htargets : net.wires.targets n = [] := List.eq_nil_iff_forall_not_mem.2 fun m hm => by
      simpa [hleaves] using (hnet.joins n m hm).1
    have hsources : net.wires.sources n = [] := List.eq_nil_iff_forall_not_mem.2 fun m hm => by
      simpa [hleaves] using (hnet.mem_of_mem_sources hm).1
    obtain ⟨p, hp, -⟩ := describe_with_id hcell hid htargets hsources
    simp [hp]

/-- In every state, a container is refused and a listed leaf is described by its position. A leaf that is
not listed is refused exactly if the network was compiled or the leaf came without an id. -/
theorem describe_performAll (c : Circuit P) (hc : c.Built) {root : NodeId} {passes : List Pass}
    {start net : Network P} (hstart : ofRoot c root = .ok start) (hnet : start.performAll passes = .ok net)
    {n : NodeId} (hn : n < c.size) :
    (c.cell? n = none → net.describe n = .error (.containerExport n)) ∧
      (n ∈ net.leaves → ∃ p, net.describe n = .ok p ∧ net.Describes n p ∧
        ∀ j ∈ p.connections ++ p.connectionsFrom, j < net.leaves.length) ∧
      ((c.cell? n).isSome → n ∉ net.leaves → (net.describe n = .error (.notInNetwork n) ↔
        (∃ o, .compile o ∈ passes) ∨ idIn? c n = none)) := by
  have hroot : start = { circuit := c, root } := by
    unfold ofRoot at hstart
    split at hstart <;> cases hstart
    rfl
  subst hroot
  obtain ⟨⟨-, hsound⟩, hnumbered⟩ := (orderly_ofRoot hc.wellWired root).performAll hnet
  have hsame := sameWiring_of_withoutIds (keeps_performAll hnet).2
  have hcell : net.circuit.cell? n = c.cell? n := hsame.cell n
  have hunlisted : (∀ o, .compile o ∉ passes) → net.Unlisted c := fun hpasses =>
    Unlisted.performAll ⟨rfl, rfl⟩ hpasses hnet
  refine ⟨fun hcontainer => ?_, fun hmem => ?_, fun hleaf hfresh => ?_⟩
  · exact describe_container (hsame.size ▸ hn) (hcell.trans hcontainer)
  · have hcompiled : ∃ o, .compile o ∈ passes := by
      by_contra hpasses
      rw [(hunlisted (not_exists.1 hpasses)).leaves] at hmem
      cases hmem
    obtain ⟨p, hp, hdescribes⟩ := describe_eq_ok hsound (hnumbered (Or.inr hcompiled)) hmem
    exact ⟨p, hp, hdescribes, hdescribes.lt_length hsound⟩
  · by_cases hcompiled : ∃ o, .compile o ∈ passes
    · obtain ⟨cell, hleaf⟩ := Option.isSome_iff_exists.1 hleaf
      have hid := (hnumbered (Or.inr hcompiled)).strays n hfresh
      exact iff_of_true (describe_without_id (hcell.trans hleaf) hid) (Or.inl hcompiled)
    · rw [(hunlisted (not_exists.1 hcompiled)).describe_eq_error_iff hsound hleaf]
      simp [hcompiled]

/-- The gate that feeds nothing is not listed after a compilation. -/
theorem describe_performAll_lodged : lodged.Built ∧ 2 < lodged.size ∧ (lodged.cell? 2).isSome ∧
    ∃ start net, ofRoot lodged 3 = .ok start ∧ start.performAll [.compile {}] = .ok net ∧
      net.leaves = [0, 1] ∧ net.describe 2 = .error (.notInNetwork 2) := by
  have hrun : (ofRoot lodged 3 >>= (performAll · [.compile {}])).toOption.map (·.leaves) = some [0, 1] := by cbv
  have hsize : 2 < lodged.size := of_decide_eq_true (by cbv)
  have hleaf : (lodged.cell? 2).isSome := by cbv
  cases hstart : ofRoot lodged 3 with
  | error e =>
    rw [hstart] at hrun
    cases hrun
  | ok start =>
    cases hnet : start.performAll [.compile {}] with
    | error e =>
      simp only [hstart, bind, Except.bind, hnet] at hrun
      cases hrun
    | ok net =>
      simp only [hstart, bind, Except.bind, hnet] at hrun
      have hleaves : net.leaves = [0, 1] := Option.some.inj hrun
      obtain ⟨-, -, hdescribe⟩ := describe_performAll lodged built_lodged hstart hnet hsize
      refine ⟨built_lodged, hsize, hleaf, start, net, rfl, hnet, hleaves, ?_⟩
      exact (hdescribe hleaf (by rw [hleaves]; decide)).2 (Or.inl ⟨{}, List.mem_singleton_self _⟩)

/-- A network that was not compiled describes a leaf that it does not list, by the id that the leaf had in
another network. -/
theorem describe_answers_stale_id : lodged.Built ∧ (lodged.cell? 1).isSome ∧
    ∃ start p, ofRoot lodged 3 = .ok start ∧ start.performAll [] = .ok start ∧ 1 ∉ start.leaves ∧
      start.describe 1 = .ok p ∧ p.id = 0 := by
  have hdescribed : (describe { circuit := lodged, root := 3 } 1).toOption.map (·.id) = some 0 := by cbv
  refine ⟨built_lodged, by cbv, { circuit := lodged, root := 3 }, ?_⟩
  cases hp : describe { circuit := lodged, root := 3 } 1 with
  | error e =>
    rw [hp] at hdescribed
    cases hdescribed
  | ok p =>
    rw [hp] at hdescribed
    exact ⟨p, if_pos (of_decide_eq_true (by cbv)), rfl, List.not_mem_nil, rfl, Option.some.inj hdescribed⟩

end Network

end Netlist
