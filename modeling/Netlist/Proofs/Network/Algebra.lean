/-
The two passes of elimination as functions on whole networks. A network that a pass leaves is told
by the leaves that stay: their edges, their ids and everything else follow. The cascade keeps what
reaches a pinned leaf, so the pruning of dead loops gives the same network before it, after it and
without it, and either pass done twice is the pass done once. A compilation with both passes is one
without elimination and the pruning after it.
-/
import Netlist.Proofs.Network.Anchored

namespace Netlist

variable {P : Type}

namespace Network

/-! ## What a pass determines -/

/-- What no pass changes besides the circuit: the root, what the survey found, and the room for edges. -/
def outline (net : Network P) : NodeId × List NodeId × List Failure × Nat × Nat :=
  (net.root, net.containers, net.diagnostics, net.wires.forward.size, net.wires.backward.size)

/-- `net'` is all that a pass makes of `net` when the leaves in `keep` stay: they are numbered anew,
the leaves that go lose their ids, and the rest is as it was. -/
structure Reduces (net : Network P) (keep : NodeId → Bool) (net' : Network P) : Prop where
  prunes : Prunes net keep net'
  ids : ∀ n, net'.idOf? n = if n ∈ net'.leaves then some (net'.leaves.idxOf n)
    else if n ∈ net.leaves then none else net.idOf? n
  outline : net'.outline = net.outline

variable {net net' net'' : Network P} {keep keep' : NodeId → Bool}

/-- Ids are all that circuits with the same other data can differ in. -/
theorem circuit_eq_of_ids {c c' : Circuit P} (h : withoutIds c' = withoutIds c)
    (hids : ∀ n, idIn? c' n = idIn? c n) : c' = c := by
  have hsame := sameButIds_of_withoutIds h
  have hnodes : ∀ n, c'.node? n = c.node? n := by
    intro n
    cases hnode : c.node? n with
    | none =>
      by_contra hother
      obtain ⟨other, hother⟩ := Option.ne_none_iff_exists'.1 hother
      obtain ⟨node, hnode'⟩ := Circuit.node?_of_lt (hsame.size ▸ Circuit.lt_size_of_node? hother)
      cases hnode.symm.trans hnode'
    | some node =>
      obtain ⟨id, hnode'⟩ := hsame.node n node hnode
      have hid : id = node.id := by simpa [idIn?, hnode, hnode'] using hids n
      rw [hnode', hid]
  exact congrArg Circuit.mk (Array.ext_getElem? hnodes)

namespace Reduces

theorem congr (h : Reduces net keep net') (hnet : net.Sound) (heq : ∀ n ∈ net.leaves, keep n = keep' n) :
    Reduces net keep' net' :=
  ⟨h.prunes.congr hnet heq, h.ids, h.outline⟩

theorem trans (h : Reduces net keep net') (h' : Reduces net' keep' net'') :
    Reduces net (fun n => keep n && keep' n) net'' := by
  refine ⟨h.prunes.trans h'.prunes, fun n => ?_, h'.outline.trans h.outline⟩
  have hsub : n ∈ net'.leaves → n ∈ net.leaves := fun hn => (h.prunes.mem_leaves.1 hn).1
  rw [h'.ids, h.ids]
  by_cases hlast : n ∈ net''.leaves
  · rw [if_pos hlast, if_pos hlast]
  · rw [if_neg hlast, if_neg hlast]
    by_cases hmid : n ∈ net'.leaves
    · rw [if_pos hmid, if_pos (hsub hmid)]
    · rw [if_neg hmid, if_neg hmid]

/-- The leaves that stay determine the network. -/
theorem unique (h : Reduces net keep net') (h' : Reduces net keep net'') : net' = net'' := by
  have hleaves : net'.leaves = net''.leaves := h.prunes.leaves.trans h'.prunes.leaves.symm
  have houtline : net'.outline = net''.outline := h.outline.trans h'.outline.symm
  simp only [Network.outline, Prod.mk.injEq] at houtline
  obtain ⟨hroot, hcontainers, hdiagnostics, hforward, hbackward⟩ := houtline
  have hwires : net'.wires = net''.wires := h.prunes.wires.unique h'.prunes.wires hforward hbackward
  have hcircuit : net'.circuit = net''.circuit := by
    refine circuit_eq_of_ids (h.prunes.circuit.trans h'.prunes.circuit.symm) fun n => ?_
    exact (h.ids n).trans ((hleaves ▸ h'.ids n).symm)
  calc net' = ⟨net'.circuit, net'.root, net'.leaves, net'.containers, net'.diagnostics, net'.wires⟩ := rfl
    _ = net'' := by rw [hcircuit, hroot, hleaves, hcontainers, hdiagnostics, hwires]

theorem sound (h : Reduces net keep net') (hnet : net.Sound) : net'.Sound := h.prunes.sound hnet

/-- Two ways to drop leaves end alike if they keep the same ones. -/
theorem eq_of_iff (h : Reduces net keep net') (h' : Reduces net keep' net'') (hnet : net.Sound)
    (hiff : ∀ n ∈ net.leaves, keep n = true ↔ keep' n = true) : net' = net'' :=
  (h.congr hnet fun n hn => Bool.eq_iff_iff.2 (hiff n hn)).unique h'

end Reduces

/-! ## The passes -/

theorem reduces_removeDeadEnds (hnet : net.Sound) :
    Reduces net (!net.cascade.removed.contains ·) net.removeDeadEnds := by
  refine ⟨prunes_removeDeadEnds hnet, ?_, ?_⟩
  · exact idOf?_keepLeaves { net with wires := net.cascade.wires } hnet.nodup hnet.lt_size _
  · obtain ⟨hforward, hbackward⟩ := net.size_cascade
    unfold outline
    rw [← hforward, ← hbackward]
    rfl

theorem reduces_pruneDeadLoops (hnet : net.Sound) :
    Reduces net (net.liveLeaves.contains ·) net.pruneDeadLoops := by
  refine ⟨prunes_pruneDeadLoops hnet, ?_, ?_⟩
  · exact idOf?_keepLeaves { net with wires := net.wires.detachAll _ } hnet.nodup hnet.lt_size _
  · obtain ⟨hforward, hbackward⟩ := net.wires.size_detachAll (net.leaves.filter (!net.liveLeaves.contains ·))
    unfold outline
    rw [← hforward, ← hbackward]
    rfl

/-- Numbering the leaves drops none. -/
theorem reduces_assignIds (hnet : net.Sound) : Reduces net (fun _ => true) net.assignIds := by
  refine ⟨(Prunes.refl net).assignIds, fun n => ?_, rfl⟩
  refine (idIn?_numberLeaves hnet.nodup hnet.lt_size n).trans ?_
  change _ = if n ∈ net.leaves then _ else if n ∈ net.leaves then none else idIn? net.circuit n
  split <;> rfl

/-! ## Their algebra -/

/-- A pass before the pruning of dead loops makes no difference. -/
theorem Reduces.pruneDeadLoops_eq (h : Reduces net keep net') (hnet : net.Sound) :
    net'.pruneDeadLoops = net.pruneDeadLoops := by
  have hsound := h.sound hnet
  refine (h.trans (reduces_pruneDeadLoops hsound)).eq_of_iff (reduces_pruneDeadLoops hnet) hnet fun n _ => ?_
  rw [Bool.and_eq_true, contains_liveLeaves hsound, contains_liveLeaves hnet, h.prunes.reachesPinned_iff hnet]
  exact and_iff_right_of_imp (h.prunes.keep_of_reachesPinned hnet)

theorem removeDeadEnds_pruneDeadLoops (hnet : net.Sound) :
    net.pruneDeadLoops.removeDeadEnds = net.pruneDeadLoops := by
  have hloops := reduces_pruneDeadLoops hnet
  have hsound := hloops.sound hnet
  have hends := reduces_removeDeadEnds hsound
  refine (hloops.trans hends).eq_of_iff hloops hnet fun n _ => ?_
  rw [Bool.and_eq_true]
  refine and_iff_left_of_imp fun hn => hends.prunes.keep_of_reachesPinned hsound ?_
  exact (hloops.prunes.reachesPinned_iff hnet).2 ((contains_liveLeaves hnet n).1 hn)

/-- What the cascade leaves has no dead ends but those of the whole network. -/
theorem DeadEnd.of_removeDeadEnds (hnet : net.Sound) {n : NodeId} (h : net.removeDeadEnds.DeadEnd n) :
    net.DeadEnd n := by
  have hprunes := prunes_removeDeadEnds hnet
  induction h with
  | @intro n hn hp _ ih =>
    obtain ⟨hmem, hkeep⟩ := hprunes.mem_leaves.1 hn
    rw [isPinned_of_withoutIds hprunes.circuit] at hp
    refine .intro hmem hp fun m hm => ?_
    -- a target is left, or it was removed as a dead end
    cases hr : net.cascade.removed.contains m with
    | true => exact (contains_cascade hnet m).1 hr
    | false => exact ih m (hprunes.wires.mem_targets.2 ⟨hm, hkeep, by simp [hr]⟩)

theorem removeDeadEnds_removeDeadEnds (hnet : net.Sound) :
    net.removeDeadEnds.removeDeadEnds = net.removeDeadEnds := by
  have hends := reduces_removeDeadEnds hnet
  have hsound := hends.sound hnet
  refine (hends.trans (reduces_removeDeadEnds hsound)).eq_of_iff hends hnet fun n _ => ?_
  rw [Bool.and_eq_true]
  refine and_iff_left_of_imp fun hn => ?_
  rw [Bool.not_eq_true', Bool.eq_false_iff] at hn ⊢
  rw [ne_eq, contains_cascade hnet] at hn
  rw [ne_eq, contains_cascade hsound]
  exact fun hdead => hn (hdead.of_removeDeadEnds hnet)

/-- A compilation with both passes prunes dead loops where one without elimination does not. -/
theorem compile_eq_map_pruneDeadLoops (hwired : net.circuit.WellWired) (maxDepth : Nat) (unused : Bool) :
    net.compile ⟨maxDepth, true, true⟩ = (net.compile ⟨maxDepth, false, unused⟩).map pruneDeadLoops := by
  cases hsurvey : (withoutIds net.circuit).survey net.root maxDepth with
  | error e =>
    rw [compile_eq, compile_eq, hsurvey]
    rfl
  | ok found =>
    rw [compile_of_survey hsurvey, compile_of_survey hsurvey]
    have hsound := sound_ofSurvey (wellWired_withoutIds hwired) (Circuit.surveyed_of_eq_ok hsurvey) net.root
    have hids := reduces_assignIds hsound
    have hends := reduces_removeDeadEnds hsound
    have hloops := reduces_pruneDeadLoops hsound
    refine congrArg Except.ok ?_
    calc (ofSurvey (withoutIds net.circuit) net.root found).removeDeadEnds.pruneDeadLoops.assignIds
        = (ofSurvey (withoutIds net.circuit) net.root found).pruneDeadLoops.assignIds := by
          rw [hends.pruneDeadLoops_eq hsound]
      _ = (ofSurvey (withoutIds net.circuit) net.root found).pruneDeadLoops :=
          (hloops.trans (reduces_assignIds (hloops.sound hsound))).eq_of_iff hloops hsound fun n _ => by simp
      _ = (ofSurvey (withoutIds net.circuit) net.root found).assignIds.pruneDeadLoops :=
          (hids.pruneDeadLoops_eq hsound).symm

/-! ## Compiled networks -/

/-- In any state, pruning dead loops gives the same network before, after and without the removal of
dead ends, and each pass done twice is the pass done once, in whatever order the removed leaves are
gone through. So a compilation with both passes is one without elimination that is pruned after it;
if one of them fails, both do, with one failure. -/
theorem passes_algebra {c : Circuit P} (hc : c.Built) {root : NodeId} {start net : Network P}
    (hstart : ofRoot c root = .ok start) {passes : List Pass} (hnet : start.performAll passes = .ok net) :
    net.removeDeadEnds.pruneDeadLoops = net.pruneDeadLoops ∧
      net.pruneDeadLoops.removeDeadEnds = net.pruneDeadLoops ∧
      net.removeDeadEnds.removeDeadEnds = net.removeDeadEnds ∧
      net.pruneDeadLoops.pruneDeadLoops = net.pruneDeadLoops ∧
      (∀ order : List NodeId → List NodeId, (∀ ns, (order ns).Perm ns) →
        net.removeDeadEndsIn order = net.removeDeadEnds ∧ net.pruneDeadLoopsIn order = net.pruneDeadLoops) ∧
      ∀ maxDepth unused, net.compile ⟨maxDepth, true, true⟩ =
        (net.compile ⟨maxDepth, false, unused⟩).map pruneDeadLoops := by
  obtain ⟨horderly, -⟩ := orderly_performAll hc.wellWired hstart hnet
  have hsound := horderly.sound
  have hends := reduces_removeDeadEnds hsound
  have hloops := reduces_pruneDeadLoops hsound
  refine ⟨hends.pruneDeadLoops_eq hsound, removeDeadEnds_pruneDeadLoops hsound, removeDeadEnds_removeDeadEnds hsound,
    hloops.pruneDeadLoops_eq hsound, fun order horder => ?_, compile_eq_map_pruneDeadLoops horderly.wired⟩
  exact ⟨removeDeadEndsIn_eq horder net, pruneDeadLoopsIn_eq horder hsound⟩

/-- Removing dead ends keeps a loop that pruning removes, whichever comes first. -/
theorem passes_algebra_thicket : thicket.Built ∧
    ∃ start net, ofRoot thicket 5 = .ok start ∧ start.performAll [.compile ⟨6, false, true⟩] = .ok net ∧
      net.leaves = [0, 1, 2, 4, 3] ∧ net.removeDeadEnds.leaves = [0, 1, 2, 3] ∧
      net.pruneDeadLoops.leaves = [0, 3] ∧ net.removeDeadEnds.pruneDeadLoops = net.pruneDeadLoops ∧
      net.pruneDeadLoops.removeDeadEnds = net.pruneDeadLoops ∧
      net.removeDeadEnds.removeDeadEnds = net.removeDeadEnds ∧
      net.pruneDeadLoops.pruneDeadLoops = net.pruneDeadLoops ∧
      net.removeDeadEndsIn List.reverse = net.removeDeadEnds ∧
      net.pruneDeadLoopsIn List.reverse = net.pruneDeadLoops ∧
      net.compile ⟨6, true, true⟩ = (net.compile ⟨6, false, true⟩).map pruneDeadLoops := by
  obtain ⟨start, net, hstart, hnet, hlisted, hends, hloops⟩ := exists_compiled_thicket
  obtain ⟨hafter, hbefore, htwice, htwice', horder, hcompile⟩ := passes_algebra built_thicket hstart hnet
  obtain ⟨hendsIn, hloopsIn⟩ := horder List.reverse List.reverse_perm
  exact ⟨built_thicket, start, net, hstart, hnet, hlisted, hends, hloops, hafter, hbefore, htwice, htwice', hendsIn,
    hloopsIn, hcompile 6 true⟩

end Network

end Netlist
