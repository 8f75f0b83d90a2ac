/-
Which leaves elimination keeps: exactly those from which the edges between listed leaves lead to a
pinned leaf, in their order, with the edges between them. The cascade of dead ends removes no such
leaf, and the walk back from the pinned leaves finds all of them and no others. The removed leaves
may be gone through in any order.
-/
import Mathlib.Tactic
import Netlist.Proofs.Network.Compile

namespace Netlist

variable {P : Type}

namespace Network

/-- A listed leaf that is pinned, or that feeds one from which a pinned leaf is reached. -/
inductive ReachesPinned (net : Network P) : NodeId → Prop where
  | pinned {n : NodeId} (hn : n ∈ net.leaves) (hp : net.circuit.isPinned n = true) : ReachesPinned net n
  | feeds {a b : NodeId} (hab : b ∈ net.wires.targets a) (hb : ReachesPinned net b) : ReachesPinned net a

variable {net net' : Network P} {keep : NodeId → Bool}

theorem ReachesPinned.mem_leaves {n : NodeId} (h : net.ReachesPinned n) (hnet : net.Sound) :
    n ∈ net.leaves := by
  cases h with
  | pinned hn _ => exact hn
  | feeds hab _ => exact (hnet.joins _ _ hab).1

/-! ## The walk back from the pinned leaves -/

/-- The walk adds nothing but leaves that reach a pinned leaf, if it starts from such leaves. -/
theorem reachesPinned_liveFrom (hnet : net.Sound) (listed live : NodeSet) (pending : List NodeId)
    (hlive : ∀ n, live.contains n = true → net.ReachesPinned n)
    (hpending : ∀ n ∈ pending, net.ReachesPinned n) :
    ∀ n, (liveFrom net.wires listed live pending).contains n = true → net.ReachesPinned n := by
  fun_induction liveFrom net.wires listed live pending with
  | case1 live => exact hlive
  | case2 live n rest _ ih => exact ih hlive fun m hm => hpending m (List.mem_cons_of_mem _ hm)
  | case3 live n rest _ _ ih =>
    have hn := hpending n (List.mem_cons_self ..)
    refine ih (fun m hm => ?_) fun m hm => ?_
    · rw [NodeSet.contains_insert, Bool.or_eq_true, beq_iff_eq] at hm
      rcases hm with rfl | hm
      · exact hn
      · exact hlive m hm
    · rcases List.mem_append.1 hm with hm | hm
      · exact .feeds (hnet.mirror.mem_iff.1 hm) hn
      · exact hpending m (List.mem_cons_of_mem _ hm)
  | case4 live n rest _ _ ih => exact ih hlive fun m hm => hpending m (List.mem_cons_of_mem _ hm)

/-- A leaf that reaches a pinned leaf stays whenever pinned leaves stay and sources stay with the
leaves that read them. -/
theorem Prunes.keep_of_reachesPinned (hnet : net.Sound) (h : Prunes net keep net') {n : NodeId}
    (hn : net.ReachesPinned n) : keep n = true := by
  induction hn with
  | pinned hn hp => exact h.pinned _ hn hp
  | feeds hab _ ih => exact h.closed _ (hnet.joins _ _ hab).2 ih _ (hnet.mirror.mem_iff.2 hab)

theorem contains_liveLeaves (hnet : net.Sound) (n : NodeId) :
    net.liveLeaves.contains n = true ↔ net.ReachesPinned n := by
  constructor
  · refine reachesPinned_liveFrom hnet _ {} _ (fun m hm => by simp at hm) (fun m hm => ?_) n
    obtain ⟨hmem, hp⟩ := List.mem_filter.1 hm
    exact .pinned hmem hp
  · exact (prunes_pruneDeadLoops hnet).keep_of_reachesPinned hnet

/-! ## Both passes -/

/-- Removing leaves that do not reach a pinned leaf cuts off none that does. -/
theorem Prunes.reachesPinned_iff (hnet : net.Sound) (h : Prunes net keep net') {n : NodeId} :
    net'.ReachesPinned n ↔ net.ReachesPinned n := by
  constructor
  · intro hn
    induction hn with
    | pinned hn hp =>
      rw [isPinned_of_withoutIds h.circuit] at hp
      exact .pinned (h.mem_leaves.1 hn).1 hp
    | feeds hab _ ih => exact .feeds (h.wires.mem_targets.1 hab).1 ih
  · intro hn
    induction hn with
    | pinned hn hp =>
      refine .pinned (h.mem_leaves.2 ⟨hn, h.pinned _ hn hp⟩) ?_
      rwa [isPinned_of_withoutIds h.circuit]
    | feeds hab hb ih =>
      have ha := h.keep_of_reachesPinned hnet (.feeds hab hb)
      exact .feeds (h.wires.mem_targets.2 ⟨hab, ha, h.keep_of_reachesPinned hnet hb⟩) ih

theorem prunes_both (hnet : net.Sound) : ∃ keep, (∀ n, keep n = true ↔ net.ReachesPinned n) ∧
    Prunes net keep net.removeDeadEnds.pruneDeadLoops := by
  have hends := prunes_removeDeadEnds hnet
  have hsound := hends.sound hnet
  -- the leaves that the second pass keeps have all survived the first one
  refine ⟨_, fun n => ?_, hends.trans (prunes_pruneDeadLoops hsound)⟩
  rw [Bool.and_eq_true, contains_liveLeaves hsound, hends.reachesPinned_iff hnet]
  exact ⟨And.right, fun hn => ⟨hends.keep_of_reachesPinned hnet hn, hn⟩⟩

/-! ## Any order -/

section Order

variable (order : List NodeId → List NodeId)

/-- Drops leaves, whose ids are taken away in some order. -/
def keepLeavesIn (net : Network P) (keep : NodeId → Bool) : Network P :=
  let kept := net.leaves.filter keep
  let dropped := order (net.leaves.filter (!keep ·))
  { net with leaves := kept, circuit := numberLeaves (clearIds net.circuit dropped) kept }

/-- Removes dead ends, whose ids are taken away in some order. -/
def removeDeadEndsIn (net : Network P) : Network P :=
  let state := net.cascade
  { net with wires := state.wires }.keepLeavesIn order (!state.removed.contains ·)

/-- Prunes dead loops, whose edges and ids are taken away in some order. -/
def pruneDeadLoopsIn (net : Network P) : Network P :=
  let live := net.liveLeaves
  let dead := order (net.leaves.filter (!live.contains ·))
  { net with wires := net.wires.detachAll dead }.keepLeavesIn order (live.contains ·)

/-- Compiles with both passes, which go through the leaves that they remove in some order. -/
def compileIn (net : Network P) (maxDepth : Nat) : Except Failure (Network P) := do
  let circuit := withoutIds net.circuit
  let found ← circuit.survey net.root maxDepth
  return (((ofSurvey circuit net.root found).removeDeadEndsIn order).pruneDeadLoopsIn order).assignIds

variable {order}

theorem keepLeavesIn_eq (horder : ∀ ns, (order ns).Perm ns) (net : Network P) (keep : NodeId → Bool) :
    net.keepLeavesIn order keep = net.keepLeaves keep := by
  rw [keepLeavesIn, keepLeaves, clearIds_perm net.circuit (horder _)]

theorem removeDeadEndsIn_eq (horder : ∀ ns, (order ns).Perm ns) (net : Network P) :
    net.removeDeadEndsIn order = net.removeDeadEnds :=
  keepLeavesIn_eq horder ..

theorem pruneDeadLoopsIn_eq (horder : ∀ ns, (order ns).Perm ns) (hnet : net.Sound) :
    net.pruneDeadLoopsIn order = net.pruneDeadLoops := by
  rw [pruneDeadLoopsIn, pruneDeadLoops, Wires.detachAll_perm hnet.mirror (horder _)]
  exact keepLeavesIn_eq horder ..

/-- The order in which removed leaves are gone through does not matter. -/
theorem compileIn_eq (horder : ∀ ns, (order ns).Perm ns) {net : Network P} {found : Survey}
    {maxDepth : Nat} (h : (withoutIds net.circuit).survey net.root maxDepth = .ok found)
    (hsound : (ofSurvey (withoutIds net.circuit) net.root found).Sound) :
    net.compileIn order maxDepth =
      .ok ((ofSurvey (withoutIds net.circuit) net.root found).eliminate ⟨maxDepth, true, true⟩).assignIds := by
  refine bind_eq_ok.2 ⟨found, h, ?_⟩
  rw [removeDeadEndsIn_eq horder, pruneDeadLoopsIn_eq horder ((prunes_removeDeadEnds hsound).sound hsound)]
  rfl

end Order

/-! ## Compiled networks -/

/-- Elimination is exact. Compiled without elimination, a network has all edges between its leaves.
With both passes it has the leaves that reach a pinned leaf, in the same order, the edges between
them, and their positions as ids; all other nodes have neither edges nor ids. The order in which
removed leaves are gone through does not matter. -/
theorem compile_keeps_reachesPinned (net : Network P) (hc : net.circuit.Built)
    (hports : net.circuit.PortsExist) (hroot : net.root < net.circuit.size) (maxDepth : Nat) (unused : Bool) :
    ∃ full lean keep, net.compile ⟨maxDepth, false, unused⟩ = .ok full ∧
      net.compile ⟨maxDepth, true, true⟩ = .ok lean ∧
      (∀ n, full.wires.targets n =
        if n ∈ full.leaves then (net.circuit.forwardOf n).filter (· ∈ full.leaves) else []) ∧
      (∀ n, full.wires.sources n =
        if n ∈ full.leaves then (net.circuit.backwardOf n).filter (· ∈ full.leaves) else []) ∧
      (∀ n, keep n = true ↔ full.ReachesPinned n) ∧
      lean.leaves = full.leaves.filter keep ∧
      (∀ n, lean.wires.targets n = if keep n then (full.wires.targets n).filter keep else []) ∧
      (∀ n, lean.wires.sources n = if keep n then (full.wires.sources n).filter keep else []) ∧
      (∀ n, lean.idOf? n = if keep n then some (lean.leaves.idxOf n) else none) ∧
      ∀ order : List NodeId → List NodeId, (∀ ns, (order ns).Perm ns) →
        net.compileIn order maxDepth = .ok lean := by
  obtain ⟨found, hsurvey, hfound⟩ := exists_survey hc.wellWired hports hroot maxDepth
  have hsound := sound_ofSurvey (wellWired_withoutIds hc.wellWired) hfound net.root
  obtain ⟨_, hlean⟩ := compiled_assignIds hc.wellWired hfound ⟨maxDepth, true, true⟩
  obtain ⟨keep, hkeep, hprunes⟩ := prunes_both hsound
  refine ⟨_, _, keep, compile_of_survey hsurvey, compile_of_survey hsurvey, targets_ofSurvey_withoutIds net found,
    sources_ofSurvey_withoutIds net found, fun n => ?_, hprunes.leaves, hprunes.wires.targets, hprunes.wires.sources,
    fun n => ?_, fun order horder => compileIn_eq horder hsurvey hsound⟩
  · exact (hkeep n).trans ((Prunes.refl _).assignIds.reachesPinned_iff hsound).symm
  · refine hlean.numbered.idOf?_eq (fun m => ?_) n
    change m ∈ (ofSurvey _ net.root found).removeDeadEnds.pruneDeadLoops.leaves ↔ _
    rw [hprunes.mem_leaves, hkeep]
    exact ⟨And.right, fun hm => ⟨hm.mem_leaves hsound, hm⟩⟩

/-- Two pinned gates joined by a double edge. The first one also feeds a dead loop, in which a gate
reads itself and another one feeds a gate that feeds nothing. -/
def thicket : Circuit Unit :=
  let c := (Circuit.mk #[]).addLeaves [.gate .or, .gate .xor, .gate .xor, .gate .and, .gate .nor]
  let c := (c.addContainer [.single 0] [.single 3]).1
  let c := [(0, 1), (1, 2), (2, 1), (1, 1), (2, 4), (0, 3), (0, 3)].foldl
    (fun c e => (c.connect e.1 e.2 false).circuit) c
  (c.markPinned 0).markPinned 3

theorem built_thicket : thicket.Built := by
  have hleaves : ((Circuit.mk #[]).addLeaves [.gate .or, .gate .xor, .gate .xor, .gate .and, .gate .nor] :
      Circuit Unit).Built :=
    ((((Circuit.Built.empty.addLeaf _).addLeaf _).addLeaf _).addLeaf _).addLeaf _
  have hwired := ((((((hleaves.addContainer [.single 0] [.single 3]).connect 0 1 false).connect 1 2 false).connect
    2 1 false).connect 1 1 false).connect 2 4 false |>.connect 0 3 false).connect 0 3 false
  have hfirst := hwired.pin (n := 0) (by cbv)
  exact hfirst.pin (n := 3) (by cbv)

theorem compile_keeps_reachesPinned_thicket : thicket.Built ∧ thicket.PortsExist ∧ 5 < thicket.size ∧
    ∃ full lean keep, (Network.mk thicket 5 [] [] [] {}).compile ⟨6, false, true⟩ = .ok full ∧
      (Network.mk thicket 5 [] [] [] {}).compile ⟨6, true, true⟩ = .ok lean ∧
      full.leaves = [0, 1, 2, 4, 3] ∧ lean.leaves = [0, 3] ∧ lean.wires.targets 0 = [3, 3] ∧
      lean.leaves = full.leaves.filter keep ∧ (∀ n, keep n = true ↔ full.ReachesPinned n) ∧
      (∀ n, lean.idOf? n = if keep n then some (lean.leaves.idxOf n) else none) ∧
      (Network.mk thicket 5 [] [] [] {}).compileIn List.reverse 6 = .ok lean := by
  have hports : thicket.PortsExist := of_decide_eq_true (by cbv)
  have hroot : 5 < thicket.size := of_decide_eq_true (by cbv)
  have hfull : ((Network.mk thicket 5 [] [] [] {}).compile ⟨6, false, true⟩).toOption.map (·.leaves) =
      some [0, 1, 2, 4, 3] := by cbv
  have hlean : ((Network.mk thicket 5 [] [] [] {}).compile ⟨6, true, true⟩).toOption.map
      (fun net => (net.leaves, net.wires.targets 0)) = some ([0, 3], [3, 3]) := by cbv
  obtain ⟨full, lean, keep, hcompile, hcompile', -, -, hkeep, hleaves, -, -, hids, horder⟩ :=
    compile_keeps_reachesPinned (Network.mk thicket 5 [] [] [] {}) built_thicket hports hroot 6 true
  rw [hcompile] at hfull
  rw [hcompile'] at hlean
  obtain ⟨hlisted, htargets⟩ := Prod.mk.inj (Option.some.inj hlean)
  exact ⟨built_thicket, hports, hroot, full, lean, keep, hcompile, hcompile', Option.some.inj hfull, hlisted,
    htargets, hleaves, hkeep, hids, horder List.reverse List.reverse_perm⟩

end Network

end Netlist
