/-
What the depth budget does to a network that is compiled without elimination. A neighbour of a
listed node is listed too, with the edges between the two, or the diagnostics name it. So nothing
is lost without a diagnostic, and there is none if the budget is larger than the circuit. Which
leaves are lost otherwise depends on the order of the walk: a leaf on a short path is lost if the
walk has met the path before it, on a branch that was too long to follow further.
-/
import Mathlib.Tactic
import Netlist.Proofs.Circuit.Branches
import Netlist.Proofs.Network.Compile

namespace Netlist

variable {P : Type}

/-- There are as many edges between two nodes as in a circuit, on both ends. -/
structure Wires.Carries (w : Wires) (c : Circuit P) (a b : NodeId) : Prop where
  targets : (w.targets a).count b = (c.forwardOf a).count b
  sources : (w.sources b).count a = (c.backwardOf b).count a

namespace Network

/-! ## Paths of a circuit without ids -/

theorem adjacent_withoutIds {c : Circuit P} {n m : NodeId} :
    (withoutIds c).Adjacent n m ↔ c.Adjacent n m := by
  unfold Circuit.Adjacent
  rw [node?_withoutIds]
  cases c.node? n with
  | none => simp
  | some node => simp [Node.neighbours, Node.exposed, Node.slots]

theorem path_withoutIds {c : Circuit P} {root n : NodeId} {path : List NodeId} :
    (withoutIds c).Path root path n ↔ c.Path root path n :=
  ⟨.mono fun _ _ => adjacent_withoutIds.1, .mono fun _ _ => adjacent_withoutIds.2⟩

/-! ## Explored networks -/

/-- A node that the last compilation has listed. -/
def Lists (net : Network P) (n : NodeId) : Prop := n ∈ net.leaves ∨ n ∈ net.containers

/-- What a network lists and what its diagnostics name. -/
structure Explored (c : Circuit P) (root maxDepth : Nat) (net : Network P) : Prop where
  leaves_nodup : net.leaves.Nodup
  containers_nodup : net.containers.Nodup
  leaf : ∀ n ∈ net.leaves, ∃ node, c.node? n = some node ∧ node.isLeaf = true
  container : ∀ n ∈ net.containers, ∃ node, c.node? n = some node ∧ node.isLeaf = false
  start : net.Lists root ∨ .depthExhausted root maxDepth ∈ net.diagnostics
  reached : ∀ n, net.Lists n → ∃ path, c.Path root path n ∧ path.length < maxDepth ∧ ∀ v ∈ path, net.Lists v
  next : ∀ n m, net.Lists n → c.Adjacent n m →
    (net.Lists m ∧ net.wires.Carries c n m ∧ net.wires.Carries c m n) ∨ .depthExhausted m maxDepth ∈ net.diagnostics
  cuts : ∀ e ∈ net.diagnostics, ∃ m path, e = .depthExhausted m maxDepth ∧ c.Path root path m ∧
    path.Nodup ∧ maxDepth ≤ path.length

namespace Explored

variable {c : Circuit P} {root maxDepth : Nat} {net : Network P} {n : NodeId}

theorem lists_of_path (h : Explored c root maxDepth net) {path : List NodeId} (hpath : c.Path root path n)
    (hcuts : ∀ v ∈ path, .depthExhausted v maxDepth ∈ net.diagnostics → net.Lists v) : net.Lists n := by
  -- the first node of the path that is not listed is one that was cut off
  induction hpath with
  | root =>
    rcases h.start with hl | hcut
    · exact hl
    · exact hcuts _ (List.mem_singleton_self _) hcut
  | next _ hm ih =>
    have hprevious := ih fun v hv => hcuts v (List.mem_append_left _ hv)
    rcases h.next _ _ hprevious hm with ⟨hl, -⟩ | hcut
    · exact hl
    · exact hcuts _ (List.mem_append_right _ (List.mem_singleton_self _)) hcut

/-- Exactly the nodes are listed to which a short path leads without a node that was lost. -/
theorem lists_iff_path (h : Explored c root maxDepth net) : net.Lists n ↔ ∃ path, c.Path root path n ∧
    path.length < maxDepth ∧ ∀ v ∈ path, .depthExhausted v maxDepth ∈ net.diagnostics → net.Lists v := by
  constructor
  · intro hn
    obtain ⟨path, hpath, hlength, hlisted⟩ := h.reached n hn
    exact ⟨path, hpath, hlength, fun v hv _ => hlisted v hv⟩
  · rintro ⟨path, hpath, -, hcuts⟩
    exact h.lists_of_path hpath hcuts

theorem lists_iff_reachable (h : Explored c root maxDepth net) (hcuts : net.diagnostics = []) :
    net.Lists n ↔ Relation.ReflTransGen c.Adjacent root n := by
  rw [Circuit.reflTransGen_iff_path]
  constructor
  · intro hn
    obtain ⟨path, hpath, -⟩ := h.reached n hn
    exact ⟨path, hpath⟩
  · rintro ⟨path, hpath⟩
    exact h.lists_of_path hpath fun v _ hv => by simp [hcuts] at hv

theorem diagnostics_eq_nil (h : Explored c root maxDepth net) (hc : c.WellWired) (hports : c.PortsExist)
    (hroot : root < c.size) (hsize : c.size < maxDepth) : net.diagnostics = [] := by
  rw [List.eq_nil_iff_forall_not_mem]
  intro e he
  -- the branch that was cut off repeats no node, so it is no longer than the circuit
  obtain ⟨m, path, -, hpath, hnodup, hlength⟩ := h.cuts e he
  have := hpath.length_le_size hports hc hroot hnodup
  omega

theorem mem_leaves_iff (h : Explored c root maxDepth net) {node : Node P} (hnode : c.node? n = some node)
    (hleaf : node.isLeaf = true) : n ∈ net.leaves ↔ net.Lists n := by
  constructor
  · exact Or.inl
  · rintro (hn | hn)
    · exact hn
    · obtain ⟨other, hother, hkind⟩ := h.container n hn
      cases hnode.symm.trans hother
      cases hleaf.symm.trans hkind

end Explored

/-! ## Surveyed networks -/

variable {net : Network P} {found : Survey}

theorem lists_ofSurvey {c : Circuit P} {root n : NodeId} : (ofSurvey c root found).Lists n ↔ found.Lists n := by
  simp [Lists, Survey.Lists, ofSurvey]

theorem carries_ofSurvey (hc : net.circuit.WellWired) (hfound : (withoutIds net.circuit).Surveyed found)
    {a b : NodeId} (ha : found.Lists a) (hb : found.Lists b) :
    (ofSurvey (withoutIds net.circuit) net.root found).wires.Carries net.circuit a b := by
  have hwires := restricts_ofSurvey (withoutIds net.circuit) net.root found
  have hwired := wellWired_withoutIds hc
  -- an edge joins leaves, and a listed leaf is among the leaves of the survey
  have htargets := hwires.count_targets (a := a) (b := b) fun hab => by
    rw [Wires.targets_ofCircuit] at hab
    obtain ⟨hleaf, hleaf'⟩ := hwired.joins a b hab
    simpa using And.intro (hfound.mem_leaves ha hleaf) (hfound.mem_leaves hb hleaf')
  rw [Wires.targets_ofCircuit, forwardOf_withoutIds] at htargets
  have hmirror := hwires.mirror (mirror_ofCircuit hwired.mirrored) a b
  exact ⟨htargets, by rw [← hmirror, htargets, hc.mirror]⟩

theorem explored_ofSurvey (hc : net.circuit.WellWired) (hports : net.circuit.PortsExist)
    (hroot : net.root < net.circuit.size) {maxDepth : Nat} (hfound : (withoutIds net.circuit).Surveyed found)
    (h : (withoutIds net.circuit).Branching net.root maxDepth found []) :
    Explored net.circuit net.root maxDepth (ofSurvey (withoutIds net.circuit) net.root found) := by
  have hreached : ∀ n, found.Lists n → ∃ path, net.circuit.Path net.root path n ∧ path.length < maxDepth ∧
      ∀ v ∈ path, found.Lists v := by
    intro n hn
    obtain ⟨path, hpath, hrest⟩ := h.listed n hn
    exact ⟨path, path_withoutIds.1 hpath, hrest⟩
  -- a listed node exists, because a path leads to it
  have hnode : ∀ n, found.Lists n → ∃ node, net.circuit.node? n = some node ∧
      node.isLeaf = (net.circuit.cell? n).isSome := by
    intro n hn
    obtain ⟨path, hpath, -⟩ := hreached n hn
    obtain ⟨node, hnode⟩ := Circuit.node?_of_lt (hpath.lt_size hports hc hroot n hpath.mem)
    exact ⟨node, hnode, Circuit.isLeaf_eq hnode⟩
  refine ⟨hfound.nodup, h.containers, ?leaf, ?container, ?start, ?reached, ?next, ?cuts⟩
  case leaf =>
    intro n hn
    have hn := Array.mem_def.2 hn
    obtain ⟨node, hnode, hkind⟩ := hnode n (Or.inl hn)
    rw [← cell?_withoutIds, hfound.leaf n hn] at hkind
    exact ⟨node, hnode, hkind⟩
  case container =>
    intro n hn
    have hn := Array.mem_def.2 hn
    obtain ⟨node, hnode, hkind⟩ := hnode n (Or.inr hn)
    rw [← cell?_withoutIds, hfound.container n hn] at hkind
    exact ⟨node, hnode, hkind⟩
  case start =>
    rcases h.start with hl | hcut | ⟨frame, hframe, -⟩
    · exact Or.inl (lists_ofSurvey.2 hl)
    · exact Or.inr (Array.mem_def.1 (h.cuts_iff.1 hcut))
    · cases hframe
  case reached =>
    intro n hn
    obtain ⟨path, hpath, hlength, hlisted⟩ := hreached n (lists_ofSurvey.1 hn)
    exact ⟨path, hpath, hlength, fun v hv => lists_ofSurvey.2 (hlisted v hv)⟩
  case next =>
    intro n m hn hm
    have hn := lists_ofSurvey.1 hn
    obtain ⟨node, hnode, hm⟩ := adjacent_withoutIds.2 hm
    rcases hfound.next n node hn hnode m hm with hl | hcut
    · exact Or.inl ⟨lists_ofSurvey.2 hl, carries_ofSurvey hc hfound hn hl, carries_ofSurvey hc hfound hl hn⟩
    · exact Or.inr (Array.mem_def.1 (h.cuts_iff.1 hcut))
  case cuts =>
    intro e he
    obtain ⟨m, path, heq, hpath, hrest⟩ := h.cuts e (Array.mem_def.2 he)
    exact ⟨m, path, heq, path_withoutIds.1 hpath, hrest⟩

/-! ## Compiled networks -/

theorem explored_compile (hc : net.circuit.WellWired) (hports : net.circuit.PortsExist)
    (hroot : net.root < net.circuit.size) (maxDepth : Nat) (unused : Bool) :
    ∃ net', net.compile ⟨maxDepth, false, unused⟩ = .ok net' ∧ net'.Numbered ∧
      Explored net.circuit net.root maxDepth net' := by
  obtain ⟨found, hsurvey, hfound⟩ := exists_survey hc hports hroot maxDepth
  obtain ⟨_, hcompiled⟩ := compiled_assignIds hc hfound ⟨maxDepth, false, unused⟩
  have hexplored := explored_ofSurvey hc hports hroot hfound (Circuit.branching_survey hsurvey)
  exact ⟨_, compile_of_survey hsurvey, hcompiled.numbered, { hexplored with }⟩

/-- Nothing is lost without a diagnostic: a neighbour of a listed node is listed, with all edges
between the two, or named by a diagnostic. Without diagnostics the lists are what can be reached
from the root, and there are none if the budget is larger than the circuit. -/
theorem compile_explores (net : Network P) (hc : net.circuit.Built) (hports : net.circuit.PortsExist)
    (hroot : net.root < net.circuit.size) (maxDepth : Nat) (unused : Bool) :
    ∃ net', net.compile ⟨maxDepth, false, unused⟩ = .ok net' ∧
      Explored net.circuit net.root maxDepth net' ∧
      (net'.diagnostics = [] → ∀ n, net'.Lists n ↔ Relation.ReflTransGen net.circuit.Adjacent net.root n) ∧
      (net.circuit.size < maxDepth → net'.diagnostics = []) := by
  obtain ⟨net', hcompile, -, hexplored⟩ := explored_compile hc.wellWired hports hroot maxDepth unused
  refine ⟨net', hcompile, hexplored, fun hcuts n => hexplored.lists_iff_reachable hcuts, ?_⟩
  exact hexplored.diagnostics_eq_nil hc.wellWired hports hroot

/-- Three gates in a row, and a container over the first two. -/
def relay : Circuit Unit :=
  let c := (Circuit.mk #[]).addLeaves [.gate .or, .gate .or, .gate .or]
  let c := [(0, 1), (1, 2)].foldl (fun c e => (c.connect e.1 e.2 false).circuit) c
  (c.addContainer [.single 0, .single 1] []).1

theorem built_relay : relay.Built := by
  have hgates := Circuit.Built.addLeaf (.addLeaf (.addLeaf (P := Unit) .empty (.gate .or)) (.gate .or)) (.gate .or)
  exact ((hgates.connect 0 1 false).connect 1 2 false).addContainer [.single 0, .single 1] []

theorem compile_explores_relay : relay.Built ∧ relay.PortsExist ∧ 3 < relay.size ∧ relay.size < 5 ∧
    ∃ net, (Network.mk relay 3 [] [] [] {}).compile ⟨5, false, false⟩ = .ok net ∧ net.leaves = [0, 1, 2] ∧
      Explored relay 3 5 net ∧ ∀ n, net.Lists n ↔ Relation.ReflTransGen relay.Adjacent 3 n := by
  have hports : relay.PortsExist := of_decide_eq_true (by cbv)
  have hroot : 3 < relay.size := of_decide_eq_true (by cbv)
  have hsize : relay.size < 5 := of_decide_eq_true (by cbv)
  have hleaves : ((Network.mk relay 3 [] [] [] {}).compile ⟨5, false, false⟩).toOption.map (·.leaves) =
      some [0, 1, 2] := by cbv
  obtain ⟨net, hcompile, hexplored, hreach, hcuts⟩ :=
    compile_explores (Network.mk relay 3 [] [] [] {}) built_relay hports hroot 5 false
  rw [hcompile] at hleaves
  exact ⟨built_relay, hports, hroot, hsize, net, hcompile, Option.some.inj hleaves, hexplored,
    hreach (hcuts hsize)⟩

/-- Exactly those leaves are listed, with their ids, to which a path shorter than the budget leads
without a node that was cut off and not met again in time. -/
theorem compile_lists_iff_path (net : Network P) (hc : net.circuit.Built) (hports : net.circuit.PortsExist)
    (hroot : net.root < net.circuit.size) (maxDepth : Nat) (unused : Bool) :
    ∃ net', net.compile ⟨maxDepth, false, unused⟩ = .ok net' ∧ ∀ n, (net.circuit.cell? n).isSome →
      ((n ∈ net'.leaves ∧ net'.idOf? n = some (net'.leaves.idxOf n)) ↔
        ∃ path, net.circuit.Path net.root path n ∧ path.length < maxDepth ∧
          ∀ v ∈ path, .depthExhausted v maxDepth ∈ net'.diagnostics → net'.Lists v) := by
  obtain ⟨net', hcompile, hids, hexplored⟩ := explored_compile hc.wellWired hports hroot maxDepth unused
  refine ⟨net', hcompile, fun n hn => ?_⟩
  obtain ⟨node, hnode⟩ := Circuit.node?_of_lt (Circuit.lt_size_of_cell? hn)
  rw [← hexplored.lists_iff_path, ← hexplored.mem_leaves_iff hnode ((Circuit.isLeaf_eq hnode).trans hn)]
  exact ⟨And.left, fun hmem => ⟨hmem, hids.listed n hmem⟩⟩

theorem compile_lists_iff_path_relay : relay.Built ∧ relay.PortsExist ∧ 3 < relay.size ∧
    ∃ net, (Network.mk relay 3 [] [] [] {}).compile ⟨4, false, false⟩ = .ok net ∧
      net.diagnostics = [.depthExhausted 2 4] ∧ relay.Path 3 [3, 1] 1 ∧ 1 ∈ net.leaves ∧
      net.idOf? 1 = some (net.leaves.idxOf 1) := by
  have hports : relay.PortsExist := of_decide_eq_true (by cbv)
  have hroot : 3 < relay.size := of_decide_eq_true (by cbv)
  have hcuts : ((Network.mk relay 3 [] [] [] {}).compile ⟨4, false, false⟩).toOption.map (·.diagnostics) =
      some [.depthExhausted 2 4] := by cbv
  have hpath : relay.Path 3 [3, 1] 1 := .next .root (of_decide_eq_true (by cbv))
  obtain ⟨net, hcompile, hlisted⟩ :=
    compile_lists_iff_path (Network.mk relay 3 [] [] [] {}) built_relay hports hroot 4 false
  rw [hcompile] at hcuts
  have hcuts : net.diagnostics = [.depthExhausted 2 4] := Option.some.inj hcuts
  refine ⟨built_relay, hports, hroot, net, hcompile, hcuts, hpath, ?_⟩
  refine (hlisted 1 (by cbv)).2 ⟨[3, 1], hpath, by decide, fun v hv hcut => ?_⟩
  rw [hcuts] at hcut
  cases List.mem_singleton.1 hcut
  simp at hv

/-- The last gate of the row is lost, although a path of three nodes leads to it and the budget is
four. The walk meets the second gate on the branch over the first one, where the next gate is out
of budget, and does not go on from it when it comes back on the short path. -/
theorem compile_loses_relay : relay.Built ∧ relay.PortsExist ∧ (relay.cell? 2).isSome ∧
    relay.Path 3 [3, 1, 2] 2 ∧ [3, 1, 2].length < 4 ∧
    ∃ net, (Network.mk relay 3 [] [] [] {}).compile ⟨4, false, false⟩ = .ok net ∧
      2 ∉ net.leaves ∧ net.idOf? 2 = none := by
  have hfirst : relay.Path 3 [3, 1] 1 := .next .root (of_decide_eq_true (by cbv))
  have hpath : relay.Path 3 [3, 1, 2] 2 := hfirst.next (of_decide_eq_true (by cbv))
  have hcompiled : ((Network.mk relay 3 [] [] [] {}).compile ⟨4, false, false⟩).toOption.map
      (fun net => (net.leaves, net.idOf? 2)) = some ([0, 1], none) := by cbv
  refine ⟨built_relay, of_decide_eq_true (by cbv), by cbv, hpath, by decide, ?_⟩
  cases hcompile : (Network.mk relay 3 [] [] [] {}).compile ⟨4, false, false⟩ with
  | error e =>
    rw [hcompile] at hcompiled
    cases hcompiled
  | ok net =>
    rw [hcompile] at hcompiled
    obtain ⟨hleaves, hid⟩ := Prod.mk.inj (Option.some.inj hcompiled)
    refine ⟨net, rfl, ?_, hid⟩
    rw [hleaves]
    decide

end Network

end Netlist
