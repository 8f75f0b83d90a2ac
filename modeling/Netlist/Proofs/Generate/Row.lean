/-
Networks whose leaves are in a row, as those of chains and timer rings are. Each leaf feeds the next one,
and other edges lead to the first leaf only. They compile to their leaves in order, so that each leaf
has its place as its id, and their simulators show the rows of a table.
-/
import Netlist.Proofs.Circuit.Row
import Netlist.Proofs.Generate.Entire
import Netlist.Proofs.Script

namespace Netlist

variable {P : Type}

namespace Circuit

/-- Every leaf but the first one reads the one before it. -/
def InSequence (c : Circuit P) (count : Nat) : Prop := ∀ k, c.backwardOf (k + 1) = if k + 1 < count then [k] else []

/-- A leaf in sequence feeds the next one, and no other leaf behind itself. -/
theorem row_of_inSequence {c : Circuit P} (hc : c.Built) {count : Nat}
    (hleaves : ∀ n : Nat, (c.cell? n).isSome ↔ n < count) (h : c.InSequence count) : c.Row count := by
  have hwired := hc.wellWired
  intro k hk
  have hcell := (hleaves k).2 hk
  obtain ⟨node, hnode⟩ := node?_of_lt (lt_size_of_cell? hcell)
  have hleaf : node.isLeaf = true := (isLeaf_eq hnode).trans hcell
  obtain ⟨hinputs, houtputs⟩ := hc.ownPorts k node hnode hleaf
  have hneighbours : node.neighbours = [k, k] ++ (c.forwardOf k ++ c.backwardOf k) := by
    simp [Node.neighbours, Node.exposed, Node.slots, hinputs, houtputs, Port.nodes, forwardOf, backwardOf, hnode]
  refine ⟨node, hnode, hleaf, fun m hm => ?_, fun hnext => ?_⟩
  · rw [hneighbours, List.mem_append, List.mem_append] at hm
    rcases hm with hm | hm | hm
    · rw [show m = k by simpa using hm]
      exact hk
    · exact (hleaves m).1 (hwired.joins k m hm).2
    · exact (hleaves m).1 (hwired.joins m k (hwired.mem_backwardOf.1 hm)).1
  · have hmem : k + 1 ∈ c.forwardOf k := by
      rw [← hwired.mem_backwardOf, h k, if_pos hnext]
      exact List.mem_singleton_self k
    obtain ⟨front, back, hforward, hfirst⟩ := List.eq_append_cons_of_mem hmem
    refine ⟨[k, k] ++ front, back ++ c.backwardOf k, ?_, fun m hm => ?_⟩
    · rw [hneighbours, hforward]
      simp
    · rcases List.mem_append.1 hm with hm | hm
      · exact Nat.le_of_eq (by simpa using hm)
      -- a target of the leaf other than the next one is the first leaf
      cases m with
      | zero => exact Nat.zero_le k
      | succ m =>
        have hback : k ∈ c.backwardOf (m + 1) := by
          rw [hwired.mem_backwardOf, hforward]
          exact List.mem_append_left _ hm
        rw [h m] at hback
        split at hback
        · rw [List.mem_singleton.1 hback] at hfirst
          exact absurd hm hfirst
        · cases hback

end Circuit

namespace Generate

open Circuit

/-! ## Edges in sequence -/

/-- In a sequence every node but the first one has the node before it as its source. -/
theorem sourcesIn_inSequence (n k : Nat) :
    sourcesIn (inSequence (List.range n)) (k + 1) = if k + 1 < n then [k] else [] := by
  have key : ∀ m, sourcesIn ((List.range m).map fun i => (i, i + 1)) (k + 1) = if k < m then [k] else [] := by
    intro m
    induction m with
    | zero => rfl
    | succ m ih =>
      rw [List.range_succ, List.map_append, sourcesIn_append, ih]
      rcases Nat.lt_trichotomy k m with hk | rfl | hk
      · have hne : m ≠ k := Nat.ne_of_gt hk
        simp [sourcesIn, hk, hne, Nat.lt_succ_of_lt hk]
      · simp [sourcesIn]
      · have hne : m ≠ k := Nat.ne_of_lt hk
        simp [sourcesIn, hne, Nat.lt_asymm hk, Nat.not_lt_of_ge hk]
  rw [inSequence_range, key]
  exact if_congr Nat.lt_sub_iff_add_lt rfl rfl

/-! ## Compiling a row -/

section Row

variable {cells : List Cell} {edges : List (NodeId × NodeId)} {outputs : List NodeId} {net : Network P}

/-- A root that exposes the first leaf before the others leads the survey down the row. -/
theorem WiredNetwork.compile_row (h : WiredNetwork cells edges [0] outputs net) (hcount : 0 < cells.length)
    (houtputs : ∀ n : Nat, n ∈ outputs → n < cells.length) (hleads : Leads net.circuit [0] outputs)
    (hrow : net.circuit.InSequence cells.length) {o : CompileOptions} (ho : net.circuit.size < o.maxDepth) :
    ∃ compiled, net.compile o = .ok compiled ∧ net.Entire o compiled ∧
      compiled.leaves = List.range cells.length := by
  obtain ⟨compiled, hcompile, hentire⟩ := h.compile_entire hleads ho
  have hwired := h.built.wellWired
  obtain ⟨node, hnode, hkind, hinputs, hnodeOutputs⟩ := h.exists_root
  have hneighbours : node.neighbours = 0 :: (outputs ++ (net.circuit.forwardOf net.root ++
      net.circuit.backwardOf net.root)) := by
    simp [Node.neighbours, Node.exposed, Node.slots, hinputs, hnodeOutputs, Port.nodes, forwardOf, backwardOf, hnode,
      flatMap_single]
  have hrest : ∀ m ∈ outputs ++ (net.circuit.forwardOf net.root ++ net.circuit.backwardOf net.root),
      m < cells.length := by
    intro m hm
    rcases List.mem_append.1 hm with hm | hm
    · exact houtputs m hm
    rcases List.mem_append.1 hm with hm | hm
    · exact (h.isSome_cell?_iff m).1 (hwired.joins _ m hm).2
    · exact (h.isSome_cell?_iff m).1 (hwired.joins m _ (hwired.mem_backwardOf.1 hm)).1
  have hcontainer : node.isLeaf = false := by rw [Node.isLeaf, hkind]
  have hbudget : cells.length + 1 < o.maxDepth := h.size ▸ ho
  have hsurvey := survey_row (row_of_inSequence h.built h.isSome_cell?_iff hrow) hnode hcontainer hneighbours hrest
    hcount hbudget
  exact ⟨compiled, hcompile, hentire, Except.ok.inj (hentire.order.symm.trans hsurvey)⟩

theorem idxOf_range {n k : Nat} (hk : k < n) : (List.range n).idxOf k = k := by
  have hlt : k < (List.range n).length := by rwa [List.length_range]
  simpa using List.nodup_range.idxOf_getElem k hlt

/-- What a network in a row compiles to: the ids are the places, and a table of the cells and their sources
tells all states. -/
theorem WiredNetwork.simulates_row (h : WiredNetwork cells edges [0] outputs net) {count : Nat}
    (hcells : cells.length = count) (hcount : 0 < count) (houtputs : ∀ n : Nat, n ∈ outputs → n < count)
    (hleads : Leads net.circuit [0] outputs) (hrow : net.circuit.InSequence count)
    (hdelays : ∀ cell ∈ cells, cell.delay ≤ maxDelay) {o : CompileOptions} (ho : count + 1 < o.maxDepth) :
    ∃ compiled, net.compile o = .ok compiled ∧ compiled.leaves = List.range count ∧
      (∀ k < count, compiled.idOf? k = some k) ∧
      ∀ so : SimulatorOptions, ∃ s, Simulator.ofNetwork compiled so = .ok s ∧
        ∀ calls rows, (∀ t, ∀ call ∈ calls t, call.1 < count) → (∀ k < count, rows 0 k = false) →
          (∀ k cell, cells[k]? = some cell → ∀ t, rows (t + 1) k =
            (Operation.held calls (t + 1) k).getD (cell.next rows t (sourcesIn edges k))) →
          ∀ t, ∀ k < count, (s.performAll (Operation.script calls t)).isActive? k = some (rows t k) := by
  subst hcells
  rw [← h.size] at ho
  obtain ⟨compiled, hcompile, hentire, hleaves⟩ := h.compile_row hcount houtputs hleads hrow ho
  have hids : ∀ k < cells.length, compiled.idOf? k = some k := by
    intro k hk
    have hlisted : k ∈ compiled.leaves := by
      rw [hleaves]
      exact List.mem_range.2 hk
    rw [hentire.numbered.listed k hlisted, hleaves, idxOf_range hk]
  have hfit : compiled.DelaysFit := Network.delaysFit_iff.2 fun n hn cell hcell => by
    rw [(hentire.realizes n hn).1] at hcell
    exact hdelays cell (List.mem_of_getElem? ((h.cell n).symm.trans hcell))
  refine ⟨compiled, hcompile, hleaves, hids, fun so => ?_⟩
  obtain ⟨s, hs, hstates⟩ := Network.simulates hentire.sound hentire.numbered hfit so
  refine ⟨s, hs, fun calls rows hcalls hstart hlaw t k hk => ?_⟩
  have htable : net.circuit.schematic.Table (· < cells.length) calls rows := by
    refine ⟨fun n hn m hm => ?_, hstart, fun n hn => ⟨cells[n], ?_, fun t => ?_⟩⟩
    · have hwired := h.built.wellWired
      exact (h.isSome_cell?_iff m).1 (hwired.joins m n (hwired.mem_backwardOf.1 hm)).1
    · exact (h.cell n).trans (List.getElem?_eq_getElem hn)
    · show _ = (Operation.held calls (t + 1) n).getD (cells[n].next rows t (net.circuit.backwardOf n))
      rw [h.sources]
      exact hlaw n _ (List.getElem?_eq_getElem hn) t
  have hlisted : k ∈ compiled.leaves := by
    rw [hleaves]
    exact List.mem_range.2 hk
  obtain ⟨id, hid, hstate⟩ := hstates _ hentire.realizes (Operation.script calls t) k hlisted
  cases hid.symm.trans (hids k hk)
  rw [Operation.filterMap_rename_script fun t call hcall => hids call.1 (hcalls t call hcall)] at hstate
  rw [hstate, htable.state_eq t hk]

end Row

end Generate

end Netlist
