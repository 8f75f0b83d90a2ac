/-
Compiling circuits that differ in the order of their edges. With enough budget the survey lists what
can be reached from the root, whatever its way, and elimination keeps what the edges and the pins
tell. So the same leaves are listed, in another order and with other ids, and each of them reads
the same sources in another order, which makes no difference to a gate or a timer.
-/
import Netlist.Proofs.Circuit.Edits
import Netlist.Proofs.Circuit.Reordering
import Netlist.Proofs.Network.Budget
import Netlist.Proofs.Network.DeadEnds
import Netlist.Proofs.Network.Simulation

namespace Netlist

variable {P : Type}

/-- All timers of a circuit are within the longest delay. -/
def Circuit.DelaysFit (c : Circuit P) : Prop :=
  ∀ node ∈ c.nodes, ∀ cell ∈ node.cell?, cell.delay ≤ maxDelay

instance (c : Circuit P) : Decidable c.DelaysFit :=
  inferInstanceAs (Decidable (∀ node ∈ c.nodes, ∀ cell ∈ node.cell?, cell.delay ≤ maxDelay))

namespace Network

/-! ## The same leaves -/

/-- Two networks with the same leaves and the same edges between them, in any order. -/
structure Reorders (net net' : Network P) : Prop where
  leaves : ∀ n, n ∈ net'.leaves ↔ n ∈ net.leaves
  pinned : ∀ n, net'.circuit.isPinned n = net.circuit.isPinned n
  targets : ∀ a b, b ∈ net'.wires.targets a ↔ b ∈ net.wires.targets a

namespace Reorders

variable {net net' : Network P} {n : NodeId}

theorem symm (h : Reorders net net') : Reorders net' net where
  leaves n := (h.leaves n).symm
  pinned n := (h.pinned n).symm
  targets a b := (h.targets a b).symm

theorem deadEnd (h : Reorders net net') (hn : net.DeadEnd n) : net'.DeadEnd n := by
  induction hn with
  | intro hn hp _ ih =>
    exact .intro ((h.leaves _).2 hn) ((h.pinned _).trans hp) fun m hm => ih m ((h.targets _ m).1 hm)

theorem reachesPinned (h : Reorders net net') (hn : net.ReachesPinned n) : net'.ReachesPinned n := by
  induction hn with
  | pinned hn hp => exact .pinned ((h.leaves _).2 hn) ((h.pinned _).trans hp)
  | feeds hab _ ih => exact .feeds ((h.targets _ _).2 hab) ih

theorem survives (h : Reorders net net') {o : CompileOptions} (hn : net.Survives o n) : net'.Survives o n := by
  refine ⟨(h.leaves n).2 hn.1, fun hends => ?_⟩
  have hkept := hn.2 hends
  split at hkept
  · next hloops =>
    rw [if_pos hloops]
    exact h.reachesPinned hkept
  · next hloops =>
    rw [if_neg hloops]
    exact fun hdead => hkept (h.symm.deadEnd hdead)

end Reorders

/-! ## Surveyed networks -/

theorem Explored.mem_leaves_iff_reachable {c : Circuit P} {root maxDepth : Nat} {net : Network P}
    (h : Explored c root maxDepth net) (hcuts : net.diagnostics = []) {n : NodeId} :
    n ∈ net.leaves ↔ (c.cell? n).isSome ∧ Relation.ReflTransGen c.Adjacent root n := by
  rw [← h.lists_iff_reachable hcuts]
  constructor
  · intro hn
    obtain ⟨node, hnode, hleaf⟩ := h.leaf n hn
    exact ⟨Circuit.isLeaf_eq hnode ▸ hleaf, Or.inl hn⟩
  · rintro ⟨hcell, hn⟩
    obtain ⟨node, hnode⟩ := Circuit.node?_of_lt (Circuit.lt_size_of_cell? hcell)
    exact (h.mem_leaves_iff hnode ((Circuit.isLeaf_eq hnode).trans hcell)).2 hn

/-- A circuit that was surveyed from a root, with a budget that is larger than the circuit. -/
structure Roomy (c : Circuit P) (root maxDepth : Nat) (found : Survey) : Prop where
  survey : (withoutIds c).survey root maxDepth = .ok found
  surveyed : (withoutIds c).Surveyed found
  explored : Explored c root maxDepth (ofSurvey (withoutIds c) root found)
  cuts : found.diagnostics = #[]

theorem exists_roomy {c : Circuit P} (hc : c.WellWired) (hports : c.PortsExist) {root : NodeId}
    (hroot : root < c.size) {maxDepth : Nat} (hsize : c.size < maxDepth) : ∃ found, Roomy c root maxDepth found := by
  obtain ⟨found, hsurvey, hfound⟩ := @exists_survey P { circuit := c, root } hc hports hroot maxDepth
  have hexplored := @explored_ofSurvey P { circuit := c, root } found hc hports hroot maxDepth hfound
    (Circuit.branching_survey hsurvey)
  exact ⟨found, hsurvey, hfound, hexplored,
    Array.toList_eq_nil_iff.1 (hexplored.diagnostics_eq_nil hc hports hroot hsize)⟩

variable {c c' : Circuit P} {root maxDepth : Nat} {found found' : Survey}

theorem Roomy.mem_leaves (h : Roomy c root maxDepth found) {n : NodeId} :
    n ∈ found.leaves.toList ↔ (c.cell? n).isSome ∧ Relation.ReflTransGen c.Adjacent root n :=
  h.explored.mem_leaves_iff_reachable (Array.toList_eq_nil_iff.2 h.cuts)

theorem Roomy.reorders (hcircuit : c.Reorders c') (h : Roomy c root maxDepth found)
    (h' : Roomy c' root maxDepth found') :
    Reorders (ofSurvey (withoutIds c) root found) (ofSurvey (withoutIds c') root found') := by
  have hleaves : ∀ n, n ∈ found'.leaves.toList ↔ n ∈ found.leaves.toList := fun n => by
    rw [h'.mem_leaves, h.mem_leaves, hcircuit.ports.cell?_eq, hcircuit.reachable_iff]
  refine ⟨hleaves, fun n => ?_, fun a b => ?_⟩
  · exact (isPinned_withoutIds c' n).trans ((hcircuit.pinned n).trans (isPinned_withoutIds c n).symm)
  · rw [(restricts_ofSurvey (withoutIds c') root found').mem_targets,
      (restricts_ofSurvey (withoutIds c) root found).mem_targets]
    simp only [Wires.targets_ofCircuit, forwardOf_withoutIds, (hcircuit.forward a).mem_iff, hleaves]

/-! ## Compiled networks -/

/-- Without diagnostics a compiled network has the behaviour of its circuit. -/
theorem Compiled.realizes {net net' : Network P} {keep : NodeId → Bool} (hc : net.circuit.WellWired)
    (hfound : (withoutIds net.circuit).Surveyed found) (h : Compiled net found keep net')
    (hcuts : found.diagnostics = #[]) : net'.Realizes net.circuit.schematic := by
  intro n hn
  have hlisted : n ∈ found.leaves := Array.mem_def.2 (h.prunes.mem_leaves.1 hn).1
  refine ⟨(h.prunes.cell?_eq n).trans (cell?_withoutIds ..), ?_⟩
  rw [h.prunes.sources_eq hn, sources_ofSurvey (wellWired_withoutIds hc) hfound hcuts net.root hlisted,
    backwardOf_withoutIds]
  exact .refl _

theorem Realizes.reorder {net : Network P} (h : net.Realizes c'.schematic) (hcircuit : c.Reorders c') :
    net.Realizes c.schematic := fun n hn =>
  ⟨(h n hn).1.trans (hcircuit.ports.cell?_eq n), (h n hn).2.trans (hcircuit.backward n)⟩

theorem Realizes.delaysFit {net : Network P} (h : net.Realizes c.schematic) (hdelays : c.DelaysFit) :
    net.DelaysFit := by
  refine delaysFit_iff.2 fun n hn cell hcell => ?_
  rw [(h n hn).1] at hcell
  obtain ⟨node, hnode, hcell⟩ := Option.bind_eq_some_iff.1 hcell
  exact hdelays node (Array.mem_of_getElem? hnode) cell hcell

theorem Roomy.compile (h : Roomy c root maxDepth found) (hc : c.WellWired) {o : CompileOptions}
    (ho : o.maxDepth = maxDepth) : ∃ net, (Network.mk c root [] [] [] {}).compile o = .ok net ∧ net.Sound ∧
      net.Numbered ∧ (∀ n, n ∈ net.leaves ↔ (ofSurvey (withoutIds c) root found).Survives o n) ∧
      net.Realizes c.schematic := by
  have hsound := sound_ofSurvey (wellWired_withoutIds hc) h.surveyed root
  obtain ⟨keep, hnet⟩ := @compiled_assignIds P found { circuit := c, root } hc h.surveyed o
  have hcompile := @compile_of_survey P found { circuit := c, root } o (ho ▸ h.survey)
  exact ⟨_, hcompile, hnet.prunes.sound hsound, hnet.numbered, mem_eliminate hsound o,
    hnet.realizes hc h.surveyed h.cuts⟩

/-- The order of wiring does not matter. If two circuits differ in the order of their edges only, as
they do after the same connections in another order, then they compile to the same leaves, and
every leaf has the same state in both simulators after any calls. Calls name nodes, and a leaf may
have different ids. -/
theorem compile_reorders (c c' : Circuit P) (hc : c.Built) (hc' : c'.Built) (h : c.Reorders c')
    (hports : c.PortsExist) (hdelays : c.DelaysFit) (root : NodeId) (hroot : root < c.size) (o : CompileOptions)
    (hsize : c.size < o.maxDepth) :
    (∃ start start' net net', ofRoot c root = .ok start ∧ ofRoot c' root = .ok start' ∧
      start.compile o = .ok net ∧ start'.compile o = .ok net' ∧ (∀ n, n ∈ net'.leaves ↔ n ∈ net.leaves) ∧
      ∀ so so' : SimulatorOptions, ∃ s s', Simulator.ofNetwork net so = .ok s ∧
        Simulator.ofNetwork net' so' = .ok s' ∧
        ∀ (ops : List Operation), ∀ n ∈ net.leaves, ∃ id id' state, net.idOf? n = some id ∧
          net'.idOf? n = some id' ∧
          (s.performAll (ops.filterMap (Operation.rename net.idOf?))).isActive? id = some state ∧
          (s'.performAll (ops.filterMap (Operation.rename net'.idOf?))).isActive? id' = some state) ∧
    ∀ calls calls' : List Circuit.Connection, calls'.Perm calls →
      (c.connectAll calls).Reorders (c.connectAll calls') := by
  have hsize' := h.ports.size_eq
  obtain ⟨found, hroomy⟩ := exists_roomy hc.wellWired hports hroot hsize
  obtain ⟨found', hroomy'⟩ := exists_roomy hc'.wellWired (h.portsExist hports) (hsize' ▸ hroot) (hsize' ▸ hsize)
  obtain ⟨net, hcompile, hsound, hnumbered, hleaves, hrealizes⟩ := hroomy.compile hc.wellWired rfl
  obtain ⟨net', hcompile', hsound', hnumbered', hleaves', hrealizes'⟩ := hroomy'.compile hc'.wellWired rfl
  have hreorders := hroomy.reorders h hroomy'
  have hsame : ∀ n, n ∈ net'.leaves ↔ n ∈ net.leaves := fun n => by
    rw [hleaves, hleaves']
    exact ⟨hreorders.symm.survives, hreorders.survives⟩
  -- both networks behave like the first circuit
  have hrealizes' := hrealizes'.reorder h
  refine ⟨⟨_, _, net, net', if_pos hroot, if_pos (hsize' ▸ hroot), hcompile, hcompile', hsame, fun so so' => ?_⟩,
    fun calls calls' hcalls => Circuit.reorders_connectAll c hcalls⟩
  obtain ⟨s, hs, hstates⟩ := simulates hsound hnumbered (hrealizes.delaysFit hdelays) so
  obtain ⟨s', hs', hstates'⟩ := simulates hsound' hnumbered' (hrealizes'.delaysFit hdelays) so'
  refine ⟨s, s', hs, hs', fun ops n hn => ?_⟩
  obtain ⟨id, hid, hstate⟩ := hstates _ hrealizes ops n hn
  obtain ⟨id', hid', hstate'⟩ := hstates' _ hrealizes' ops n ((hsame n).2 hn)
  exact ⟨id, id', _, hid, hid', hstate, hstate'⟩

/-- A gate, a timer and a pinned gate under a container. -/
def landing : Circuit Unit := (Circuit.mk #[]).editAll [.addGate .nor, .addTimer 1 0, .addGate .xor,
  .addContainer [.single 0] [.single 2], .pin 2]

/-- Connections between the three, with a double edge. -/
def stairs : List Circuit.Connection := [⟨0, 1, false⟩, ⟨0, 2, false⟩, ⟨1, 2, false⟩, ⟨0, 2, false⟩]

/-- Made in the reverse order, the connections give the timer and the pinned gate other ids. -/
theorem compile_reorders_stairs : ∃ c c' : Circuit Unit, c = landing.connectAll stairs ∧
    c' = landing.connectAll stairs.reverse ∧ c.Built ∧ c'.Built ∧ c.Reorders c' ∧ c.PortsExist ∧
    c.DelaysFit ∧ 0 < c.size ∧ c.size < 5 ∧
    ∃ start start' net net', ofRoot c 0 = .ok start ∧ ofRoot c' 0 = .ok start' ∧
      start.compile ⟨5, true, true⟩ = .ok net ∧ start'.compile ⟨5, true, true⟩ = .ok net' ∧
      net.leaves = [0, 1, 2] ∧ net'.leaves = [0, 2, 1] ∧
      ∃ s s', Simulator.ofNetwork net {} = .ok s ∧ Simulator.ofNetwork net' {} = .ok s' ∧
        ∀ ops : List Operation, ∃ id id' state, net.idOf? 2 = some id ∧ net'.idOf? 2 = some id' ∧
          (s.performAll (ops.filterMap (Operation.rename net.idOf?))).isActive? id = some state ∧
          (s'.performAll (ops.filterMap (Operation.rename net'.idOf?))).isActive? id' = some state := by
  have hlanding : landing.Built := Circuit.Built.empty.editAll _
  have hbuilt : (landing.connectAll stairs).Built := hlanding.connectAll
  have hbuilt' : (landing.connectAll stairs.reverse).Built := hlanding.connectAll
  have hreorders := Circuit.reorders_connectAll landing (List.reverse_perm stairs)
  have hports : (landing.connectAll stairs).PortsExist := of_decide_eq_true (by cbv)
  have hdelays : (landing.connectAll stairs).DelaysFit := of_decide_eq_true (by cbv)
  have hroot : 0 < (landing.connectAll stairs).size := of_decide_eq_true (by cbv)
  have hsize : (landing.connectAll stairs).size < 5 := of_decide_eq_true (by cbv)
  have hrun : (ofRoot (landing.connectAll stairs) 0 >>= (compile · ⟨5, true, true⟩)).toOption.map (·.leaves) =
      some [0, 1, 2] := by cbv
  have hrun' : (ofRoot (landing.connectAll stairs.reverse) 0 >>= (compile · ⟨5, true, true⟩)).toOption.map
      (·.leaves) = some [0, 2, 1] := by cbv
  obtain ⟨⟨start, start', net, net', hstart, hstart', hnet, hnet', -, hstates⟩, -⟩ :=
    compile_reorders _ _ hbuilt hbuilt' hreorders hports hdelays 0 hroot ⟨5, true, true⟩ hsize
  rw [hstart] at hrun
  rw [hstart'] at hrun'
  simp only [bind, Except.bind, hnet, hnet'] at hrun hrun'
  have hleaves : net.leaves = [0, 1, 2] := Option.some.inj hrun
  obtain ⟨s, s', hs, hs', hstate⟩ := hstates {} {}
  exact ⟨_, _, rfl, rfl, hbuilt, hbuilt', hreorders, hports, hdelays, hroot, hsize, start, start', net, net',
    hstart, hstart', hnet, hnet', hleaves, Option.some.inj hrun', s, s', hs, hs',
    fun ops => hstate ops 2 (by simp [hleaves])⟩

end Network

end Netlist
