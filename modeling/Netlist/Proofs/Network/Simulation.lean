/-
The simulator of a compiled network shows what its circuit does. Compiling drops leaves, turns nodes
into ids and lays their sources out in one array; the state of every listed leaf is still the one
that the synchronous semantics of the circuit gives to its node. Elimination, at any depth budget,
changes no state of a leaf that survives.
-/
import Mathlib.Tactic
import Netlist.Proofs.Network.Compile
import Netlist.Proofs.Network.Export
import Netlist.Proofs.Simulator.History

namespace Netlist

variable {P : Type}

/-- The synchronous semantics of a circuit: its leaves, which read the leaves that feed them. -/
def Circuit.schematic (c : Circuit P) : Schematic where
  cell? := c.cell?
  sources := c.backwardOf

namespace Network

/-- The semantics of the edges of a network. -/
def schematic (net : Network P) : Schematic where
  cell? := net.circuit.cell?
  sources := net.wires.sources

/-- The listed leaves are cells of a schematic with the same sources, in any order. -/
def Realizes (net : Network P) (σ : Schematic) : Prop :=
  ∀ n ∈ net.leaves, net.circuit.cell? n = σ.cell? n ∧ (net.wires.sources n).Perm (σ.sources n)

/-- All timers of a network are within the longest delay. -/
def DelaysFit (net : Network P) : Prop :=
  ∀ n ∈ net.leaves, ∀ ticks seconds, net.circuit.cell? n = some (.timer ticks seconds) →
    40 * seconds + ticks ≤ 2400

variable {net : Network P} {σ : Schematic}

theorem delaysFit_iff : net.DelaysFit ↔
    ∀ n ∈ net.leaves, ∀ cell ∈ net.circuit.cell? n, cell.delay ≤ maxDelay := by
  constructor
  · intro h n hn cell hcell
    cases cell with
    | gate mode => exact Nat.zero_le _
    | timer ticks seconds =>
      have hle := h n hn ticks seconds hcell
      simp only [Cell.delay, maxDelay, framesPerSecond]
      omega
  · intro h n hn ticks seconds hcell
    have hle := h n hn _ hcell
    simp only [Cell.delay, maxDelay, framesPerSecond] at hle
    omega

instance (net : Network P) : Decidable net.DelaysFit := decidable_of_iff' _ delaysFit_iff

/-! ## From nodes to ids -/

/-- The exported parts are the cells of the schematic, under their ids. -/
theorem embeds_parts (hnet : net.Sound) (hids : net.Numbered) {parts : List (Part P)}
    (hparts : List.Forall₂ net.Describes net.leaves parts) (hσ : net.Realizes σ) :
    σ.Embeds (Schematic.ofParts parts) (· ∈ net.leaves) net.idOf? (net.leaves.idxOf ·) where
  name_eq n hn := hids.listed n hn
  name_inj m n hn hm := by
    have hmem : m ∈ net.leaves := by
      by_contra hmem
      rw [hids.strays m hmem] at hm
      cases hm
    rw [hids.listed m hmem] at hm
    exact (List.idxOf_inj hmem).1 (Option.some.inj hm)
  cell n hn := by
    obtain ⟨p, hp, hdescribes⟩ := exists_part hparts hn
    rw [← (hσ n hn).1, hdescribes.cell, Schematic.cell?_ofParts hp]
  sources n hn := by
    obtain ⟨p, hp, hdescribes⟩ := exists_part hparts hn
    rw [Schematic.sources_ofParts hp, hdescribes.connectionsFrom]
    exact (hσ n hn).2.map _
  closed n hn m hm := (hnet.mem_of_mem_sources ((hσ n hn).2.mem_iff.2 hm)).1

/-- The simulator of a network shows the states of the schematic that the network realizes. -/
theorem simulates (hnet : net.Sound) (hids : net.Numbered) (hdelays : net.DelaysFit)
    (o : SimulatorOptions) : ∃ s, Simulator.ofNetwork net o = .ok s ∧
      ∀ σ, net.Realizes σ → ∀ (ops : List Operation), ∀ n ∈ net.leaves, ∃ id, net.idOf? n = some id ∧
        (s.performAll (ops.filterMap (Operation.rename net.idOf?))).isActive? id =
          some (σ.state ops n) := by
  obtain ⟨parts, heq, hparts⟩ := parts_eq_ok hnet hids
  have haccepted := accepted_parts hnet hparts (delaysFit_iff.1 hdelays)
  have hs := Simulator.ofParts_eq_ok (o := o) |>.2 ⟨haccepted, rfl⟩
  refine ⟨_, bind_eq_ok.2 ⟨parts, heq, hs⟩, fun σ hσ ops n hn => ⟨_, hids.listed n hn, ?_⟩⟩
  have hi : net.leaves.idxOf n < parts.length := by
    rw [← hparts.length_eq]
    exact List.idxOf_lt_length_of_mem hn
  rw [Simulator.isActive?_performAll hs _ hi]
  exact congrArg some ((embeds_parts hnet hids hparts hσ).state_eq ops hn)

/-! ## Compiled networks -/

/-- Compiling preserves behaviour. If no branch was cut off and the timers fit, then the simulator
of the compiled network shows for every listed leaf, looked up by its id, the state of its node in
the semantics of the circuit. Calls name nodes, and those for unlisted nodes do not reach the
simulator. -/
theorem compile_simulates (net : Network P) (hc : net.circuit.Built) (hports : net.circuit.PortsExist)
    (hroot : net.root < net.circuit.size) (o : CompileOptions) :
    ∃ net', net.compile o = .ok net' ∧ (net'.diagnostics = [] → net'.DelaysFit →
      ∀ o' : SimulatorOptions, ∃ s, Simulator.ofNetwork net' o' = .ok s ∧
        ∀ (ops : List Operation), ∀ n ∈ net'.leaves, ∃ id, net'.idOf? n = some id ∧
          (s.performAll (ops.filterMap (Operation.rename net'.idOf?))).isActive? id =
            some (net.circuit.schematic.state ops n)) := by
  have hwired := wellWired_withoutIds hc.wellWired
  obtain ⟨found, hfound, hcompile⟩ := compile_eq_ok hc.wellWired hports hroot o.maxDepth
  obtain ⟨net', keep, heq, hnet', -⟩ := hcompile o rfl
  have hsound := hnet'.prunes.sound (sound_ofSurvey hwired hfound net.root)
  refine ⟨net', heq, fun hempty hdelays o' => ?_⟩
  obtain ⟨s, hs, hstates⟩ := simulates hsound hnet'.numbered hdelays o'
  refine ⟨s, hs, hstates _ fun n hn => ⟨?_, ?_⟩⟩
  · rw [hnet'.prunes.cell?_eq]
    exact cell?_withoutIds ..
  · -- nothing was cut off, so a listed leaf reads all that it reads in the circuit
    have hlisted : n ∈ found.leaves := Array.mem_def.2 (hnet'.prunes.mem_leaves.1 hn).1
    have hcuts : found.diagnostics = #[] := by
      rw [hnet'.diagnostics] at hempty
      exact Array.toList_eq_nil_iff.1 hempty
    rw [hnet'.prunes.sources_eq hn, sources_ofSurvey hwired hfound hcuts net.root hlisted,
      backwardOf_withoutIds]
    rfl

/-- A gate and a timer that feed each other, with a gate behind them that feeds nothing. -/
def blinker : Circuit Unit :=
  let c := (((Circuit.mk #[]).addLeaf (.gate .nor)).1.addLeaf (.timer 2 0)).1
  let c := ((c.addLeaf (.gate .or)).1.connect 0 1 false).circuit
  ((c.connect 1 0 false).circuit.connect 1 2 false).circuit.markPinned 0

theorem built_blinker : blinker.Built := by
  have hleaves := Circuit.Built.addLeaf (.addLeaf (.addLeaf (P := Unit) .empty (.gate .nor)) (.timer 2 0))
    (.gate .or)
  have hwired := ((hleaves.connect 0 1 false).connect 1 0 false).connect 1 2 false
  exact hwired.pin (n := 0) (by cbv)

theorem compile_simulates_blinker : blinker.Built ∧ blinker.PortsExist ∧ 0 < blinker.size ∧
    ∃ net, (Network.mk blinker 0 [] [] [] {}).compile {} = .ok net ∧ net.diagnostics = [] ∧
      net.DelaysFit ∧ ∃ s, Simulator.ofNetwork net {} = .ok s ∧ ∀ ops : List Operation, ∃ id, net.idOf? 1 = some id ∧
        (s.performAll (ops.filterMap (Operation.rename net.idOf?))).isActive? id =
          some (blinker.schematic.state ops 1) := by
  have hports : blinker.PortsExist := of_decide_eq_true (by cbv)
  have hroot : 0 < blinker.size := of_decide_eq_true (by cbv)
  have hfound : ((Network.mk blinker 0 [] [] [] {}).compile {}).toOption.map
      (fun net => (net.diagnostics, net.leaves, decide net.DelaysFit)) = some ([], [0, 1], true) := by
    cbv
  obtain ⟨net, hnet, h⟩ := compile_simulates (Network.mk blinker 0 [] [] [] {}) built_blinker hports
    hroot {}
  rw [hnet] at hfound
  obtain ⟨hdiagnostics, hleaves, hdelays⟩ : net.diagnostics = [] ∧ net.leaves = [0, 1] ∧
      net.DelaysFit := by simpa [Except.toOption] using hfound
  obtain ⟨s, hs, hstates⟩ := h hdiagnostics hdelays {}
  exact ⟨built_blinker, hports, hroot, net, hnet, hdiagnostics, hdelays, s, hs,
    fun ops => hstates ops 1 (by simp [hleaves])⟩

/-- Elimination never changes what survives. Compiled with and without elimination at one depth
budget, whether or not branches are cut off, every leaf that survives, and so every pinned leaf,
has the same state in both simulators. Calls name nodes; those for eliminated leaves reach only the
simulator of the full network. -/
theorem eliminate_simulates (net : Network P) (hc : net.circuit.Built) (hports : net.circuit.PortsExist)
    (hroot : net.root < net.circuit.size) (maxDepth : Nat) (unused loops : Bool) :
    ∃ full lean, net.compile ⟨maxDepth, false, unused⟩ = .ok full ∧
      net.compile ⟨maxDepth, true, loops⟩ = .ok lean ∧
      (∀ n ∈ lean.leaves, n ∈ full.leaves) ∧
      (∀ n ∈ full.leaves, net.circuit.isPinned n = true → n ∈ lean.leaves) ∧
      (full.DelaysFit → ∀ o o' : SimulatorOptions, ∃ s s', Simulator.ofNetwork full o = .ok s ∧
        Simulator.ofNetwork lean o' = .ok s' ∧
        ∀ (ops : List Operation), ∀ n ∈ lean.leaves, ∃ id id' state,
          full.idOf? n = some id ∧ lean.idOf? n = some id' ∧
          (s.performAll (ops.filterMap (Operation.rename full.idOf?))).isActive? id = some state ∧
          (s'.performAll (ops.filterMap (Operation.rename lean.idOf?))).isActive? id' = some state) := by
  have hwired := wellWired_withoutIds hc.wellWired
  obtain ⟨found, hfound, hcompile⟩ := compile_eq_ok hc.wellWired hports hroot maxDepth
  obtain ⟨full, keep, heq, hfull, hall⟩ := hcompile ⟨maxDepth, false, unused⟩ rfl
  obtain ⟨lean, keep', heq', hlean, -⟩ := hcompile ⟨maxDepth, true, loops⟩ rfl
  have hsurveyed := sound_ofSurvey hwired hfound net.root
  have hleaves : full.leaves = (ofSurvey (withoutIds net.circuit) net.root found).leaves := hall rfl
  have hsub : ∀ n ∈ lean.leaves, n ∈ full.leaves := by
    intro n hn
    rw [hleaves]
    exact (hlean.prunes.mem_leaves.1 hn).1
  refine ⟨full, lean, heq, heq', hsub, ?_, ?_⟩
  · intro n hn hp
    rw [hleaves] at hn
    refine hlean.prunes.mem_leaves.2 ⟨hn, hlean.prunes.pinned n hn ?_⟩
    exact (isPinned_withoutIds ..).trans hp
  · intro hdelays o o'
    have hcell : ∀ n, lean.circuit.cell? n = full.circuit.cell? n := by
      intro n
      rw [hlean.prunes.cell?_eq, hfull.prunes.cell?_eq]
    have hdelays' : lean.DelaysFit := by
      intro n hn ticks seconds htimer
      rw [hcell] at htimer
      exact hdelays n (hsub n hn) ticks seconds htimer
    -- both networks are parts of the surveyed one, and their leaves read what they read there
    have hrealizes : lean.Realizes full.schematic := by
      intro n hn
      refine ⟨hcell n, ?_⟩
      change (lean.wires.sources n).Perm (full.wires.sources n)
      rw [hlean.prunes.sources_eq hn, hfull.prunes.sources_eq (hsub n hn)]
    obtain ⟨s, hs, hstates⟩ := simulates (hfull.prunes.sound hsurveyed) hfull.numbered hdelays o
    obtain ⟨s', hs', hstates'⟩ := simulates (hlean.prunes.sound hsurveyed) hlean.numbered hdelays' o'
    refine ⟨s, s', hs, hs', ?_⟩
    intro ops n hn
    obtain ⟨id, hid, hstate⟩ := hstates full.schematic (fun _ _ => ⟨rfl, .refl _⟩) ops n (hsub n hn)
    obtain ⟨id', hid', hstate'⟩ := hstates' full.schematic hrealizes ops n hn
    exact ⟨id, id', _, hid, hid', hstate, hstate'⟩

/-- A budget of 4 cuts nothing off the blinker, and the gate that feeds nothing is eliminated. -/
theorem eliminate_simulates_blinker : blinker.Built ∧ blinker.PortsExist ∧ 0 < blinker.size ∧
    ∃ full lean, (Network.mk blinker 0 [] [] [] {}).compile ⟨4, false, false⟩ = .ok full ∧
      (Network.mk blinker 0 [] [] [] {}).compile ⟨4, true, true⟩ = .ok lean ∧
      full.leaves = [0, 1, 2] ∧ lean.leaves = [0, 1] ∧ full.DelaysFit ∧
      ∃ s s', Simulator.ofNetwork full {} = .ok s ∧ Simulator.ofNetwork lean {} = .ok s' ∧
        ∀ ops : List Operation, ∃ id id' state, full.idOf? 1 = some id ∧ lean.idOf? 1 = some id' ∧
          (s.performAll (ops.filterMap (Operation.rename full.idOf?))).isActive? id = some state ∧
          (s'.performAll (ops.filterMap (Operation.rename lean.idOf?))).isActive? id' = some state := by
  have hports : blinker.PortsExist := of_decide_eq_true (by cbv)
  have hroot : 0 < blinker.size := of_decide_eq_true (by cbv)
  have hfull : ((Network.mk blinker 0 [] [] [] {}).compile ⟨4, false, false⟩).toOption.map
      (fun net => (net.leaves, decide net.DelaysFit)) = some ([0, 1, 2], true) := by cbv
  have hlean : ((Network.mk blinker 0 [] [] [] {}).compile ⟨4, true, true⟩).toOption.map (·.leaves) =
      some [0, 1] := by cbv
  obtain ⟨full, lean, hcompile, hcompile', -, -, h⟩ := eliminate_simulates
    (Network.mk blinker 0 [] [] [] {}) built_blinker hports hroot 4 false true
  rw [hcompile] at hfull
  rw [hcompile'] at hlean
  obtain ⟨hleaves, hdelays⟩ : full.leaves = [0, 1, 2] ∧ full.DelaysFit := by simpa [Except.toOption] using hfull
  have hleaves' : lean.leaves = [0, 1] := Option.some.inj hlean
  obtain ⟨s, s', hs, hs', hstates⟩ := h hdelays {} {}
  exact ⟨built_blinker, hports, hroot, full, lean, hcompile, hcompile', hleaves, hleaves', hdelays,
    s, s', hs, hs', fun ops => hstates ops 1 (by simp [hleaves'])⟩

end Network

end Netlist
