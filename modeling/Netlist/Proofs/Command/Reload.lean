/-
A generated part list that is read from its file again. Placing gives every part a look that the format keeps,
and it leaves what a simulator reads alone, so the list that was written is the list that is read, and simulating
it is simulating the compiled network.
-/
import Netlist.Proofs.Command.Export
import Netlist.Proofs.Command.Simulate
import Netlist.Proofs.Generate.Plain
import Netlist.Proofs.Network.Passes
import Netlist.Proofs.Network.Settling
import Netlist.Proofs.Part.Placement

namespace Netlist

variable {P : Type}

/-! ## Exported parts -/

/-- The ids of a closed list have 32 bits if there are not too many. -/
theorem ClosedParts.fits {parts : List (Part P)} (h : ClosedParts parts) (hsize : parts.length ≤ 0x100000000) :
    ∀ p ∈ parts, p.Fits := by
  intro p hp
  obtain ⟨i, hi⟩ := List.getElem?_of_mem hp
  have hlt : i < parts.length := (List.getElem?_eq_some_iff.1 hi).1
  refine ⟨?_, fun j hj => ?_, fun j hj => ?_⟩
  · rw [h.id i p hi]
    exact Nat.lt_of_lt_of_le hlt hsize
  · exact Nat.lt_of_lt_of_le (h.target p hp j hj) hsize
  · exact Nat.lt_of_lt_of_le (h.source p hp j hj) hsize

namespace Network

variable {net : Network P}

theorem payload_of_describe {n : NodeId} {p : Part P} (h : net.describe n = .ok p) :
    ∃ node, net.circuit.node? n = some node ∧ p.payload = node.payload := by
  obtain ⟨node, hnode, h⟩ := bind_eq_ok.1 h
  refine ⟨node, Circuit.fetch_eq_ok.1 hnode, ?_⟩
  split at h
  · cases h
  · obtain ⟨_, -, h⟩ := bind_eq_ok.1 h
    obtain ⟨_, -, h⟩ := bind_eq_ok.1 h
    obtain ⟨_, -, h⟩ := bind_eq_ok.1 h
    cases h
    rfl

theorem payload_eq_none (hplain : net.circuit.Plain) {parts : List (Part P)} (h : net.parts = .ok parts) :
    ∀ p ∈ parts, p.payload = none := by
  intro p hp
  obtain ⟨n, -, hn⟩ := exists_of_mem_mapM h p hp
  obtain ⟨node, hnode, hpayload⟩ := payload_of_describe hn
  rw [hpayload, hplain n node hnode]

theorem Describes.moved {net : Network Appearance} {n : NodeId} {p q : Part Appearance} (h : net.Describes n p)
    (hmoved : p.Moved q) : net.Describes n q := by
  obtain ⟨pos, -, rfl⟩ := hmoved
  exact ⟨h.id, h.cell, h.connections, h.connectionsFrom, h.pinned⟩

theorem describes_moved {net : Network Appearance} {ns : List NodeId} {parts placed : List (Part Appearance)}
    (h : List.Forall₂ net.Describes ns parts) (hmoved : List.Forall₂ Part.Moved parts placed) :
    List.Forall₂ net.Describes ns placed := by
  induction h generalizing placed with
  | nil => cases hmoved; exact .nil
  | cons hdescribes _ ih =>
    cases hmoved with
    | cons hfirst hrest => exact .cons (hdescribes.moved hfirst) (ih hrest)

/-- The parts of a network in their places. They describe the leaves as the exported ones do, and their looks
have 32 bits. -/
structure Placed (net : Network Appearance) (placed : List (Part Appearance)) : Prop where
  sound : net.Sound
  moved : ∃ parts, net.parts = .ok parts ∧ List.Forall₂ Part.Moved parts placed
  describes : List.Forall₂ net.Describes net.leaves placed
  looks : ∀ q ∈ placed, ∀ a, q.payload = some a → a.Fits

theorem placed_of_place {net : Network Appearance} (hnet : net.Sound) (hids : net.Numbered)
    (hplain : net.circuit.Plain) {placement : Placement} (hplacement : placement.Fits)
    {parts placed : List (Part Appearance)} (hparts : net.parts = .ok parts)
    (hplaced : place parts placement = .ok placed) : net.Placed placed := by
  obtain ⟨_, hparts', hdescribes⟩ := parts_eq_ok hnet hids
  cases hparts.symm.trans hparts'
  have hmoved := moved_place hplacement hplaced
  refine ⟨hnet, ⟨parts, hparts, hmoved⟩, describes_moved hdescribes hmoved, fun q hq => ?_⟩
  obtain ⟨i, hi⟩ := List.getElem?_of_mem hq
  obtain ⟨p, hp, hpq⟩ := getElem?_of_forall₂ hmoved hi
  exact hpq.appearance_fits (payload_eq_none hplain hparts p (List.mem_of_getElem? hp))

namespace Placed

variable {net : Network Appearance} {placed : List (Part Appearance)}

/-- Parts are read from the file that they were written to, unless a device took them. -/
theorem readPartFile_eq_ok (h : net.Placed placed) (hsize : net.leaves.length ≤ 0x100000000) {disk written : Disk}
    {path : String} (hwritten : writePartFile disk path placed = (written, none)) :
    checkLimits placed = .ok () ∧
      (disk.IsDevice path ∧ written = disk ∨ readPartFile written path = .ok placed) := by
  obtain ⟨hlimits, hread⟩ := writePartFile_eq_ok hwritten
  have hfits := (closed_parts h.sound h.describes).fits (h.describes.length_eq ▸ hsize)
  have hkept := PartList.read_render hlimits hfits fun q hq a ha => PartList.keeps_appearance (h.looks q hq a ha)
  exact ⟨hlimits, hread.imp_right fun hread => bind_eq_ok.2 ⟨_, hread, hkept⟩⟩

/-- Parts within the limits make the simulator of their network. -/
theorem exists_simulator (h : net.Placed placed) (hlimits : checkLimits placed = .ok ()) (o : SimulatorOptions) :
    ∃ start, Simulator.ofNetwork net o = .ok start ∧ Simulator.ofParts placed o = .ok start := by
  obtain ⟨parts, hparts, hmoved⟩ := h.moved
  have hclosed := closed_parts h.sound h.describes
  have haccepted : Accepted placed :=
    ⟨hclosed.id, hclosed.source, fun p hp => (checkLimits_eq_ok.1 hlimits p hp).1⟩
  have hstart := Simulator.ofParts_eq_ok (o := o) |>.2 ⟨haccepted, rfl⟩
  exact ⟨_, bind_eq_ok.2 ⟨parts, hparts, (Simulator.ofParts_of_moved hmoved o).symm.trans hstart⟩, hstart⟩

/-- A part is pinned if the leaf at its position is. -/
theorem pinned_eq (h : net.Placed placed) {i : Nat} {p : Part Appearance} (hp : placed[i]? = some p) :
    p.pinned = net.circuit.isPinned (net.leafAt i) := by
  obtain ⟨n, hn, rfl, hleaf⟩ := exists_leaf h.sound h.describes hp
  rw [hleaf.pinned, leafAt_idxOf hn]

end Placed

end Network

namespace GenerateSettings

variable {g : GenerateSettings} {net : Network Appearance} {disk : Disk}

/-! ## The compiled network -/

theorem built_network (h : g.network = .ok net) : net.circuit.Built := by
  unfold network at h
  split at h
  · exact Generate.built_chain h
  · exact Generate.built_mesh h
  · exact Generate.built_rippleCarry h
  · exact Generate.built_random h

theorem plain_network (h : g.network = .ok net) : net.circuit.Plain := by
  unfold network at h
  split at h
  · exact Generate.plain_chain h
  · exact Generate.plain_mesh h
  · exact Generate.plain_rippleCarry h
  · exact Generate.plain_random h

theorem orderly_compiled (h : g.compiled = .ok net) : net.Orderly ∧ net.Numbered ∧ net.circuit.Plain := by
  obtain ⟨generated, hgenerated, h⟩ := bind_eq_ok.1 h
  obtain ⟨horderly, hids⟩ := Network.orderly_compile (built_network hgenerated).wellWired h
  exact ⟨horderly, hids, (plain_network hgenerated).of_withoutIds (Network.withoutIds_compile h)⟩

theorem fits_partPlacement (h : fitsCoordinate g.spacing = true) : g.partPlacement.Fits := by
  unfold partPlacement
  split
  · trivial
  · exact h

/-! ## The written list -/

/-- A run without a failure writes the parts of the compiled network, in their places. -/
theorem run_eq_ok (h : (g.run disk).failure = none) : ∃ net placed, g.compiled = .ok net ∧
    g.placedParts net = .ok placed ∧ writePartFile disk g.output placed = ((g.run disk).disk, none) ∧
    (g.run disk).output = String.join (net.diagnostics.map warning) ++ (Stats.ofParts placed).render ++ "\n" := by
  unfold run at h ⊢
  cases hcompiled : g.compiled with
  | error e => simp [hcompiled] at h
  | ok net =>
    cases hplaced : g.placedParts net with
    | error e => simp [hcompiled, hplaced] at h
    | ok placed =>
      rcases hwritten : writePartFile disk g.output placed with ⟨written, _ | e⟩
      · exact ⟨net, placed, rfl, hplaced, by simp [hplaced, hwritten], by simp [hplaced, hwritten]⟩
      · simp [hcompiled, hplaced, hwritten] at h

theorem placed_placedParts (hspacing : fitsCoordinate g.spacing = true) (hcompiled : g.compiled = .ok net)
    {placed : List (Part Appearance)} (hplaced : g.placedParts net = .ok placed) : net.Placed placed := by
  obtain ⟨horderly, hids, hplain⟩ := orderly_compiled hcompiled
  obtain ⟨parts, hparts, hplace⟩ := bind_eq_ok.1 hplaced
  exact Network.placed_of_place horderly.sound hids hplain (fits_partPlacement hspacing) hparts hplace

/-- A run does not fail if the parts are within the limits and can be stored. -/
theorem failure_run_eq_none {placed : List (Part Appearance)} {place : Place} (hcompiled : g.compiled = .ok net)
    (hplaced : g.placedParts net = .ok placed) (hlimits : checkLimits placed = .ok ())
    (hplace : disk.destination g.output = .ok place) (hstores : disk.Stores place) :
    (g.run disk).failure = none := by
  obtain ⟨written, hwritten⟩ := exists_writePartFile hplace hstores hlimits
  simp only [run, hcompiled, hplaced, hwritten]

/-! ## Reading it again -/

/-- A file stands for a compiled network. The parts of the network are read from it, and the statistics are
those of these parts. It is simulated as the network itself, however both split their parts: there is one line
for each pinned leaf, in the order of the ids, and it shows the state that the leaf has in the simulator of the
network after the same drives, of which the last one for a leaf counts, and the same frames. -/
structure StandsFor (disk : Disk) (path : String) (net : Network Appearance) (placed : List (Part Appearance)) :
    Prop where
  read : readPartFile disk path = .ok placed
  stats : StatsSettings.run ⟨path⟩ disk =
    { disk, output := "Part list stats:\n" ++ (Stats.ofParts placed).render ++ "\n\n\n" }
  simulate : ∀ s : SimulateSettings, s.file = path → (∀ d ∈ s.drives, d.part < net.leaves.length) →
    ∀ o : SimulatorOptions, ∃ start driven, ∃ states : Nat → Bool, Simulator.ofNetwork net o = .ok start ∧
      s.drives.foldlM (fun sim d => sim.drive d.part (some d.state)) start = .ok driven ∧
      (∀ i < net.leaves.length, driven.driven.getD i none = (s.drives.reverse.find? (·.part == i)).map (·.state)) ∧
      (∀ i < net.leaves.length, (driven.run s.frames).isActive? i = some (states i)) ∧
      s.run disk =
        { disk
          output := String.join (((List.range net.leaves.length).filter fun i =>
            net.circuit.isPinned (net.leafAt i)).map fun i => SimulateSettings.stateLine i (states i)) }

theorem standsFor_of_read {placed : List (Part Appearance)} (hplaced : net.Placed placed)
    (hlimits : checkLimits placed = .ok ()) {path : String} (hread : readPartFile disk path = .ok placed) :
    StandsFor disk path net placed where
  read := hread
  stats := by rw [StatsSettings.run, hread]
  simulate s hfile hdrives o := by
    obtain ⟨start, hstart, hstart'⟩ := hplaced.exists_simulator hlimits o
    rw [hplaced.describes.length_eq] at hdrives ⊢
    refine ⟨start, _, fun i => ((start.performAll (s.drives.map Drive.operation)).run s.frames).active.getD i false,
      hstart, Simulator.drives_eq_ok hstart' hdrives, fun i => Simulator.driven_drives hstart' s.drives,
      fun i => Simulator.isActive?_run hstart' _ s.frames, ?_⟩
    exact SimulateSettings.run_eq (hfile ▸ hread) hstart' hdrives fun i p => hplaced.pinned_eq

/-- The file that `generate` writes stands for the compiled network, wherever it lies, with the statistics that
`generate` printed. Only a device takes the parts without keeping them, and then all files are as they were.
Spacings and ids have 32 bits. -/
theorem run_reloads (hspacing : fitsCoordinate g.spacing = true) (hrun : (g.run disk).failure = none)
    (hsize : ∀ net, g.compiled = .ok net → net.leaves.length ≤ 0x100000000) :
    ∃ net placed, g.compiled = .ok net ∧ g.placedParts net = .ok placed ∧
      (g.run disk).output = String.join (net.diagnostics.map warning) ++ (Stats.ofParts placed).render ++ "\n" ∧
      (disk.IsDevice g.output ∧ (g.run disk).disk = disk ∨ StandsFor (g.run disk).disk g.output net placed) := by
  obtain ⟨net, placed, hcompiled, hplacedParts, hwritten, houtput⟩ := run_eq_ok hrun
  have hplaced := placed_placedParts hspacing hcompiled hplacedParts
  obtain ⟨hlimits, hread⟩ := hplaced.readPartFile_eq_ok (hsize net hcompiled) hwritten
  exact ⟨net, placed, hcompiled, hplacedParts, houtput, hread.imp_right (standsFor_of_read hplaced hlimits)⟩

/-- Two gates, of which the first one feeds the second one. -/
def pairSettings : GenerateSettings := { output := "parts.json", size := 2, mode := .nor }

/-- Two frames of the pair. Its first gate is held active in the end. -/
def pairFrames : SimulateSettings :=
  { file := "parts.json", frames := 2, partitions := 2, drives := [⟨0, false⟩, ⟨0, true⟩] }

theorem network_pair : pairSettings.network =
    Generate.withRoot ((Generate.leaves Appearance [.gate .nor, .gate .nor]).linkAll [(0, 1)]) [0] [1] :=
  rfl

theorem placedParts_pair : ∃ net placed, pairSettings.compiled = .ok net ∧
    pairSettings.placedParts net = .ok placed ∧ checkLimits placed = .ok () ∧ net.leaves = [0, 1] ∧
    (List.range net.leaves.length).filter (fun i => net.circuit.isPinned (net.leafAt i)) = [0, 1] := by
  have hfound : pairSettings.compiled.toOption.map (fun net => (net.leaves,
      net.circuit.isPinned 0, net.circuit.isPinned 1,
      (pairSettings.placedParts net).toOption.map checkLimits)) =
      some ([0, 1], true, true, some (.ok ())) := by
    rw [compiled, network_pair]
    cbv
  obtain ⟨net, hnet⟩ : ∃ net, pairSettings.compiled = .ok net := by
    cases hnet : pairSettings.compiled with
    | error e => simp [hnet, Except.toOption] at hfound
    | ok net => exact ⟨net, rfl⟩
  obtain ⟨placed, hplaced⟩ : ∃ placed, pairSettings.placedParts net = .ok placed := by
    cases hplaced : pairSettings.placedParts net with
    | error e => simp [hnet, hplaced, Except.toOption] at hfound
    | ok placed => exact ⟨placed, rfl⟩
  obtain ⟨hleaves, hfirst, hsecond, hlimits⟩ : net.leaves = [0, 1] ∧ net.circuit.isPinned 0 = true ∧
      net.circuit.isPinned 1 = true ∧ checkLimits placed = .ok () := by
    simpa [hnet, hplaced, Except.toOption] using hfound
  refine ⟨net, placed, hnet, hplaced, hlimits, hleaves, ?_⟩
  simp [hleaves, Network.leafAt, List.range_succ, hfirst, hsecond]

theorem run_reloads_pair : fitsCoordinate pairSettings.spacing = true ∧ (pairSettings.run shelf).failure = none ∧
    (∀ net, pairSettings.compiled = .ok net → net.leaves.length ≤ 0x100000000) ∧
    (pairFrames.run (pairSettings.run shelf).disk).output = "0: 1\n1: 0\n" := by
  have hspacing : fitsCoordinate pairSettings.spacing = true := by decide
  obtain ⟨net, placed, hnet, hplaced, hlimits, hleaves, hpinned⟩ := placedParts_pair
  have hstates : (pairSettings.compiled >>= (Simulator.ofNetwork · {}) >>=
      pairFrames.drives.foldlM (fun sim d => sim.drive d.part (some d.state))).toOption.map
      (fun driven => ((driven.run 2).isActive? 0, (driven.run 2).isActive? 1)) = some (some true, some false) := by
    rw [compiled, network_pair]
    cbv
  have hrun : (pairSettings.run shelf).failure = none :=
    failure_run_eq_none hnet hplaced hlimits destination_shelf (Or.inl ⟨_, entryAt?_shelf⟩)
  have hsize : ∀ net, pairSettings.compiled = .ok net → net.leaves.length ≤ 0x100000000 := by
    intro net' hnet'
    cases hnet.symm.trans hnet'
    simp [hleaves]
  have hfile : ¬ shelf.IsDevice pairSettings.output := by
    rintro ⟨place, device, hplace, hentry⟩
    cases destination_shelf.symm.trans hplace
    cases entryAt?_shelf.symm.trans hentry
  obtain ⟨net', _, hnet', -, -, ⟨hdevice, -⟩ | hreloads⟩ := run_reloads hspacing hrun hsize
  · exact absurd hdevice hfile
  cases hnet.symm.trans hnet'
  obtain ⟨start, driven, states, hstart, hdriven, -, hactive, houtput⟩ :=
    hreloads.simulate pairFrames rfl (by simp [hleaves, pairFrames]) {}
  rw [hnet] at hstates
  simp only [bind, Except.bind, hstart, hdriven] at hstates
  obtain ⟨hzero, hone⟩ := Prod.mk.inj (Option.some.inj hstates)
  have hzero' : true = states 0 := Option.some.inj (hzero.symm.trans (hactive 0 (by simp [hleaves])))
  have hone' : false = states 1 := Option.some.inj (hone.symm.trans (hactive 1 (by simp [hleaves])))
  refine ⟨hspacing, hrun, hsize, ?_⟩
  rw [houtput, hpinned]
  show String.join [SimulateSettings.stateLine 0 (states 0), SimulateSettings.stateLine 1 (states 1)] = _
  rw [← hzero', ← hone']
  decide

end GenerateSettings

end Netlist
