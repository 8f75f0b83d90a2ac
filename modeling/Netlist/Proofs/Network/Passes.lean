/-
What holds of a network after any calls of compile and of the two elimination passes, in any order
and with any options. The calls succeed, and after the first compilation the network passes its
check and is exported as a closed part list: ids are positions, connections stay within the list,
and each is recorded alike on both ends. A simulator takes such a list unless a timer is too long.
Nothing of the calls before it is left in a compilation, which gives what a fresh network compiles
to; the circuit keeps all of its data but for ids.
-/
import Mathlib.Tactic
import Netlist.Proofs.Circuit.Edits
import Netlist.Proofs.Network.Check
import Netlist.Proofs.Network.Compile
import Netlist.Proofs.Network.Export

namespace Netlist

variable {P : Type}

/-- A call that changes what a network lists. -/
inductive Pass where
  | compile (o : CompileOptions)
  | removeDeadEnds
  | pruneDeadLoops
  deriving DecidableEq, Repr

namespace Network

/-- The network after a pass. -/
def perform (net : Network P) : Pass → Except Failure (Network P)
  | .compile o => net.compile o
  | .removeDeadEnds => .ok net.removeDeadEnds
  | .pruneDeadLoops => .ok net.pruneDeadLoops

/-- The network after some passes, first one first. -/
def performAll (net : Network P) (passes : List Pass) : Except Failure (Network P) :=
  passes.foldlM perform net

/-! ## Passes that succeed -/

variable {net net' : Network P}

theorem root_perform {pass : Pass} (h : net.perform pass = .ok net') : net'.root = net.root := by
  cases pass with
  | compile o => exact root_compile h
  | removeDeadEnds =>
    cases h
    rfl
  | pruneDeadLoops =>
    cases h
    rfl

theorem withoutIds_perform {pass : Pass} (h : net.perform pass = .ok net') :
    withoutIds net'.circuit = withoutIds net.circuit := by
  cases pass with
  | compile o => exact withoutIds_compile h
  | removeDeadEnds =>
    cases h
    exact withoutIds_removeDeadEnds net
  | pruneDeadLoops =>
    cases h
    exact withoutIds_pruneDeadLoops net

/-- A network whose edges and whose list are in order. Ports may lead to nodes that do not exist, as long as
no compilation meets them. -/
structure Orderly (net : Network P) : Prop where
  wired : net.circuit.WellWired
  sound : net.Sound

/-- The circuit may hold ids of an earlier network, but nothing is listed. -/
theorem orderly_ofRoot {c : Circuit P} (hc : c.WellWired) (root : NodeId) :
    (Network.mk c root [] [] [] {}).Orderly := by
  refine ⟨hc, List.nodup_nil, fun n hn => ?_, fun a b hab => ?_, fun a b => ?_⟩
  · cases hn
  · simp [Wires.targets] at hab
  · simp [Wires.targets, Wires.sources]

/-- A pass that changes nothing but ids in the circuit keeps a network in order. -/
theorem Orderly.of_sound (h : net.Orderly) (hcircuit : withoutIds net'.circuit = withoutIds net.circuit)
    (hsound : net'.Sound) : net'.Orderly :=
  ⟨h.wired.of_withoutIds hcircuit, hsound⟩

/-- A compilation looks at no earlier list. -/
theorem orderly_compile (hwired : net.circuit.WellWired) {o : CompileOptions} (h : net.compile o = .ok net') :
    net'.Orderly ∧ net'.Numbered := by
  obtain ⟨found, hfound, heq⟩ := compile_eq_ok_iff.1 h
  have hsurveyed := Circuit.surveyed_of_eq_ok hfound
  obtain ⟨keep, hcompiled⟩ := compiled_assignIds hwired hsurveyed o
  cases heq
  have hsound := hcompiled.prunes.sound (sound_ofSurvey (wellWired_withoutIds hwired) hsurveyed net.root)
  exact ⟨⟨hwired.of_withoutIds (withoutIds_compile h), hsound⟩, hcompiled.numbered⟩

/-- A compilation numbers a network, and elimination numbers it anew. -/
theorem Orderly.perform (h : net.Orderly) {pass : Pass} (h' : net.perform pass = .ok net') :
    net'.Orderly ∧ (net.Numbered ∨ (∃ o, pass = .compile o) → net'.Numbered) := by
  cases pass with
  | compile o =>
    obtain ⟨horderly, hids⟩ := orderly_compile h.wired h'
    exact ⟨horderly, fun _ => hids⟩
  | removeDeadEnds =>
    cases h'
    refine ⟨h.of_sound (withoutIds_removeDeadEnds net) ((prunes_removeDeadEnds h.sound).sound h.sound), ?_⟩
    rintro (hids | ⟨o, ho⟩)
    · exact numbered_removeDeadEnds h.sound hids.strays
    · cases ho
  | pruneDeadLoops =>
    cases h'
    refine ⟨h.of_sound (withoutIds_pruneDeadLoops net) ((prunes_pruneDeadLoops h.sound).sound h.sound), ?_⟩
    rintro (hids | ⟨o, ho⟩)
    · exact numbered_pruneDeadLoops h.sound hids.strays
    · cases ho

theorem Orderly.performAll : ∀ {passes : List Pass} {net : Network P}, net.Orderly →
    net.performAll passes = .ok net' →
    net'.Orderly ∧ (net.Numbered ∨ (∃ o, .compile o ∈ passes) → net'.Numbered)
  | [], net, h, h' => by
    cases h'
    exact ⟨h, fun hids => by simpa using hids⟩
  | pass :: passes, net, h, h' => by
    obtain ⟨mid, hmid, h'⟩ := bind_eq_ok.1 h'
    obtain ⟨horderly, hfirst⟩ := h.perform hmid
    obtain ⟨horderly', hrest⟩ := horderly.performAll h'
    refine ⟨horderly', ?_⟩
    rintro (hids | ⟨o, ho⟩)
    · exact hrest (Or.inl (hfirst (Or.inl hids)))
    · rcases List.mem_cons.1 ho with rfl | ho
      · exact hrest (Or.inl (hfirst (Or.inr ⟨o, rfl⟩)))
      · exact hrest (Or.inr ⟨o, ho⟩)

/-- The state of a network after any calls. -/
theorem orderly_performAll {c : Circuit P} (hc : c.WellWired) {root : NodeId} {start : Network P}
    (hstart : ofRoot c root = .ok start) {passes : List Pass} (hnet : start.performAll passes = .ok net) :
    net.Orderly ∧ ((∃ o, .compile o ∈ passes) → net.Numbered) := by
  have horderly : start.Orderly := by
    unfold ofRoot at hstart
    split at hstart
    · cases hstart
      exact orderly_ofRoot hc root
    · cases hstart
  obtain ⟨hafter, hnumbered⟩ := horderly.performAll hnet
  exact ⟨hafter, fun hcompiled => hnumbered (Or.inr hcompiled)⟩

/-! ## Existing ports -/

/-- A network over a circuit whose edges and ports are in order, with a sound list. -/
structure Coherent (net : Network P) : Prop where
  wired : net.circuit.WellWired
  ports : net.circuit.PortsExist
  root : net.root < net.circuit.size
  sound : net.Sound

theorem Coherent.orderly (h : net.Coherent) : net.Orderly := ⟨h.wired, h.sound⟩

theorem coherent_ofRoot {c : Circuit P} (hc : c.WellWired) (hports : c.PortsExist) {root : NodeId}
    (hroot : root < c.size) : ∃ net, ofRoot c root = .ok net ∧ net.Coherent :=
  ⟨{ circuit := c, root }, if_pos hroot, hc, hports, hroot, (orderly_ofRoot hc root).sound⟩

/-- If the ports exist, no pass fails. -/
theorem Coherent.perform (h : net.Coherent) (pass : Pass) :
    ∃ net', net.perform pass = .ok net' ∧ net'.Coherent ∧
      (net.Numbered ∨ (∃ o, pass = .compile o) → net'.Numbered) := by
  have hsuccess : ∃ net', net.perform pass = .ok net' := by
    cases pass with
    | compile o =>
      obtain ⟨found, -, hcompile⟩ := compile_eq_ok h.wired h.ports h.root o.maxDepth
      obtain ⟨net', keep, heq, -⟩ := hcompile o rfl
      exact ⟨net', heq⟩
    | removeDeadEnds => exact ⟨_, rfl⟩
    | pruneDeadLoops => exact ⟨_, rfl⟩
  obtain ⟨net', hnet'⟩ := hsuccess
  obtain ⟨horderly, hnumbered⟩ := h.orderly.perform hnet'
  have hcircuit := withoutIds_perform hnet'
  refine ⟨net', hnet', ⟨horderly.wired, portsExist_of_withoutIds hcircuit h.ports, ?_, horderly.sound⟩, hnumbered⟩
  rw [root_perform hnet', (sameWiring_of_withoutIds hcircuit).size]
  exact h.root

theorem Coherent.compile (h : net.Coherent) (o : CompileOptions) :
    ∃ net', net.compile o = .ok net' ∧ net'.Coherent ∧ net'.Numbered := by
  obtain ⟨net', heq, hcoherent, hnumbered⟩ := h.perform (.compile o)
  exact ⟨net', heq, hcoherent, hnumbered (Or.inr ⟨o, rfl⟩)⟩

theorem Coherent.exists_performAll : ∀ {net : Network P}, net.Coherent → ∀ passes : List Pass,
    ∃ net', net.performAll passes = .ok net' ∧ net'.Coherent
  | net, h, [] => ⟨net, rfl, h⟩
  | net, h, pass :: passes => by
    obtain ⟨mid, hmid, hcoherent, -⟩ := h.perform pass
    obtain ⟨net', hnet', hcoherent'⟩ := hcoherent.exists_performAll passes
    exact ⟨net', bind_eq_ok.2 ⟨mid, hmid, hnet'⟩, hcoherent'⟩

theorem Coherent.performAll (h : net.Coherent) (passes : List Pass) :
    ∃ net', net.performAll passes = .ok net' ∧ net'.Coherent ∧
      (net.Numbered ∨ (∃ o, .compile o ∈ passes) → net'.Numbered) := by
  obtain ⟨net', hnet', hcoherent⟩ := h.exists_performAll passes
  exact ⟨net', hnet', hcoherent, (h.orderly.performAll hnet').2⟩

/-! ## The exported list -/

/-- After any passes with a compilation among them, a network passes its check and exports a closed
list, whose outgoing and incoming connections are equally many. A simulator is built of the list,
or its first timer that is too long is refused. -/
theorem performAll_closed (c : Circuit P) (hc : c.Built) (hports : c.PortsExist) (root : NodeId)
    (hroot : root < c.size) (passes : List Pass) (hcompiled : ∃ o, .compile o ∈ passes) :
    ∃ start net parts, ofRoot c root = .ok start ∧ start.performAll passes = .ok net ∧
      net.check = .ok () ∧ net.parts = .ok parts ∧ ClosedParts parts ∧
      (parts.map (·.connections.length)).sum = (parts.map (·.connectionsFrom.length)).sum ∧
      ∀ o : SimulatorOptions, (∃ s, Simulator.ofParts parts o = .ok s ∧ ∀ p ∈ parts, ¬ p.cell.TooLong) ∨
        ∃ before p after ticks seconds, parts = before ++ p :: after ∧
          (∀ q ∈ before, ¬ q.cell.TooLong) ∧ p.cell = .timer ticks seconds ∧
          2400 < 40 * seconds + ticks ∧
          Simulator.ofParts parts o = .error (.timerTooLong before.length (40 * seconds + ticks) 2400) := by
  obtain ⟨start, hstart, hcoherent⟩ := coherent_ofRoot hc.wellWired hports hroot
  obtain ⟨net, hnet, hcoherent', hnumbered⟩ := hcoherent.performAll passes
  have hids := hnumbered (Or.inr hcompiled)
  obtain ⟨parts, hparts, hdescribes⟩ := parts_eq_ok hcoherent'.sound hids
  have hclosed := closed_parts hcoherent'.sound hdescribes
  have hcheck := check_eq_ok hcoherent'.wired hcoherent'.sound hids
  refine ⟨start, net, parts, hstart, hnet, hcheck, hparts, hclosed, hclosed.fan, fun o => ?_⟩
  exact Simulator.ofParts_cases hclosed.id hclosed.source o

/-- A gate and a timer that feed each other behind a container. The timer is one frame too long. -/
def sleeper : Circuit Unit :=
  let c := (((Circuit.mk #[]).addLeaf (.gate .nor)).1.addLeaf (.timer 41 59)).1
  let c := ((c.addContainer [.single 0] [.single 1]).1.connect 0 1 false).circuit
  (c.connect 1 0 false).circuit.markPinned 0

/-- The calls that the sleeper goes through. -/
def sleeperPasses : List Pass := [.pruneDeadLoops, .compile {}, .removeDeadEnds]

theorem performAll_closed_sleeper : sleeper.Built ∧ sleeper.PortsExist ∧ 2 < sleeper.size ∧
    (∃ o, Pass.compile o ∈ sleeperPasses) ∧
    ∃ start net parts, ofRoot sleeper 2 = .ok start ∧ start.performAll sleeperPasses = .ok net ∧
      net.check = .ok () ∧ net.parts = .ok parts ∧ ClosedParts parts ∧ parts.length = 2 ∧
      Simulator.ofParts parts {} = .error (.timerTooLong 1 2401 2400) := by
  have hbuilt : sleeper.Built := by
    have hnodes := Circuit.Built.addContainer (.addLeaf (.addLeaf (P := Unit) .empty (.gate .nor)) (.timer 41 59))
      [.single 0] [.single 1]
    have hwired := (hnodes.connect 0 1 false).connect 1 0 false
    exact hwired.pin (n := 0) (by cbv)
  have hports : sleeper.PortsExist := of_decide_eq_true (by cbv)
  have hroot : 2 < sleeper.size := of_decide_eq_true (by cbv)
  have hcompiled : ∃ o, Pass.compile o ∈ sleeperPasses := ⟨{}, by simp [sleeperPasses]⟩
  have hrun : (ofRoot sleeper 2 >>= (performAll · sleeperPasses) >>= parts).toOption.map
      (fun parts => (parts.length, Simulator.ofParts parts {})) =
      some (2, .error (.timerTooLong 1 2401 2400)) := by
    cbv
  obtain ⟨start, net, parts, hstart, hnet, hcheck, hparts, hclosed, -, -⟩ :=
    performAll_closed sleeper hbuilt hports 2 hroot sleeperPasses hcompiled
  rw [hstart] at hrun
  simp only [bind, Except.bind, hnet, hparts] at hrun
  obtain ⟨hlength, hrefused⟩ := Prod.mk.inj (Option.some.inj hrun)
  exact ⟨hbuilt, hports, hroot, hcompiled, start, net, parts, hstart, hnet, hcheck, hparts, hclosed,
    hlength, hrefused⟩

/-! ## Compiling again -/

/-- No passes change the root or anything of the circuit but its ids. -/
theorem keeps_performAll {passes : List Pass} (h : net.performAll passes = .ok net') :
    net'.root = net.root ∧ withoutIds net'.circuit = withoutIds net.circuit := by
  refine foldlM_keeps (p := fun now => now.root = net.root ∧ withoutIds now.circuit = withoutIds net.circuit)
    (fun now pass next hnow hnext => ?_) ⟨rfl, rfl⟩ h
  exact ⟨(root_perform hnext).trans hnow.1, (withoutIds_perform hnext).trans hnow.2⟩

/-- A compilation looks at nothing but the root and the circuit without its ids. -/
theorem compile_congr (hroot : net'.root = net.root) (hcircuit : withoutIds net'.circuit = withoutIds net.circuit)
    (o : CompileOptions) : net'.compile o = net.compile o := by
  rw [compile, compile, reset_congr hroot hcircuit]

/-- Every node of a circuit is found in another one, with all of its data but for its id. -/
structure SameButIds (c c' : Circuit P) : Prop where
  size : c'.size = c.size
  node : ∀ n node, c.node? n = some node → ∃ id, c'.node? n = some { node with id }

theorem sameButIds_of_withoutIds {c c' : Circuit P} (h : withoutIds c' = withoutIds c) : SameButIds c c' := by
  have hsize := (sameWiring_of_withoutIds h).size
  refine ⟨hsize, fun n node hnode => ?_⟩
  obtain ⟨node', hnode'⟩ := Circuit.node?_of_lt (hsize ▸ Circuit.lt_size_of_node? hnode)
  have hsame := congrArg (Circuit.node? · n) h
  simp only [node?_withoutIds, hnode, hnode', Option.map_some, Option.some.injEq] at hsame
  refine ⟨node'.id, hnode'.trans (congrArg some ?_)⟩
  calc node' = { { node' with id := none } with id := node'.id } := rfl
    _ = { node with id := node'.id } := by rw [hsame]

/-- Compiling does not depend on what was compiled and eliminated before, even if the circuit holds
ids of an earlier network: it gives the network that a fresh one compiles to. Neither it nor the
passes before it change anything of the circuit but ids. -/
theorem compile_performAll (c : Circuit P) (hc : c.Built) (hports : c.PortsExist) (root : NodeId)
    (hroot : root < c.size) (passes : List Pass) (o : CompileOptions) :
    ∃ start net fresh parts, ofRoot c root = .ok start ∧ start.performAll passes = .ok net ∧
      start.compile o = .ok fresh ∧ net.compile o = .ok fresh ∧ fresh.parts = .ok parts ∧
      SameButIds c net.circuit ∧ SameButIds c fresh.circuit := by
  obtain ⟨start, hstart, hcoherent⟩ := coherent_ofRoot hc.wellWired hports hroot
  have hcircuit : start.circuit = c := by
    rw [ofRoot, if_pos hroot] at hstart
    cases hstart
    rfl
  obtain ⟨net, hnet, -, -⟩ := hcoherent.performAll passes
  obtain ⟨fresh, hfresh, hsound, hnumbered⟩ := hcoherent.compile o
  obtain ⟨parts, hparts, -⟩ := parts_eq_ok hsound.sound hnumbered
  obtain ⟨hroot', hsame⟩ := keeps_performAll hnet
  refine ⟨start, net, fresh, parts, hstart, hnet, hfresh, (compile_congr hroot' hsame o).trans hfresh, hparts,
    sameButIds_of_withoutIds ?_, sameButIds_of_withoutIds ?_⟩
  · rw [hsame, hcircuit]
  · rw [withoutIds_compile hfresh, hcircuit]

/-- The calls that build a gate and a timer that feed each other, a gate behind them that feeds
nothing, and a container over the three. -/
def porch : List (Edit Unit) := [.addGate .nor, .addTimer 1 0, .addGate .and,
  .addContainer [.single 0] [.single 1, .single 2], .connect 0 1 false, .connect 1 0 false, .connect 1 2 false,
  .pin 0]

/-- The circuit of these calls, with the ids of a compilation from its timer. -/
def lodged : Circuit Unit :=
  let c := (Circuit.mk #[]).editAll porch
  (((Network.mk c 1 [] [] [] {}).compile {}).map (·.circuit)).toOption.getD c

theorem built_lodged : lodged.Built := by
  have hporch := Circuit.Built.empty.editAll porch
  exact hporch.circuit_getD fun _ h => .compile hporch h

/-- A budget of two cuts off all leaves, and compiling with more of it brings them back. -/
theorem compile_performAll_lodged : lodged.Built ∧ lodged.PortsExist ∧ 3 < lodged.size ∧
    (lodged.node? 1).map (·.id) = some (some 0) ∧
    ∃ start net fresh parts, ofRoot lodged 3 = .ok start ∧
      start.performAll [.compile ⟨2, true, true⟩, .removeDeadEnds] = .ok net ∧
      start.compile ⟨9, false, true⟩ = .ok fresh ∧ net.compile ⟨9, false, true⟩ = .ok fresh ∧
      fresh.parts = .ok parts ∧ net.leaves = [] ∧ fresh.leaves = [0, 1, 2] ∧
      SameButIds lodged net.circuit ∧ SameButIds lodged fresh.circuit := by
  have hports : lodged.PortsExist := of_decide_eq_true (by cbv)
  have hroot : 3 < lodged.size := of_decide_eq_true (by cbv)
  have hrun : (ofRoot lodged 3 >>= (performAll · [.compile ⟨2, true, true⟩, .removeDeadEnds])).toOption.map
      (·.leaves) = some [] := by cbv
  have hcompiled : (ofRoot lodged 3 >>= (compile · ⟨9, false, true⟩)).toOption.map (·.leaves) =
      some [0, 1, 2] := by cbv
  obtain ⟨start, net, fresh, parts, hstart, hnet, hfresh, hagain, hparts, hkept, hkept'⟩ :=
    compile_performAll lodged built_lodged hports 3 hroot [.compile ⟨2, true, true⟩, .removeDeadEnds]
      ⟨9, false, true⟩
  rw [hstart] at hrun hcompiled
  simp only [bind, Except.bind, hnet, hfresh] at hrun hcompiled
  exact ⟨built_lodged, hports, hroot, by cbv, start, net, fresh, parts, hstart, hnet, hfresh, hagain, hparts,
    Option.some.inj hrun, Option.some.inj hcompiled, hkept, hkept'⟩

end Network

end Netlist
