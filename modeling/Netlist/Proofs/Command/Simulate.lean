/-
Simulating a part list from a file. The drives that are asked for are calls in front of the first frame, and
the last one for a part counts; after all frames there is one line for each pinned part, in the order of the
ids. How the parts are split does not matter.
-/
import Netlist.Command.Run
import Netlist.Proofs.Simulator.History

namespace Netlist

variable {P : Type}

/-! ## Drives -/

/-- A forced state as a call. -/
def Drive.operation (d : Drive) : Operation := .drive d.part (some d.state)

/-- Of several drives of a part, the last one counts. -/
theorem forcedAfter_drives (drives : List Drive) (i : Nat) :
    Operation.forcedAfter (drives.map Drive.operation) i =
      (drives.reverse.find? (·.part == i)).map (·.state) := by
  induction drives using List.reverseRecOn with
  | nil => rfl
  | append_singleton drives d ih =>
    have hlast : Operation.forcedAfter ((drives ++ [d]).map Drive.operation) =
        Function.update (Operation.forcedAfter (drives.map Drive.operation)) d.part (some d.state) := by
      rw [Operation.forcedAfter, List.map_append, List.foldl_append]
      rfl
    rw [hlast, Function.update_apply, ih, List.reverse_concat, List.find?_cons]
    by_cases hd : d.part = i
    · rw [if_pos hd.symm, beq_iff_eq.2 hd]
      rfl
    · rw [if_neg (Ne.symm hd), beq_eq_false_iff_ne.2 hd]

namespace Simulator

variable {parts : List (Part P)} {start : Simulator} {o : SimulatorOptions}

/-- Drives of parts that exist are not refused. -/
theorem foldlM_drive : ∀ {drives : List Drive} {s : Simulator}, (∀ d ∈ drives, d.part < s.driven.size) →
    drives.foldlM (fun sim d => sim.drive d.part (some d.state)) s = .ok (s.performAll (drives.map Drive.operation))
  | [], s, _ => rfl
  | d :: drives, s, h => by
    have hd := h d (List.mem_cons_self ..)
    have hfirst : s.drive d.part (some d.state) = .ok (s.perform d.operation) := by
      rw [Drive.operation, perform_drive, drive, dif_pos hd, Array.setIfInBounds, dif_pos hd]
    refine bind_eq_ok.2 ⟨_, hfirst, foldlM_drive fun e he => ?_⟩
    rw [Drive.operation, perform_drive]
    simpa using h e (List.mem_cons_of_mem _ he)

theorem drives_eq_ok (hstart : ofParts parts o = .ok start) {drives : List Drive}
    (hdrives : ∀ d ∈ drives, d.part < parts.length) :
    drives.foldlM (fun sim d => sim.drive d.part (some d.state)) start =
      .ok (start.performAll (drives.map Drive.operation)) := by
  obtain ⟨-, rfl⟩ := ofParts_eq_ok.1 hstart
  exact foldlM_drive fun d hd => by simpa [Simulator.start] using hdrives d hd

/-- A driven simulator holds the last drive of each part. -/
theorem driven_drives (hstart : ofParts parts o = .ok start) (drives : List Drive) {i : Nat} (hi : i < parts.length) :
    (start.performAll (drives.map Drive.operation)).driven.getD i none =
      (drives.reverse.find? (·.part == i)).map (·.state) := by
  rw [(follows_performAll hstart _).driven i hi, Schematic.forced_run, forcedAfter_drives]

/-! ## States -/

/-- Simulators of one part list show the same states, however they split it. -/
theorem active_performAll (hstart : ofParts parts o = .ok start) {o' : SimulatorOptions} {start' : Simulator}
    (hstart' : ofParts parts o' = .ok start') (ops : List Operation) :
    (start.performAll ops).active = (start'.performAll ops).active := by
  obtain ⟨hparts, rfl⟩ := ofParts_eq_ok.1 hstart
  obtain ⟨-, rfl⟩ := ofParts_eq_ok.1 hstart'
  have hlayout := Layout.sound_ofParts hparts
  rw [performAll_ranges (sound_start hlayout o) (sound_start hlayout o') rfl ops]

theorem isActive?_run (hstart : ofParts parts o = .ok start) (ops : List Operation) (frames : Nat) {i : Nat}
    (hi : i < parts.length) :
    ((start.performAll ops).run frames).isActive? i =
      some (((start.performAll ops).run frames).active.getD i false) := by
  rw [run_eq_performAll, ← performAll_append]
  have hf := follows_performAll hstart (ops ++ List.replicate frames .step)
  have hlt : i < (start.performAll (ops ++ List.replicate frames .step)).active.size := by
    rwa [hf.sound.active, hf.layout, Layout.size_ofParts]
  simp [isActive?, hlt]

/-- The ids of the pinned parts, in their order. -/
theorem pinned_ofParts {pinned : Nat → Bool} (h : ∀ i (p : Part P), parts[i]? = some p → p.pinned = pinned i) :
    (Layout.ofParts parts).pinned = (List.range parts.length).filter pinned := by
  have hsame : parts.zipIdx.filter (·.1.pinned) = parts.zipIdx.filter (pinned ·.2) :=
    List.filter_congr fun x hx => h x.2 x.1 (List.mem_zipIdx_iff_getElem?.1 hx)
  have hids : parts.zipIdx.map (·.2) = List.range parts.length := by simp [List.range_eq_range']
  rw [Layout.ofParts, hsame, ← hids, List.filter_map]
  rfl

end Simulator

namespace SimulateSettings

variable {s : SimulateSettings} {disk : Disk} {parts : List (Part Appearance)} {o : SimulatorOptions}
  {start : Simulator}

/-- There is one line for each pinned part, in the order of the ids. It shows the state that the part has in
any simulator of the list after the same drives and frames. -/
theorem run_eq (hread : readPartFile disk s.file = .ok parts) (hstart : Simulator.ofParts parts o = .ok start)
    (hdrives : ∀ d ∈ s.drives, d.part < parts.length) {pinned : Nat → Bool}
    (hpinned : ∀ i p, parts[i]? = some p → p.pinned = pinned i) :
    s.run disk =
      { disk
        output := String.join (((List.range parts.length).filter pinned).map fun i =>
          stateLine i (((start.performAll (s.drives.map Drive.operation)).run s.frames).active.getD i false)) } := by
  obtain ⟨haccepted, -⟩ := Simulator.ofParts_eq_ok.1 hstart
  have hown := Simulator.ofParts_eq_ok (o := ⟨s.partitions, s.threads⟩) |>.2 ⟨haccepted, rfl⟩
  have hsimulator : s.simulator parts =
      .ok ((Simulator.start (Layout.ofParts parts) ⟨s.partitions, s.threads⟩).performAll
        (s.drives.map Drive.operation ++ List.replicate s.frames .step)) := by
    refine bind_eq_ok.2 ⟨_, hown, bind_eq_ok.2 ⟨_, Simulator.drives_eq_ok hown hdrives, ?_⟩⟩
    rw [Simulator.run_eq_performAll, ← Simulator.performAll_append]
    rfl
  have hlayout :=
    (Simulator.follows_performAll hown (s.drives.map Drive.operation ++ List.replicate s.frames .step)).layout
  rw [run, hread]
  simp only [bind, Except.bind, hsimulator]
  rw [Simulator.pinnedStates, hlayout, Simulator.pinned_ofParts hpinned, List.zipWith_map_right, List.zipWith_self,
    Simulator.active_performAll hown hstart, Simulator.performAll_append, Simulator.run_eq_performAll]

end SimulateSettings

end Netlist
