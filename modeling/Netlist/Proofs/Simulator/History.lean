/-
The history law of the simulator. The arrays, offsets and delay lines of a simulator follow the
synchronous semantics of its part list: after every operation each part has the state that the
history says, and the delay line of a timer holds what its inputs were over as many frames as its
delay, oldest first, whether or not the timer was driven meanwhile.
-/
import Netlist.Proofs.Schematic
import Netlist.Proofs.Simulator.Schedule

namespace Netlist

variable {P : Type}

/-- A part list read as a schematic: parts are named by their positions. -/
def Schematic.ofParts (parts : List (Part P)) : Schematic where
  cell? i := parts[i]?.map (·.cell)
  sources i := (parts[i]?.map (·.connectionsFrom)).getD []

theorem Schematic.cell?_ofParts {parts : List (Part P)} {i : Nat} {p : Part P}
    (hp : parts[i]? = some p) : (Schematic.ofParts parts).cell? i = some p.cell := by
  simp [Schematic.ofParts, hp]

theorem Schematic.sources_ofParts {parts : List (Part P)} {i : Nat} {p : Part P}
    (hp : parts[i]? = some p) : (Schematic.ofParts parts).sources i = p.connectionsFrom := by
  simp [Schematic.ofParts, hp]

/-! ## Recorded inputs -/

/-- The last `d` values of a sequence that counts backwards, oldest first and without the present
one. -/
def recorded (d : Nat) (value : Nat → Bool) : List Bool :=
  (List.range d).map fun k => value (d - k)

/-- The oldest recorded value leaves when the present one is recorded. -/
theorem recorded_append (d : Nat) (value : Nat → Bool) :
    recorded d value ++ [value 0] = value d :: recorded d fun k => value (k - 1) := by
  have hlast : (List.range (d + 1)).map (fun k => value (d - k)) = recorded d value ++ [value 0] := by
    simp [List.range_succ, recorded]
  have hfirst : (List.range (d + 1)).map (fun k => value (d - k)) =
      value d :: recorded d fun k => value (k - 1) := by
    rw [List.range_succ_eq_map]
    simp [recorded, Function.comp_def, Nat.sub_sub]
  exact hlast.symm.trans hfirst

theorem recorded_congr {d : Nat} {value value' : Nat → Bool} (h : ∀ k, 0 < k → value k = value' k) :
    recorded d value = recorded d value' :=
  List.map_congr_left fun _ hk => h _ (Nat.sub_pos_of_lt (List.mem_range.1 hk))

/-- A delay line that has recorded a sequence shows its value `d` frames ago, and goes on
recording. -/
theorem DelayLine.shift_recorded {line : DelayLine} {d : Nat} {value : Nat → Bool}
    (h : line.toList = recorded d value) :
    (line.shift (value 0)).1 = value d ∧
      (line.shift (value 0)).2.toList = recorded d fun k => value (k - 1) := by
  have := line.shift_toList (value 0)
  rw [h, recorded_append] at this
  exact ⟨(List.cons.inj this).1, (List.cons.inj this).2⟩

/-! ## Following a history -/

namespace Simulator

/-- A simulator of a part list holds what a history says. -/
structure Follows (parts : List (Part P)) (s : Simulator) (h : History) : Prop where
  sound : s.Sound
  layout : s.layout = Layout.ofParts parts
  driven : ∀ i < parts.length, s.driven.getD i none = h.forced i
  active : ∀ i < parts.length, s.active.getD i false = h.ago 0 i
  lines : ∀ i (p : Part P), parts[i]? = some p → (s.lines.getD i (.idle 0)).toList =
    recorded p.cell.delay fun d => p.connectionsFrom.any (h.ago d)

variable {parts : List (Part P)} {s : Simulator} {h : History}

theorem follows_start (hparts : Accepted parts) (o : SimulatorOptions) :
    Follows parts (start (Layout.ofParts parts) o) .start where
  sound := sound_start (Layout.sound_ofParts hparts) o
  layout := rfl
  driven i hi := by simp [start, History.start, Array.getD, hi]
  active i hi := by simp [start, History.start, History.ago, Array.getD, hi]
  lines i p hp := by
    obtain ⟨hi, rfl⟩ := List.getElem?_eq_some_iff.1 hp
    have hago : ∀ d, History.start.ago d = fun _ => false := fun d => by
      funext n
      cases d <;> simp [History.ago, History.start]
    simp [recorded, hago, start, Layout.ofParts, Array.getD, hi]

/-- The captured inputs of a part are the states of its sources. -/
theorem inputs_gather (hf : Follows parts s h) (hparts : Accepted parts) {i : Nat} {p : Part P}
    (hp : parts[i]? = some p) : s.gather.inputs i = p.connectionsFrom.map (h.ago 0) := by
  have hmap : s.gather.inputs i = ((s.layout.sources.extract (s.layout.offset i)
      (s.layout.offset (i + 1))).toList).map (s.active.getD · false) := by
    simp [inputs, gather, gathered]
  rw [hmap, hf.layout, Layout.sources_ofParts hp]
  refine List.map_congr_left fun m hm => hf.active m ?_
  exact hparts.source p (List.mem_of_getElem? hp) m hm

/-- The cell of a part shows what the history asks for, and its delay line records its inputs. -/
theorem response_gather (hf : Follows parts s h) (hparts : Accepted parts) {i : Nat} {p : Part P}
    (hp : parts[i]? = some p) :
    (s.gather.response i p.cell).1 = (Schematic.ofParts parts).response h i ∧
      (s.gather.response i p.cell).2.toList =
        recorded p.cell.delay fun d => p.connectionsFrom.any (h.ago (d - 1)) := by
  have hinputs := inputs_gather hf hparts hp
  have hline := hf.lines i p hp
  unfold response Schematic.response
  rw [Schematic.cell?_ofParts hp, Schematic.sources_ofParts hp, hinputs]
  cases hc : p.cell with
  | gate mode =>
    rw [hc] at hline
    exact ⟨rfl, hline⟩
  | timer ticks seconds =>
    rw [hc] at hline
    have hany : (p.connectionsFrom.map (h.ago 0)).any id = p.connectionsFrom.any (h.ago 0) := by
      simp [List.any_map]
    rw [nextState, hany]
    exact DelayLine.shift_recorded hline

theorem Follows.drive (hf : Follows parts s h) (target : Nat) (value : Option Bool) :
    Follows parts (s.perform (.drive target value))
      ((Schematic.ofParts parts).perform h (.drive target value)) := by
  have hdriven : ∀ i < parts.length, (s.perform (.drive target value)).driven.getD i none =
      ((Schematic.ofParts parts).perform h (.drive target value)).forced i := by
    intro i hi
    have hlt : i < s.driven.size := by rwa [hf.sound.driven, hf.layout, Layout.size_ofParts]
    rw [driven_perform hlt, hf.driven i hi]
    simp [Schematic.perform, Operation.force, Function.update_apply]
  have hsound := hf.sound.perform (.drive target value)
  rw [perform_drive] at hdriven hsound ⊢
  exact ⟨hsound, hf.layout, hdriven, hf.active, hf.lines⟩

theorem Follows.advance (hf : Follows parts s h) (hparts : Accepted parts) :
    Follows parts s.advance ((Schematic.ofParts parts).perform h .step) := by
  have hcell : ∀ {i : Nat} {p : Part P}, parts[i]? = some p → s.layout.cells[i]? = some p.cell := by
    intro i p hp
    simp [hf.layout, Layout.ofParts, hp]
  refine ⟨hf.sound.advance, hf.layout, hf.driven, ?_, ?_⟩
  · intro i hi
    have hp : parts[i]? = some parts[i] := List.getElem?_eq_getElem hi
    have hforced : s.gather.driven.getD i none = h.forced i := hf.driven i hi
    rw [active_advance (hcell hp), nextActive, hforced, (response_gather hf hparts hp).1]
    rfl
  · intro i p hp
    rw [lines_advance (hcell hp), (response_gather hf hparts hp).2]
    -- what was `d` frames back before this frame is `d + 1` frames back now
    refine recorded_congr fun d hd => ?_
    obtain ⟨k, rfl⟩ := Nat.exists_eq_succ_of_ne_zero hd.ne'
    rfl

/-- One operation keeps following the history. -/
theorem Follows.perform (hf : Follows parts s h) (hparts : Accepted parts) (op : Operation) :
    Follows parts (s.perform op) ((Schematic.ofParts parts).perform h op) := by
  cases op with
  | drive target value => exact hf.drive target value
  | step =>
    rw [perform_step hf.sound]
    exact hf.advance hparts

/-- After every operation the simulator of a part list holds what the history says. -/
theorem follows_performAll {o : SimulatorOptions} (hs : ofParts parts o = .ok s)
    (ops : List Operation) :
    Follows parts (s.performAll ops) ((Schematic.ofParts parts).run ops) := by
  obtain ⟨hparts, rfl⟩ := ofParts_eq_ok.1 hs
  have key : ∀ (ops : List Operation) (s : Simulator) (h : History), Follows parts s h →
      Follows parts (s.performAll ops) (ops.foldl (Schematic.ofParts parts).perform h) := by
    intro ops
    induction ops with
    | nil => exact fun _ _ hf => hf
    | cons op ops ih => exact fun s h hf => ih _ _ (hf.perform hparts op)
  exact key ops _ _ (follows_start hparts o)

theorem Follows.isActive?_eq (hf : Follows parts s h) {i : Nat} (hi : i < parts.length) :
    s.isActive? i = some (h.ago 0 i) := by
  have hlt : i < s.active.size := by rwa [hf.sound.active, hf.layout, Layout.size_ofParts]
  have := hf.active i hi
  simp only [Array.getD, hlt, dite_true] at this
  rw [isActive?, Array.getElem?_eq_getElem hlt, ← this]
  rfl

/-- The state of a part after some operations is that of the synchronous semantics. -/
theorem isActive?_performAll {o : SimulatorOptions} (hs : ofParts parts o = .ok s)
    (ops : List Operation) {i : Nat} (hi : i < parts.length) :
    (s.performAll ops).isActive? i = some ((Schematic.ofParts parts).state ops i) :=
  (follows_performAll hs ops).isActive?_eq hi

/-! ## The law -/

/-- The state of a part after `t` frames of a run. -/
def stateAfter (s : Simulator) (ops : List Operation) (t i : Nat) : Bool :=
  ((s.performAll (Operation.upTo t ops)).isActive? i).getD false

theorem stateAfter_eq {o : SimulatorOptions} (hs : ofParts parts o = .ok s) (ops : List Operation)
    (t : Nat) {i : Nat} (hi : i < parts.length) :
    s.stateAfter ops t i = (Schematic.ofParts parts).state (Operation.upTo t ops) i := by
  rw [stateAfter, isActive?_performAll hs _ hi, Option.getD_some]

/-- What a part sees `d` frames back is what its sources were after `t - d` frames. -/
theorem any_ago {o : SimulatorOptions} (hs : ofParts parts o = .ok s) {ops : List Operation}
    {t : Nat} (ht : t ≤ Operation.frames ops) {p : Part P} (hp : p ∈ parts) (d : Nat) :
    p.connectionsFrom.any (((Schematic.ofParts parts).run (Operation.upTo t ops)).ago d) =
      (decide (d ≤ t) && p.connectionsFrom.any (s.stateAfter ops (t - d))) := by
  have hsource := (ofParts_eq_ok.1 hs).1.source p hp
  rw [Bool.eq_iff_iff, Bool.and_eq_true, List.any_eq_true, List.any_eq_true]
  constructor
  · rintro ⟨m, hm, hactive⟩
    rw [Schematic.ago_run_upTo ht, Bool.and_eq_true] at hactive
    exact ⟨hactive.1, m, hm, by rw [stateAfter_eq hs _ _ (hsource m hm)]; exact hactive.2⟩
  · rintro ⟨hd, m, hm, hactive⟩
    rw [stateAfter_eq hs _ _ (hsource m hm)] at hactive
    exact ⟨m, hm, by rw [Schematic.ago_run_upTo ht, Bool.and_eq_true]; exact ⟨hd, hactive⟩⟩

theorem stateAfter_zero {o : SimulatorOptions} (hs : ofParts parts o = .ok s) (ops : List Operation)
    {i : Nat} (hi : i < parts.length) : s.stateAfter ops 0 i = false := by
  rw [stateAfter_eq hs _ _ hi, Schematic.state, History.ago, Schematic.frames_run_upTo_zero]
  rfl

/-- The next frame takes the state that a part is driven to, or else the response of its cell. -/
theorem stateAfter_succ {o : SimulatorOptions} (hs : ofParts parts o = .ok s) {ops : List Operation}
    {t : Nat} (ht : t < Operation.frames ops) {i : Nat} (hi : i < parts.length) :
    s.stateAfter ops (t + 1) i = (Operation.forcedAfter (Operation.upTo t ops) i).getD
      ((Schematic.ofParts parts).response ((Schematic.ofParts parts).run (Operation.upTo t ops)) i) := by
  rw [stateAfter_eq hs _ _ hi, Schematic.state, History.ago, Schematic.frames_run_upTo_succ ht,
    ← Schematic.forced_run (Schematic.ofParts parts)]
  rfl

/-- A gate looks at the states after the last frame, and a timer at those `d` frames before. -/
theorem response_upTo {o : SimulatorOptions} (hs : ofParts parts o = .ok s) {ops : List Operation}
    {t : Nat} (ht : t ≤ Operation.frames ops) {i : Nat} {p : Part P} (hp : parts[i]? = some p) :
    (Schematic.ofParts parts).response ((Schematic.ofParts parts).run (Operation.upTo t ops)) i =
      match p.cell with
      | .gate mode => mode.evaluate (p.connectionsFrom.map (s.stateAfter ops t))
      | .timer ticks seconds => decide (40 * seconds + ticks ≤ t) &&
          p.connectionsFrom.any (s.stateAfter ops (t - (40 * seconds + ticks))) := by
  have hmem := List.mem_of_getElem? hp
  rw [Schematic.response, Schematic.cell?_ofParts hp, Schematic.sources_ofParts hp]
  cases hc : p.cell with
  | gate mode =>
    have hsource := (ofParts_eq_ok.1 hs).1.source p hmem
    exact congrArg mode.evaluate
      (List.map_congr_left fun m hm => (stateAfter_eq hs _ _ (hsource m hm)).symm)
  | timer ticks seconds =>
    have hdelay : (Cell.timer ticks seconds).delay = 40 * seconds + ticks := by
      rw [Cell.delay, framesPerSecond, Nat.mul_comm]
    simp only [hdelay]
    exact any_ago hs ht hmem _

/-- A delay line shows what the sources were over as many frames as it delays. -/
theorem lines_upTo {o : SimulatorOptions} (hs : ofParts parts o = .ok s) {ops : List Operation}
    {t : Nat} (ht : t ≤ Operation.frames ops) {i : Nat} {p : Part P} (hp : parts[i]? = some p) :
    (s.performAll (Operation.upTo t ops)).lines[i]?.map DelayLine.toList =
      some (recorded p.cell.delay fun d =>
        decide (d ≤ t) && p.connectionsFrom.any (s.stateAfter ops (t - d))) := by
  obtain ⟨hi, -⟩ := List.getElem?_eq_some_iff.1 hp
  have hf := follows_performAll hs (Operation.upTo t ops)
  have hlt : i < (s.performAll (Operation.upTo t ops)).lines.size := by
    rwa [hf.sound.lines, hf.layout, Layout.size_ofParts]
  have hline := hf.lines i p hp
  rw [Array.getD_eq_getD_getElem?, Array.getElem?_eq_getElem hlt, Option.getD_some] at hline
  rw [Array.getElem?_eq_getElem hlt, Option.map_some, hline]
  exact congrArg some
    (congrArg (recorded _) (funext fun d => any_ago hs ht (List.mem_of_getElem? hp) d))

/-- The history law. All parts are inactive before the first frame. In a frame a part takes the
state that it is driven to; otherwise a gate evaluates its mode over the states of its sources after
the frame before, and a timer with delay `d` is active if one of its sources was active `d` frames
earlier. At any time its delay line shows what its sources were over the last `d` frames. -/
theorem history_law {o : SimulatorOptions} (hs : ofParts parts o = .ok s) (ops : List Operation)
    {i : Nat} {p : Part P} (hp : parts[i]? = some p) :
    (∀ t, (s.performAll (Operation.upTo t ops)).isActive? i = some (s.stateAfter ops t i)) ∧
    s.stateAfter ops 0 i = false ∧
    (∀ t < Operation.frames ops, s.stateAfter ops (t + 1) i =
      (Operation.forcedAfter (Operation.upTo t ops) i).getD
        (match p.cell with
        | .gate mode => mode.evaluate (p.connectionsFrom.map (s.stateAfter ops t))
        | .timer ticks seconds => decide (40 * seconds + ticks ≤ t) &&
            p.connectionsFrom.any (s.stateAfter ops (t - (40 * seconds + ticks))))) ∧
    ∀ t ≤ Operation.frames ops,
      (s.performAll (Operation.upTo t ops)).lines[i]?.map DelayLine.toList =
        some (recorded p.cell.delay fun d =>
          decide (d ≤ t) && p.connectionsFrom.any (s.stateAfter ops (t - d))) := by
  obtain ⟨hi, -⟩ := List.getElem?_eq_some_iff.1 hp
  refine ⟨fun t => ?_, stateAfter_zero hs ops hi, fun t ht => ?_, fun t ht => lines_upTo hs ht hp⟩
  · rw [stateAfter_eq hs _ _ hi, isActive?_performAll hs _ hi]
  · rw [stateAfter_succ hs ht hi, response_upTo hs ht.le hp]

/-- Calls that drive the gate of the blinker for a frame, and its timer for the next two. -/
def blinkerCalls : List Operation :=
  [.drive 0 (some true), .step, .drive 0 none, .drive 1 (some false), .step, .step, .drive 1 none, .step]

/-- Once it is released, the timer shows the state that the gate had while the timer was driven. -/
theorem history_law_blinker :
    ofParts blinker {} = .ok (start (Layout.ofParts blinker) {}) ∧
    blinker[1]? = some ⟨1, .timer 2 0, [0], [0], false, none⟩ ∧
    (start (Layout.ofParts blinker) {}).stateAfter blinkerCalls 4 1 =
      (start (Layout.ofParts blinker) {}).stateAfter blinkerCalls 1 0 := by
  have hs : ofParts blinker {} = .ok (start (Layout.ofParts blinker) {}) := rfl
  have hp : blinker[1]? = some ⟨1, .timer 2 0, [0], [0], false, none⟩ := rfl
  have hreleased : Operation.forcedAfter (Operation.upTo 3 blinkerCalls) 1 = none := by decide
  have h := (history_law hs blinkerCalls hp).2.2.1 3 (by decide)
  rw [hreleased] at h
  exact ⟨hs, hp, by simpa using h⟩

end Simulator

end Netlist
