/-
A frame has two phases. The capture copies the state of every source of every part. The commit
then computes the new state of every part from the captured states only: a driven part takes the
state it is forced into, a gate evaluates its mode, and a timer shows what leaves its delay line.
A delay line records its inputs in every frame, also while its timer is driven.

Each phase runs one job for each range of parts on its own piece of the arrays, and the jobs of a
phase may run in any order. A job that reads or writes out of range fails with `none`; the jobs of
a simulator that was built from a part list never do.
-/
import Netlist.Simulator.Basic
import Netlist.Simulator.Pieces

namespace Netlist.Simulator

/-! ## Capture -/

/-- The number of sources of the parts in a range. -/
def sourceCount (l : Layout) (r : Range) : Option Nat := do
  let base ← l.offsets[r.start]?
  let stop ← l.offsets[r.stop]?
  if base ≤ stop then return stop - base else none

/-- Captures the source at place `k` in the piece of the range whose sources begin at `base`. -/
def captureSource (l : Layout) (active : Array Bool) (base : Nat) (piece : Array Bool) (k : Nat) :
    Option (Array Bool) := do
  let source ← l.sources[k]?
  let state ← active[source]?
  Pieces.put piece (k - base) state

/-- The capture job of a range. -/
def captureJob (l : Layout) (active : Array Bool) (r : Range) (piece : Array Bool) :
    Option (Array Bool) := do
  let base ← l.offsets[r.start]?
  let stop ← l.offsets[r.stop]?
  (List.range' base (stop - base)).foldlM (captureSource l active base) piece

/-- The capture phase, with the jobs in the given order. -/
def capture? (s : Simulator) (order : List Nat) : Option Simulator := do
  let lengths ← s.ranges.toList.mapM (sourceCount s.layout)
  let (pieces, left) ← Pieces.cut s.captured lengths
  let job (j : Nat) (piece : Array Bool) := do
    captureJob s.layout s.active (← s.ranges[j]?) piece
  let pieces ← Pieces.runJobs order job pieces
  return { s with captured := Pieces.join pieces left }

/-! ## Commit -/

/-- The captured inputs of a part. -/
def inputs? (s : Simulator) (i : Nat) : Option (List Bool) := do
  let start ← s.layout.offsets[i]?
  let stop ← s.layout.offsets[i + 1]?
  if start ≤ stop ∧ stop ≤ s.captured.size then
    return (s.captured.extract start stop).toList
  else none

/-- The new state of a cell, and its delay line if it is a timer. -/
def nextState (cell : Cell) (line : DelayLine) (inputs : List Bool) : Bool × DelayLine :=
  match cell with
  | .gate mode => (mode.evaluate inputs, line)
  | .timer .. => line.shift (inputs.any id)

/-- Commits the part at place `j` of the range that begins at `start`. -/
def commitPart (s : Simulator) (start : Nat) (piece : Array Bool × Array DelayLine) (j : Nat) :
    Option (Array Bool × Array DelayLine) := do
  let cell ← s.layout.cells[start + j]?
  let inputs ← s.inputs? (start + j)
  let line ← piece.2[j]?
  let forced ← s.driven[start + j]?
  let (state, line) := nextState cell line inputs
  return (← Pieces.put piece.1 j (forced.getD state), ← Pieces.put piece.2 j line)

/-- The commit job of a range. -/
def commitJob (s : Simulator) (r : Range) (piece : Array Bool × Array DelayLine) :
    Option (Array Bool × Array DelayLine) :=
  (List.range r.length).foldlM (commitPart s r.start) piece

/-- The commit phase, with the jobs in the given order. -/
def commit? (s : Simulator) (order : List Nat) : Option Simulator := do
  let lengths := s.ranges.toList.map Range.length
  let (active, activeLeft) ← Pieces.cut s.active lengths
  let (lines, linesLeft) ← Pieces.cut s.lines lengths
  let job (j : Nat) (piece : Array Bool × Array DelayLine) := do
    commitJob s (← s.ranges[j]?) piece
  let pieces ← Pieces.runJobs order job (active.zip lines)
  return { s with
    active := Pieces.join (pieces.map (·.1)) activeLeft
    lines := Pieces.join (pieces.map (·.2)) linesLeft }

/-! ## Frames -/

/-- One frame, with the jobs of each phase in the given order. -/
def stepIn? (s : Simulator) (captureOrder commitOrder : List Nat) : Option Simulator := do
  let s ← s.capture? captureOrder
  let s ← s.commit? commitOrder
  return { s with frame := s.frame + 1 }

/-- One frame. -/
def step (s : Simulator) : Simulator :=
  let order := List.range s.ranges.size
  (s.stepIn? order order).getD s

/-- Several frames. -/
def run (s : Simulator) : Nat → Simulator
  | 0 => s
  | frames + 1 => s.step.run frames

/-- What is seen after each of some frames. -/
def trace {α : Type} (s : Simulator) (look : Simulator → α) : Nat → List α
  | 0 => []
  | frames + 1 =>
    let next := s.step
    look next :: next.trace look frames

end Simulator

/-- The states of the pinned parts after each frame of a part list. -/
def simulate {P : Type} (parts : List (Part P)) (o : SimulatorOptions) (frames : Nat) :
    Except Failure (List (List Bool)) := do
  return (← Simulator.ofParts parts o).trace Simulator.pinnedStates frames

end Netlist
