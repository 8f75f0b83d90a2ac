/-
A simulator of a part list. The sources of all parts lie in one array, the sources of part `i` from
`offsets[i]` up to `offsets[i + 1]`. The parts are split into ranges whose jobs may run in any
order within a phase. All parts are inactive before the first frame.
-/
import Netlist.Network.Basic
import Netlist.Simulator.DelayLine
import Netlist.Simulator.Pieces

namespace Netlist

variable {P : Type}

/-- How the work of a frame is split. No result depends on it. -/
structure SimulatorOptions where
  /-- The number of ranges of parts. -/
  partitions : Nat := 1
  /-- The number of workers that run the jobs, if it is fixed. Nothing reads it: the jobs of a phase run in
  some order, which is given where it matters, and that there are workers at all is taken for granted. -/
  threads : Option Nat := none
  deriving DecidableEq, Repr

/-- A part list as it is simulated. -/
structure Layout where
  cells : Array Cell
  offsets : Array Nat
  sources : Array Nat
  /-- The pinned parts in order. -/
  pinned : List Nat
  deriving DecidableEq, Repr

/-- A simulator between two frames. -/
structure Simulator where
  layout : Layout
  ranges : Array Range
  /-- The number of frames so far. -/
  frame : Nat
  /-- The states that parts are forced into. -/
  driven : Array (Option Bool)
  /-- The states of all sources when the last frame began. -/
  captured : Array Bool
  /-- The states of all parts. -/
  active : Array Bool
  lines : Array DelayLine
  deriving DecidableEq, Repr

/-! ## Layout -/

namespace Layout

/-- The sums of the first numbers of a list, from none to all of them, after `start`. -/
def sumsFrom (start : Nat) : List Nat → List Nat
  | [] => [start]
  | n :: rest => start :: sumsFrom (start + n) rest

/-- The layout of a part list. -/
def ofParts (parts : List (Part P)) : Layout where
  cells := (parts.map (·.cell)).toArray
  offsets := (sumsFrom 0 (parts.map (·.connectionsFrom.length))).toArray
  sources := (parts.flatMap (·.connectionsFrom)).toArray
  pinned := (parts.zipIdx.filter (·.1.pinned)).map (·.2)

end Layout

namespace Simulator

/-! ## Building -/

/-- Checks the part at a position of a list of `size` parts: its id is its position, its sources
exist, and its delay is within the limit. -/
def checkPart (size : Nat) (part : Part P × Nat) : Except Failure Unit := do
  let (p, position) := part
  if p.id ≠ position then throw (.misplacedPart p.id position)
  if let some s := p.connectionsFrom.find? (size ≤ ·) then throw (.unknownPart s)
  p.cell.checkDelay p.id

/-- The simulator of a layout before the first frame. -/
def start (layout : Layout) (o : SimulatorOptions) : Simulator where
  layout
  ranges := (partition layout.cells.size o.partitions).toArray
  frame := 0
  driven := Array.replicate layout.cells.size none
  captured := Array.replicate layout.sources.size false
  active := Array.replicate layout.cells.size false
  lines := layout.cells.map fun cell => DelayLine.idle cell.delay

/-- The simulator of a part list. -/
def ofParts (parts : List (Part P)) (o : SimulatorOptions) : Except Failure Simulator := do
  parts.zipIdx.forM (checkPart parts.length)
  return start (Layout.ofParts parts) o

/-- The simulator of a compiled network. -/
def ofNetwork (net : Network P) (o : SimulatorOptions) : Except Failure Simulator := do
  ofParts (← net.parts) o

/-! ## Looking -/

/-- The number of parts. -/
def size (s : Simulator) : Nat := s.layout.cells.size

/-- Whether a part is active, if there is such a part. -/
def isActive? (s : Simulator) (id : Nat) : Option Bool := s.active[id]?

/-- The states of all parts in order. -/
def states (s : Simulator) : List Bool := s.active.toList

/-- The states of the pinned parts in order. -/
def pinnedStates (s : Simulator) : List Bool := s.layout.pinned.map (s.active.getD · false)

/-! ## Driving -/

/-- Forces a part into a state from the next frame on, or releases it. -/
def drive (s : Simulator) (id : Nat) (value : Option Bool) : Except Failure Simulator :=
  if h : id < s.driven.size then .ok { s with driven := s.driven.set id value }
  else .error (.unknownPart id)

end Simulator

end Netlist
