/-
Parts are the leaves of a compiled network as they are exported and simulated. Connections are
given by id, and the id of an exported part is its position in the list.

The limits of exported part lists are timers within the longest delay and at most 255 inputs for each
part. The parts are looked at in order, and the delay of a part before its inputs.
-/
import Netlist.Cell

namespace Netlist

/-- The record of an exported leaf. -/
structure Part (P : Type) where
  id : Nat
  cell : Cell
  /-- The ids of the parts that this one feeds. -/
  connections : List Nat
  /-- The ids of the parts that feed this one. -/
  connectionsFrom : List Nat
  pinned : Bool
  payload : Option P
  deriving DecidableEq, Repr

/-- The look of a part, which is its payload in part lists. -/
structure Appearance where
  /-- The color, as a hexadecimal text. -/
  color : String := "222222"
  /-- The position in grid units. -/
  pos : Int × Int × Int := (0, 0, 0)
  /-- The x axis and the z axis. -/
  axis : Int × Int := (1, -2)
  deriving DecidableEq, Repr

/-! ## Limits -/

variable {P : Type}

/-- The largest number of incoming connections of an exported part. -/
def maxInputs : Nat := 255

/-- Checks the limits of one part. -/
def Part.checkLimits (p : Part P) : Except Failure Unit := do
  p.cell.checkDelay p.id
  if maxInputs < p.connectionsFrom.length then
    throw (.tooManyInputs p.id p.connectionsFrom.length maxInputs)

/-- Checks the limits of a part list. -/
def checkLimits (parts : List (Part P)) : Except Failure Unit := parts.forM Part.checkLimits

end Netlist
