/-
Placing parts on a grid. The linear placement puts unpinned parts in a row along x and pinned parts
in a row of their own. Coordinates have 32 bits, and a placement that needs more fails as a whole.
-/
import Netlist.Part.Basic

namespace Netlist

/-- Whether a coordinate fits 32 bits with a sign. -/
def fitsCoordinate (z : Int) : Bool := -0x80000000 ≤ z && z < 0x80000000

/-- How parts are placed. -/
inductive Placement where
  /-- All parts at the origin. -/
  | origin
  /-- Parts in two rows, at the given distance. -/
  | linear (spacing : Int)
  deriving DecidableEq, Repr

namespace Placement

/-- The positions in two rows, after `plain` unpinned and `pinned` pinned parts. -/
def linearFrom (spacing : Int) (plain pinned : Nat) :
    List Bool → Except Failure (List (Int × Int × Int))
  | [] => .ok []
  | true :: rest => do
    let x := pinned * spacing
    if !fitsCoordinate x then throw .overflow
    return (x, spacing, 0) :: (← linearFrom spacing plain (pinned + 1) rest)
  | false :: rest => do
    let x := plain * spacing
    if !fitsCoordinate x then throw .overflow
    return (x, 0, 0) :: (← linearFrom spacing (plain + 1) pinned rest)

/-- The position of each part, given which parts are pinned. -/
def positions (placement : Placement) (pinned : List Bool) :
    Except Failure (List (Int × Int × Int)) :=
  match placement with
  | origin => .ok (pinned.map fun _ => (0, 0, 0))
  | linear spacing => linearFrom spacing 0 0 pinned

end Placement

/-- Moves a part, which gets the default look if it has none. -/
def Part.moveTo (p : Part Appearance) (pos : Int × Int × Int) : Part Appearance :=
  { p with payload := some { p.payload.getD {} with pos } }

/-- Gives every part its position. -/
def place (parts : List (Part Appearance)) (placement : Placement) :
    Except Failure (List (Part Appearance)) := do
  let positions ← placement.positions (parts.map (·.pinned))
  return parts.zipWith Part.moveTo positions

end Netlist
