/-
The delay line of a timer is a queue of fixed length. Each frame puts the newest input in and takes
the oldest one out; a line of length 0 passes its input on at once.
-/
namespace Netlist

/-- A queue of recorded inputs, held as two lists so that a shift takes constant time on average. -/
structure DelayLine where
  /-- The older inputs, oldest first. -/
  old : List Bool
  /-- The newer inputs, newest first. -/
  recent : List Bool := []
  deriving DecidableEq, Repr

namespace DelayLine

/-- The recorded inputs, oldest first. -/
def toList (line : DelayLine) : List Bool := line.old ++ line.recent.reverse

/-- The number of recorded inputs. -/
def length (line : DelayLine) : Nat := line.old.length + line.recent.length

/-- A line of inactive inputs. -/
def idle (delay : Nat) : DelayLine := ⟨List.replicate delay false, []⟩

@[simp] theorem toList_idle (delay : Nat) : (idle delay).toList = List.replicate delay false := by
  simp [toList, idle]

/-- Puts an input in and takes the oldest one out. -/
def shift (line : DelayLine) (input : Bool) : Bool × DelayLine :=
  match line.old with
  | oldest :: rest => (oldest, ⟨rest, input :: line.recent⟩)
  | [] =>
    match line.recent.reverse with
    | oldest :: rest => (oldest, ⟨rest ++ [input], []⟩)
    | [] => (input, line)

/-- A shift takes from the front of the line with the input appended. -/
theorem shift_toList (line : DelayLine) (input : Bool) :
    (line.shift input).1 :: (line.shift input).2.toList = line.toList ++ [input] := by
  obtain ⟨old, recent⟩ := line
  unfold shift
  cases old with
  | cons oldest rest => simp [toList]
  | nil =>
    cases h : recent.reverse with
    | cons oldest rest => simp [toList, h]
    | nil => simp_all [toList]

end DelayLine

end Netlist
