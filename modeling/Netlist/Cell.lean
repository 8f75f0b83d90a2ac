/-
Cells are what a compiled network consists of: gates and timers. There are six gate modes, numbered
from 0 in the order in which they are declared. A gate without inputs is inactive in every mode; with
inputs, the last three modes are the negations of the first three. A timer shows the disjunction of
its inputs after a delay that is given in seconds and frames.
-/
import Netlist.Failure
import Netlist.Text.Basic

namespace Netlist

/-! ## Modes -/

/-- The function that a gate computes from its inputs. -/
inductive Mode where
  /-- All inputs are active. -/
  | and
  /-- Some input is active. -/
  | or
  /-- An odd number of inputs are active. -/
  | xor
  /-- Not all inputs are active. -/
  | nand
  /-- No input is active. -/
  | nor
  /-- An even number of inputs are active. -/
  | xnor
  deriving DecidableEq, Repr

namespace Mode

/-- The state of a gate with the given inputs. -/
def evaluate (m : Mode) (inputs : List Bool) : Bool :=
  if inputs.isEmpty then false
  else match m with
    | and => inputs.all id
    | or => inputs.any id
    | xor => inputs.count true % 2 == 1
    | nand => !inputs.all id
    | nor => !inputs.any id
    | xnor => !(inputs.count true % 2 == 1)

@[simp] theorem evaluate_nil (m : Mode) : m.evaluate [] = false := rfl

/-- The modes in the order of their numbers. -/
def all : List Mode := [and, or, xor, nand, nor, xnor]

/-- The number of a mode. -/
def code : Mode → Nat
  | and => 0
  | or => 1
  | xor => 2
  | nand => 3
  | nor => 4
  | xnor => 5

/-- The mode with the given number. -/
def ofCode? (n : Nat) : Option Mode := all[n]?

@[simp] theorem ofCode?_code (m : Mode) : ofCode? m.code = some m := by cases m <;> rfl

/-- The mode with the given number, or the refusal that quotes the number. -/
def ofCode (n : Nat) : Except Failure Mode :=
  match ofCode? n with
  | some m => .ok m
  | none => .error (.unknownMode (toString n))

/-- The name of a mode, in lower case. -/
def name : Mode → String
  | and => "and"
  | or => "or"
  | xor => "xor"
  | nand => "nand"
  | nor => "nor"
  | xnor => "xnor"

/-- The name of a mode in reports, in upper case. -/
def title : Mode → String
  | and => "AND"
  | or => "OR"
  | xor => "XOR"
  | nand => "NAND"
  | nor => "NOR"
  | xnor => "XNOR"

/-- The mode with the given name, whose case and surrounding blanks do not count. No character
beyond ASCII has a letter of these names as its lower case, so lowering ASCII is enough. -/
def ofName (text : String) : Except Failure Mode :=
  let plain := (Text.trim text.toList).map Char.toLower
  match all.find? (fun m => m.name.toList == plain) with
  | some m => .ok m
  | none => .error (.unknownMode text)

end Mode

/-! ## Cells -/

/-- Frames in one second. -/
def framesPerSecond : Nat := 40

/-- The longest delay that a timer may have, in frames. -/
def maxDelay : Nat := 60 * framesPerSecond

/-- A gate or a timer. -/
inductive Cell where
  | gate (mode : Mode)
  | timer (ticks seconds : Nat)
  deriving DecidableEq, Repr

namespace Cell

/-- The number of frames by which a cell delays its inputs, beyond the frame that every cell
takes. -/
def delay : Cell → Nat
  | gate _ => 0
  | timer ticks seconds => seconds * framesPerSecond + ticks

/-- Refuses the cell of a part if it is a timer beyond the longest delay. -/
def checkDelay (part : Nat) (cell : Cell) : Except Failure Unit :=
  if cell.delay ≤ maxDelay then .ok () else .error (.timerTooLong part cell.delay maxDelay)

end Cell

end Netlist
