/-
Adders. A full adder is a container with three buses as inputs and the sum and the carry as
outputs. A ripple-carry adder chains one full adder for each bit: the carry of a bit feeds the full
adder of the next one.
-/
import Netlist.Generate.Basic

namespace Netlist.Generate

variable {P : Type}

/-- The gates of a full adder: the sum, the three products of two operands, and the carry. -/
def fullAdderCells : List Cell :=
  [.gate .xor, .gate .and, .gate .and, .gate .and, .gate .or]

/-- Adds a full adder. Its first gate is the sum and its fifth gate the carry; the node that is
returned is the container behind them. -/
def fullAdder (c : Circuit P) : Circuit P × NodeId :=
  let sum := c.size
  let (ab, ac, bc, carry) := (sum + 1, sum + 2, sum + 3, sum + 4)
  let c := (c.addLeaves fullAdderCells).linkAll [(ab, carry), (ac, carry), (bc, carry)]
  c.addContainer [.bus [sum, ab, ac], .bus [sum, ab, bc], .bus [sum, ac, bc]]
    [.single sum, .single carry]

/-- The entry of a list at a position where there has to be one. -/
def entry {α : Type} (xs : List α) (i : Nat) : Except Failure α :=
  match xs[i]? with
  | some x => .ok x
  | none => .error (.missingEntry i xs.length)

/-- The first leaf behind an output slot of a node. -/
def outputLeaf (c : Circuit P) (n : NodeId) (slot : Nat) : Except Failure NodeId := do
  let leaves ← entry (← c.slotLeaves .output n) slot
  entry leaves 0

/-- A ripple-carry adder that is being built. -/
structure Ripple (P : Type) where
  circuit : Circuit P
  /-- The carry into the next bit. -/
  carry : NodeId

/-- Adds the full adder of one bit, with operands `a` and `b` and sum `s`. -/
def Ripple.addBit (r : Ripple P) (a b s : NodeId) : Except Failure (Ripple P) := do
  let (c, adder) := fullAdder r.circuit
  let (c, operands) := c.addContainer [] [.single a, .single b, .single r.carry]
  let c ← (c.connect operands adder false).complete
  let (c, sink) := c.addContainer [.single s] []
  let c ← (c.connect adder sink true).complete
  return ⟨c, ← outputLeaf c adder 1⟩

/-- A ripple-carry adder of the given width. Its inputs are the bits of the first operand and then
those of the second, lowest first; its outputs are the bits of the sum and the carry. The carry
into the lowest bit is a gate without inputs, which is never active. The finished circuit is
checked. -/
def rippleCarry (P : Type) (len : Nat) : Except Failure (Network P) := do
  let a := List.range len
  let b := a.map (len + ·)
  let s := a.map (2 * len + ·)
  let carryOut := 3 * len
  let start : Ripple P := ⟨leaves P (List.replicate (3 * len + 2) (.gate .or)), 3 * len + 1⟩
  let r ← a.foldlM (fun r i => r.addBit i (len + i) (2 * len + i)) start
  let (c, root) ← addRoot (r.circuit.link r.carry carryOut) (a ++ b) (s ++ [carryOut])
  c.check
  Network.ofRoot c root

end Netlist.Generate
