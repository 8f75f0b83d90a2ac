/-
Random networks with feedback loops and occasional timers. The first eighth of the leaves are
inputs, which are gates without sources; the last eighth are outputs. Every leaf behind the inputs
draws at least one source among all leaves. The network is made from draws alone, whatever their
source: a chance of one in sixteen, and numbers below a bound.

`Xoshiro` is the xoshiro256++ generator on four words of 64 bits, seeded from one word by eight
outputs of PCG32. A number below a bound is the high half of a word times the bound; words whose
product has a low half in an incomplete last stretch are refused, so that all numbers are equally
likely.
-/
import Netlist.Generate.Basic

namespace Netlist.Generate

/-- The draws that generators ask for, from a state. -/
structure Source (σ : Type) where
  /-- True in one of sixteen cases. -/
  sixteenth : StateM σ Bool
  /-- A number below a positive bound. -/
  below : Nat → StateM σ Nat
  /-- A number below a positive bound, from half a word. -/
  belowShort : Nat → StateM σ Nat

/-! ## Words -/

/-- The state of the generator. -/
structure Xoshiro where
  s0 : UInt64
  s1 : UInt64
  s2 : UInt64
  s3 : UInt64
  deriving DecidableEq, Repr

namespace Xoshiro

/-- Rotates a word to the left. -/
def rotate (x : UInt64) (k : UInt64) : UInt64 := (x <<< k) ||| (x >>> (64 - k))

/-- The next word. -/
def next : StateM Xoshiro UInt64 := fun s =>
  let word := rotate (s.s0 + s.s3) 23 + s.s0
  let s2 := s.s2 ^^^ s.s0
  let s3 := s.s3 ^^^ s.s1
  (word, ⟨s.s0 ^^^ s3, s.s1 ^^^ s2, s2 ^^^ (s.s1 <<< 17), rotate s3 45⟩)

/-- The next state of the seeding generator. -/
def advance (state : UInt64) : UInt64 := state * 6364136223846793005 + 11634580027462260723

/-- The half word that the seeding generator shows in a state: a middle part of the state, rotated
to the right by its five highest bits. -/
def permute (state : UInt64) : UInt32 :=
  let middle := (((state >>> 18) ^^^ state) >>> 27).toUInt32
  let count := (state >>> 59).toUInt32
  (middle >>> count) ||| (middle <<< ((32 - count) % 32))

/-- The word of two successive half words, lower half first, and the state behind them. -/
def seedWord : StateM UInt64 UInt64 := fun state =>
  let low := advance state
  let high := advance low
  ((permute low).toUInt64 ||| ((permute high).toUInt64 <<< 32), high)

/-- The state for a seed. -/
def ofSeed (seed : UInt64) : Xoshiro :=
  let words : StateM UInt64 Xoshiro :=
    do return ⟨← seedWord, ← seedWord, ← seedWord, ← seedWord⟩
  (words seed).1

/-! ## Numbers below a bound -/

/-- The largest low half that is accepted, for words of the given width: the bound is shifted to
the top of the word, less one. -/
def zone (width bound : Nat) : Nat := (bound <<< (width - 1 - bound.log2)) - 1

/-- Draws words until one is accepted. More than half of all words are, and after `tries` refusals
the next word is taken as it is. -/
def belowFrom (word : StateM Xoshiro Nat) (width bound : Nat) : (tries : Nat) → StateM Xoshiro Nat
  | 0 => do return (← word) * bound / 2 ^ width
  | tries + 1 => do
    let product := (← word) * bound
    if product % 2 ^ width ≤ zone width bound then return product / 2 ^ width
    else belowFrom word width bound tries

/-- The refusals in a row after which a word is taken as it is. -/
def maxTries : Nat := 4096

/-- The draws of the generator. Half a word is its upper half. -/
def source : Source Xoshiro where
  sixteenth := do return (← next) < 0x1000000000000000
  below bound := belowFrom (do return (← next).toNat) 64 bound maxTries
  belowShort bound := belowFrom (do return ((← next) >>> 32).toNat) 32 bound maxTries

end Xoshiro

/-! ## Drawing networks -/

variable {σ : Type}

/-- The number of inputs, which is also the number of outputs. -/
def ioCount (len : Nat) : Nat := max 1 (len / 8)

/-- Draws a gate. -/
def drawGate (src : Source σ) : StateM σ Cell := do
  let code ← src.below Mode.all.length
  return .gate (Mode.all.getD code .and)

/-- Draws the leaf at a position. An input is a gate, and no draw decides that. -/
def drawCell (src : Source σ) (inputs position : Nat) : StateM σ Cell := do
  if position < inputs then drawGate src
  else if ← src.sixteenth then return .timer (← src.belowShort 4) 0
  else drawGate src

/-- Draws the edges into a node: from one to `maxFanin` of them. -/
def drawEdges (src : Source σ) (len maxFanin : Nat) (target : NodeId) :
    StateM σ (List (NodeId × NodeId)) := do
  let extra ← src.below maxFanin
  let sources ← (List.replicate (extra + 1) len).mapM src.below
  return sources.map fun source => (source, target)

/-- Draws the cells and then the edges of a random circuit. -/
def drawCircuit (P : Type) (src : Source σ) (len maxFanin : Nat) : StateM σ (Circuit P) := do
  let inputs := ioCount len
  let cells ← (List.range len).mapM (drawCell src inputs)
  let edges ← ((List.range len).drop inputs).mapM (drawEdges src len maxFanin)
  return (leaves P cells).linkAll edges.flatten

/-- A random network drawn from a source in the given state. -/
def randomFrom (P : Type) (src : Source σ) (state : σ) (len maxFanin : Nat) :
    Except Failure (Network P) := do
  require (0 < len && 0 < maxFanin) "len > 0 && max_fanin > 0"
  let circuit := (drawCircuit P src len maxFanin state).1
  withRoot circuit ((List.range len).take (ioCount len)) ((List.range len).drop (len - ioCount len))

/-- The random network of a seed. -/
def random (P : Type) (len maxFanin : Nat) (seed : UInt64) : Except Failure (Network P) :=
  randomFrom P Xoshiro.source (Xoshiro.ofSeed seed) len maxFanin

end Netlist.Generate
