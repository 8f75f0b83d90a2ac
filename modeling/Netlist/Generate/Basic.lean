/-
Shared steps of the generators, and three simple networks. A generated network is uncompiled; its
root is a container whose ports are the designated inputs and outputs, and these are pinned.

In a chain every gate feeds the next one. In a mesh every gate but the first two feeds the two gates
before it, and the last gate is the input. In a timer ring an input gate feeds a chain of timers whose
last one feeds the gate.
-/
import Netlist.Circuit.Leaves
import Netlist.Circuit.Wiring
import Netlist.Network.Basic

namespace Netlist.Generate

variable {P : Type}

/-- A circuit of leaves without edges. -/
def leaves (P : Type) (cells : List Cell) : Circuit P := (Circuit.mk #[]).addLeaves cells

/-- The edges that join each node of a list to the next one. -/
def inSequence (nodes : List NodeId) : List (NodeId × NodeId) := nodes.zip nodes.tail

/-- Refuses a call outside of the domain of a generator. -/
def require (condition : Bool) (text : String) : Except Failure Unit :=
  if condition then .ok () else .error (.unmet text)

/-- Adds a root that exposes the given leaves and pins them. -/
def addRoot (c : Circuit P) (inputs outputs : List NodeId) : Except Failure (Circuit P × NodeId) := do
  let (c, root) := c.addContainer (inputs.map .single) (outputs.map .single)
  return (← c.pinPorts root, root)

/-- The network of a circuit and such a root. -/
def withRoot (c : Circuit P) (inputs outputs : List NodeId) : Except Failure (Network P) := do
  let (c, root) ← addRoot c inputs outputs
  Network.ofRoot c root

/-! ## Simple networks -/

/-- The circuit of a chain of gates of one mode. -/
def chainCircuit (P : Type) (len : Nat) (mode : Mode) : Circuit P :=
  (leaves P (List.replicate len (.gate mode))).linkAll (inSequence (List.range len))

/-- A chain of gates, from the first one to the last one. -/
def chain (P : Type) (len : Nat) (mode : Mode) : Except Failure (Network P) := do
  require (0 < len) "len > 0"
  withRoot (chainCircuit P len mode) [0] [len - 1]

/-- The edges of a mesh: gate `i + 2` feeds gates `i + 1` and `i`. -/
def meshEdges (len : Nat) : List (NodeId × NodeId) :=
  (List.range (len - 2)).flatMap fun i => [(i + 2, i + 1), (i + 2, i)]

/-- The circuit of a mesh. -/
def meshCircuit (P : Type) (len : Nat) : Circuit P :=
  (leaves P (List.replicate len (.gate .xor))).linkAll (meshEdges len)

/-- A mesh of gates, from the last one to the first two. -/
def mesh (P : Type) (len : Nat) : Except Failure (Network P) := do
  require (2 ≤ len) "len >= 2"
  withRoot (meshCircuit P len) [len - 1] [0, 1]

/-- The circuit of a timer ring. Node 0 is the gate. -/
def timerRingCircuit (P : Type) (len ticks : Nat) : Circuit P :=
  (leaves P (.gate .or :: List.replicate len (.timer ticks 0))).linkAll
    (inSequence (List.range (len + 1)) ++ [(len, 0)])

/-- A ring of timers behind a gate, from the gate to the last timer. -/
def timerRing (P : Type) (len ticks : Nat) : Except Failure (Network P) := do
  require (0 < len) "len > 0"
  withRoot (timerRingCircuit P len ticks) [0] [len]

end Netlist.Generate
