/-
Compiling a network: forget what an earlier compilation left, survey the circuit from the root,
keep the edges between the leaves that were found, eliminate leaves as asked, and number the
leaves. The wiring of the circuit is never changed, so compiling again starts from the same place.
-/
import Netlist.Circuit.Survey
import Netlist.Network.Elimination

namespace Netlist

/-- How a network is compiled. -/
structure CompileOptions where
  /-- The depth at which a branch of the survey is cut off. -/
  maxDepth : Nat := 900
  /-- Whether leaves that feed nothing are removed. -/
  deadEnds : Bool := true
  /-- Whether dead loops are removed too; this asks for the removal of dead ends. -/
  deadLoops : Bool := true
  deriving DecidableEq, Repr

namespace Network

variable {P : Type}

/-- The circuit without any ids. -/
def withoutIds (c : Circuit P) : Circuit P := ⟨c.nodes.map ({ · with id := none })⟩

/-- Clears what an earlier compilation left and copies the wiring of the circuit. -/
def reset (net : Network P) : Network P :=
  let circuit := withoutIds net.circuit
  { circuit, root := net.root, wires := .ofCircuit circuit }

/-- Lists what a survey from the root meets. -/
def identify (net : Network P) (maxDepth : Nat) : Except Failure (Network P) := do
  let found ← net.circuit.survey net.root maxDepth
  return { net with
    leaves := found.leaves.toList
    containers := found.containers.toList
    diagnostics := found.diagnostics.toList }

/-- Keeps the edges between listed leaves. -/
def restrictWires (net : Network P) : Network P :=
  let listed := NodeSet.ofList net.leaves
  { net with wires := net.wires.restrict (listed.contains ·) }

/-- Eliminates leaves as the options ask. -/
def eliminate (net : Network P) (o : CompileOptions) : Network P :=
  if o.deadEnds then
    if o.deadLoops then net.removeDeadEnds.pruneDeadLoops else net.removeDeadEnds
  else net

/-- Gives every listed leaf its position as id. -/
def assignIds (net : Network P) : Network P :=
  { net with circuit := numberLeaves net.circuit net.leaves }

/-- Compiles a network. It fails only if the survey meets a node that does not exist. -/
def compile (net : Network P) (o : CompileOptions) : Except Failure (Network P) := do
  let net ← net.reset.identify o.maxDepth
  return (net.restrictWires.eliminate o).assignIds

end Network

end Netlist
