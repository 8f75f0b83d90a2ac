/-
Running a command on a file system. The outcome holds what was printed and what the file system is
then, also if the command fails.
-/
import Netlist.Command.Disk
import Netlist.Command.Line
import Netlist.Generate.Adder
import Netlist.Generate.Basic
import Netlist.Generate.Random
import Netlist.Network.Basic
import Netlist.Network.Compile
import Netlist.Part.Placement
import Netlist.Part.Stats
import Netlist.PartList.Record
import Netlist.Simulator.Frame

namespace Netlist

/-- What a command leaves behind. -/
structure Outcome where
  disk : Disk
  output : String := ""
  failure : Option Failure := none
  deriving DecidableEq, Repr

/-! ## Files -/

/-- The part list in a file. -/
def readPartFile (disk : Disk) (path : String) : Except Failure (List (Part Appearance)) := do
  PartList.read .appearance (Text.symbols (← disk.read path))

/-- Writes a part list to a file. The file is opened, and by that emptied, before the limits are
checked. -/
def writePartFile (disk : Disk) (path : String) (parts : List (Part Appearance)) :
    Disk × Option Failure :=
  match disk.create path with
  | .error e => (disk, some e)
  | .ok (place, emptied) =>
    match PartList.write .appearance parts with
    | .error e => (emptied, some e)
    | .ok text =>
      match emptied.put place text with
      | .error e => (emptied, some e)
      | .ok written => (written, none)

/-! ## Generate -/

namespace GenerateSettings

/-- The network to generate. Sizes below the domain of a generator are raised into it. -/
def network (s : GenerateSettings) : Except Failure (Network Appearance) :=
  match s.kind with
  | .chain => Generate.chain Appearance (max s.size 1) s.mode
  | .mesh => Generate.mesh Appearance (max s.size 2)
  | .adder => Generate.rippleCarry Appearance s.size
  | .random => Generate.random Appearance (max s.size 1) (max s.maxFanin 1) s.seed

/-- How the network is compiled. -/
def compileOptions (s : GenerateSettings) : CompileOptions :=
  ⟨s.maxDepth, !s.keepDeadEnds, !s.keepDeadEnds⟩

/-- How the parts are placed. -/
def partPlacement (s : GenerateSettings) : Placement :=
  match s.placement with
  | .origin => .origin
  | .linear => .linear s.spacing

/-- The compiled network. -/
def compiled (s : GenerateSettings) : Except Failure (Network Appearance) := do
  (← s.network).compile s.compileOptions

/-- The parts of a compiled network, in their places. -/
def placedParts (s : GenerateSettings) (net : Network Appearance) :
    Except Failure (List (Part Appearance)) := do
  place (← net.parts) s.partPlacement

/-- The line that warns about a diagnostic. -/
def warning (e : Failure) : String := "Warning: " ++ e.message ++ "\n"

/-- Generates a network and writes its part list. -/
def run (s : GenerateSettings) (disk : Disk) : Outcome :=
  match s.compiled with
  | .error e => { disk, failure := some e }
  | .ok net =>
    let warnings := String.join (net.diagnostics.map warning)
    match s.placedParts net with
    | .error e => { disk, output := warnings, failure := some e }
    | .ok parts =>
      match writePartFile disk s.output parts with
      | (disk, some e) => { disk, output := warnings, failure := some e }
      | (disk, none) => { disk, output := warnings ++ (Stats.ofParts parts).render ++ "\n" }

end GenerateSettings

/-! ## Statistics -/

/-- Shows the statistics of a part list. -/
def StatsSettings.run (s : StatsSettings) (disk : Disk) : Outcome :=
  match readPartFile disk s.file with
  | .error e => { disk, failure := some e }
  | .ok parts =>
    { disk, output := "Part list stats:\n" ++ (Stats.ofParts parts).render ++ "\n\n\n" }

/-! ## Simulate -/

namespace SimulateSettings

/-- The simulator after all frames, with the parts driven as asked. -/
def simulator (s : SimulateSettings) (parts : List (Part Appearance)) :
    Except Failure Simulator := do
  let sim ← Simulator.ofParts parts ⟨s.partitions, s.threads⟩
  let sim ← s.drives.foldlM (fun sim d => sim.drive d.part (some d.state)) sim
  return sim.run s.frames

/-- The line of a pinned part. -/
def stateLine (part : Nat) (state : Bool) : String :=
  s!"{part}: " ++ (if state then "1" else "0") ++ "\n"

/-- Simulates a part list and prints the states of its pinned parts. -/
def run (s : SimulateSettings) (disk : Disk) : Outcome :=
  match (do s.simulator (← readPartFile disk s.file) : Except Failure Simulator) with
  | .error e => { disk, failure := some e }
  | .ok sim =>
    { disk, output := String.join (List.zipWith stateLine sim.layout.pinned sim.pinnedStates) }

end SimulateSettings

/-- Runs a command. -/
def Command.run (disk : Disk) : Command → Outcome
  | generate s => s.run disk
  | stats s => s.run disk
  | simulate s => s.run disk

end Netlist
