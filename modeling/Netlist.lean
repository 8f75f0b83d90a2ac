import Netlist.Cell
import Netlist.Circuit.Basic
import Netlist.Circuit.Leaves
import Netlist.Circuit.Node
import Netlist.Circuit.Survey
import Netlist.Circuit.Wiring
import Netlist.Command.Arguments
import Netlist.Command.Disk
import Netlist.Command.Line
import Netlist.Command.Run
import Netlist.Command.Usage
import Netlist.Failure
import Netlist.Generate.Adder
import Netlist.Generate.Basic
import Netlist.Generate.Random
import Netlist.Json.Parse
import Netlist.Json.Print
import Netlist.Json.Sound
import Netlist.Json.Syntax
import Netlist.Json.Token
import Netlist.Main
import Netlist.Network.Basic
import Netlist.Network.Check
import Netlist.Network.Compile
import Netlist.Network.Elimination
import Netlist.Part.Basic
import Netlist.Part.Placement
import Netlist.Part.Stats
import Netlist.PartList.Fields
import Netlist.PartList.Payload
import Netlist.PartList.Record
import Netlist.Proofs.Circuit.Branches
import Netlist.Proofs.Circuit.Built
import Netlist.Proofs.Circuit.Cells
import Netlist.Proofs.Circuit.Connections
import Netlist.Proofs.Circuit.Each
import Netlist.Proofs.Circuit.Edits
import Netlist.Proofs.Circuit.Joining
import Netlist.Proofs.Circuit.Leniency
import Netlist.Proofs.Circuit.Nesting
import Netlist.Proofs.Circuit.Ports
import Netlist.Proofs.Circuit.Preorder
import Netlist.Proofs.Circuit.Recursion
import Netlist.Proofs.Circuit.Renaming
import Netlist.Proofs.Circuit.Reordering
import Netlist.Proofs.Circuit.Repeats
import Netlist.Proofs.Circuit.Row
import Netlist.Proofs.Circuit.Survey
import Netlist.Proofs.Circuit.Unfolding
import Netlist.Proofs.Circuit.Worklist
import Netlist.Proofs.Command.Disk
import Netlist.Proofs.Command.Drive
import Netlist.Proofs.Command.Export
import Netlist.Proofs.Command.Limits
import Netlist.Proofs.Command.Reload
import Netlist.Proofs.Command.Simulate
import Netlist.Proofs.Generate.Adder
import Netlist.Proofs.Generate.Addition
import Netlist.Proofs.Generate.Built
import Netlist.Proofs.Generate.Chain
import Netlist.Proofs.Generate.Entire
import Netlist.Proofs.Generate.Limits
import Netlist.Proofs.Generate.Plain
import Netlist.Proofs.Generate.Random
import Netlist.Proofs.Generate.Ring
import Netlist.Proofs.Generate.Rooted
import Netlist.Proofs.Generate.Row
import Netlist.Proofs.Generate.Wired
import Netlist.Proofs.Json.RoundTrip
import Netlist.Proofs.Json.Spacing
import Netlist.Proofs.Json.Token
import Netlist.Proofs.Network.Algebra
import Netlist.Proofs.Network.Anchored
import Netlist.Proofs.Network.Budget
import Netlist.Proofs.Network.Check
import Netlist.Proofs.Network.Compile
import Netlist.Proofs.Network.DeadEnds
import Netlist.Proofs.Network.Descriptions
import Netlist.Proofs.Network.Elimination
import Netlist.Proofs.Network.Export
import Netlist.Proofs.Network.Ids
import Netlist.Proofs.Network.Limits
import Netlist.Proofs.Network.Passes
import Netlist.Proofs.Network.Renaming
import Netlist.Proofs.Network.Reordering
import Netlist.Proofs.Network.Settling
import Netlist.Proofs.Network.Simulation
import Netlist.Proofs.Network.Survivors
import Netlist.Proofs.Network.Wires
import Netlist.Proofs.Operation
import Netlist.Proofs.Part.Placement
import Netlist.Proofs.Part.Rows
import Netlist.Proofs.Part.Stats
import Netlist.Proofs.PartList.Edits
import Netlist.Proofs.PartList.Records
import Netlist.Proofs.PartList.RoundTrip
import Netlist.Proofs.Schematic
import Netlist.Proofs.Script
import Netlist.Proofs.Sequence
import Netlist.Proofs.Simulator.Frame
import Netlist.Proofs.Simulator.History
import Netlist.Proofs.Simulator.Influence
import Netlist.Proofs.Simulator.Layout
import Netlist.Proofs.Simulator.Pieces
import Netlist.Proofs.Simulator.Ranges
import Netlist.Proofs.Simulator.Schedule
import Netlist.Proofs.Simulator.Settling
import Netlist.Proofs.Text.Integer
import Netlist.Proofs.Text.Utf8
import Netlist.Simulator.Basic
import Netlist.Simulator.DelayLine
import Netlist.Simulator.Frame
import Netlist.Simulator.Pieces
import Netlist.Text.Basic
import Netlist.Text.Control
import Netlist.Text.Utf8
import Netlist.Visited
