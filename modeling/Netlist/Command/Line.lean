/-
The command line: three subcommands with their arguments. Only the subcommand itself, and common
flags in front of it, are arguments of the program.

A forced state is written as the id of a part, an equals sign, and 0 or 1. Blanks may surround both
sides.
-/
import Netlist.Cell
import Netlist.Command.Arguments

namespace Netlist

/-! ## Forced states -/

/-- A part that is forced into a state. -/
structure Drive where
  part : Nat
  state : Bool
  deriving DecidableEq, Repr

/-- Reads a forced state. The refusal is a sentence. -/
def Drive.parse (text : String) : Except String Drive :=
  let cs := text.toList
  match cs.dropWhile (· != '=') with
  | [] => .error s!"expected ID=0 or ID=1, got '{text}'"
  | _ :: behind =>
    let front := cs.takeWhile (· != '=')
    match Text.readUnsigned 32 (Text.trim front) with
    | .error fault =>
      .error ("invalid part id '" ++ String.ofList front ++ "': " ++ fault.message)
    | .ok part =>
      match Text.trim behind with
      | ['0'] => .ok ⟨part, false⟩
      | ['1'] => .ok ⟨part, true⟩
      | state => .error ("invalid state '" ++ String.ofList state ++ "', expected 0 or 1")

/-! ## Settings -/

/-- The networks that can be generated. -/
inductive NetworkKind where
  | chain
  | mesh
  | adder
  | random
  deriving DecidableEq, Repr

/-- The placements that can be chosen. -/
inductive PlacementKind where
  | origin
  | linear
  deriving DecidableEq, Repr

/-- The settings of `generate`. -/
structure GenerateSettings where
  kind : NetworkKind := .chain
  output : String := ""
  size : Nat := 8
  mode : Mode := .and
  maxFanin : Nat := 3
  seed : UInt64 := 1
  maxDepth : Nat := 900
  keepDeadEnds : Bool := false
  placement : PlacementKind := .linear
  spacing : Int := 1
  deriving DecidableEq, Repr

/-- The settings of `show`. -/
structure StatsSettings where
  file : String := ""
  deriving DecidableEq, Repr

/-- The settings of `simulate`. -/
structure SimulateSettings where
  file : String := ""
  frames : Nat := 100
  partitions : Nat := 1
  threads : Option Nat := none
  drives : List Drive := []
  deriving DecidableEq, Repr

/-- What a command line asks for. -/
inductive Command where
  | generate (settings : GenerateSettings)
  | stats (settings : StatsSettings)
  | simulate (settings : SimulateSettings)
  deriving DecidableEq, Repr

/-! ## Values -/

namespace Value

variable {σ : Type}

/-- Accepts a natural number of 64 bits. -/
def natural (set : Nat → σ → σ) (text : String) (s : σ) : Except Refusal σ :=
  match Text.readUnsigned 64 text.toList with
  | .ok n => .ok (set n s)
  | .error fault => .error (.because fault.message)

/-- Accepts an integer of 32 bits. What fits 64 bits is refused by its range. -/
def coordinate (set : Int → σ → σ) (text : String) (s : σ) : Except Refusal σ :=
  match Text.readSigned 64 text.toList with
  | .ok z =>
    if -2147483648 ≤ z ∧ z ≤ 2147483647 then .ok (set z s)
    else .error (.because s!"{z} is not in -2147483648..=2147483647")
  | .error fault => .error (.because fault.message)

/-- Accepts a path. -/
def path (set : String → σ → σ) (text : String) (s : σ) : Except Refusal σ :=
  if text.isEmpty then .error .empty else .ok (set text s)

/-- Accepts one of some names. -/
def choice {α : Type} (choices : List (String × α)) (set : α → σ → σ) (text : String) (s : σ) :
    Except Refusal σ :=
  match choices.find? (·.1 == text) with
  | some c => .ok (set c.2 s)
  | none => .error .unlisted

/-- Accepts the name of a gate mode. -/
def mode (set : Mode → σ → σ) (text : String) (s : σ) : Except Refusal σ :=
  match Mode.ofName text with
  | .ok m => .ok (set m s)
  | .error e => .error (.because e.message)

/-- Accepts a forced state. -/
def drive (set : Drive → σ → σ) (text : String) (s : σ) : Except Refusal σ :=
  match Drive.parse text with
  | .ok d => .ok (set d s)
  | .error reason => .error (.because reason)

end Value

/-! ## Subcommands -/

/-- The arguments of `generate`. -/
def generateSpec : Spec GenerateSettings where
  program := "smlogic-generate"
  about := "Generate a network, compile it and write its part list"
  positionals := [
    { title := "<KIND>", required := true
      accept := Value.choice
        [("chain", .chain), ("mesh", .mesh), ("adder", .adder), ("random", .random)]
        fun kind s => { s with kind } }]
  flags := [⟨"keep-dead-ends", ({ · with keepDeadEnds := true })⟩]
  named := [
    ⟨"output", some 'o',
      { title := "--output <OUTPUT>", required := true
        accept := Value.path fun output s => { s with output } }⟩,
    ⟨"size", some 'n',
      { title := "--size <SIZE>", accept := Value.natural fun size s => { s with size } }⟩,
    ⟨"mode", none,
      { title := "--mode <MODE>", accept := Value.mode fun mode s => { s with mode } }⟩,
    ⟨"max-fanin", none,
      { title := "--max-fanin <MAX_FANIN>"
        accept := Value.natural fun maxFanin s => { s with maxFanin } }⟩,
    ⟨"seed", none,
      { title := "--seed <SEED>"
        accept := Value.natural fun n s => { s with seed := n.toUInt64 } }⟩,
    ⟨"max-depth", none,
      { title := "--max-depth <MAX_DEPTH>"
        accept := Value.natural fun maxDepth s => { s with maxDepth } }⟩,
    ⟨"placement", none,
      { title := "--placement <PLACEMENT>"
        accept := Value.choice [("origin", .origin), ("linear", .linear)]
          fun placement s => { s with placement } }⟩,
    ⟨"spacing", none,
      { title := "--spacing <SPACING>"
        accept := Value.coordinate fun spacing s => { s with spacing } }⟩]

/-- The arguments of `show`. -/
def statsSpec : Spec StatsSettings where
  program := "smlogic-show"
  about := "Show statistics about a part list"
  positionals := [
    { title := "<FILE>", required := true, accept := Value.path fun file s => { s with file } }]

/-- The arguments of `simulate`. -/
def simulateSpec : Spec SimulateSettings where
  program := "smlogic-simulate"
  about := "Simulate a part list"
  positionals := [
    { title := "<FILE>", required := true, accept := Value.path fun file s => { s with file } }]
  named := [
    ⟨"frames", some 'f',
      { title := "--frames <FRAMES>", accept := Value.natural fun frames s => { s with frames } }⟩,
    ⟨"partitions", some 'p',
      { title := "--partitions <PARTITIONS>"
        accept := Value.natural fun partitions s => { s with partitions } }⟩,
    ⟨"threads", some 'j',
      { title := "--threads <THREADS>"
        accept := Value.natural fun n s => { s with threads := some n } }⟩,
    ⟨"drive", some 'd',
      { title := "--drive <DRIVE>", repeatable := true
        accept := Value.drive fun d s => { s with drives := s.drives ++ [d] } }⟩]

/-- The subcommands of the program. -/
inductive Subcommand where
  | generate
  | stats
  | simulate
  | help
  deriving DecidableEq, Repr

namespace Subcommand

/-- The subcommand with the given name. -/
def ofName? : String → Option Subcommand
  | "generate" => some generate
  | "gen" => some generate
  | "show" => some stats
  | "simulate" => some simulate
  | "sim" => some simulate
  | "help" => some help
  | _ => none

/-- The first line of the help text of a subcommand. -/
def about : Subcommand → String
  | generate => generateSpec.about
  | stats => statsSpec.about
  | simulate => simulateSpec.about
  | help => "Print this message or the help of the given subcommand(s)"

end Subcommand

/-! ## Arguments of the program -/

/-- The program has no arguments but its subcommand. -/
def programSpec : Spec Unit where
  program := "smlogic"
  about := "Logic-gate netlist compiler and frame-based simulator"

/-- What asking for help about some subcommand reports. -/
def helpAbout : List String → Usage
  | [] => .help programSpec.about
  | name :: rest =>
    match Subcommand.ofName? name, rest with
    | none, _ => .unknownSubcommand name
    | some sub, [] => .help sub.about
    | some _, other :: _ => .unknownSubcommand other

namespace Command

/-- The command that a subcommand and its arguments ask for. -/
def ofSubcommand (args : List String) : Subcommand → Except Usage Command
  | .generate => generate <$> generateSpec.settings {} args
  | .stats => stats <$> statsSpec.settings {} args
  | .simulate => simulate <$> simulateSpec.settings {} args
  | .help => .error (helpAbout args)

/-- Reads arguments up to the subcommand. `flagged` tells whether a common flag was given, and
`ended` whether a double dash was. -/
def ofArgumentsFrom (flagged ended : Bool) : List String → Except Usage Command
  | [] =>
    .error (if flagged then .missingSubcommand programSpec.program
      else .bareCommand programSpec.about)
  | text :: rest =>
    match Subcommand.ofName? text, ended with
    | some sub, false => ofSubcommand rest sub
    | some _, true => .error (.unknownArgument text)
    | none, true => .error (.unknownSubcommand text)
    | none, false =>
      let scan : Scan Unit := { settings := (), positionals := [] }
      match text.toList with
      | ['-', '-'] => ofArgumentsFrom flagged true rest
      | '-' :: '-' :: name => do
        let _ ← scan.takeLong programSpec name
        ofArgumentsFrom true ended rest
      | '-' :: c :: names => do
        let _ ← scan.takeShorts programSpec (c :: names)
        ofArgumentsFrom true ended rest
      | _ => .error (.unknownSubcommand text)

/-- The command that the arguments of the program ask for. -/
def ofArguments (args : List String) : Except Usage Command := ofArgumentsFrom false false args

end Command

end Netlist
