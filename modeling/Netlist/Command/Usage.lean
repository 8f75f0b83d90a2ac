/-
Command lines that do not run anything: those that are refused, and those that ask for help or the
version. Each has one cause, and the first line of its report is given here. A report marks
arguments and values with colors, which are taken out again together with all other control
sequences; a value that is not marked may thus swallow what stands behind it, line ends included.
-/
import Netlist.Text.Control

namespace Netlist

/-! ## Causes -/

/-- Why a command line does not run anything. Arguments are named as help texts show them. -/
inductive Usage where
  /-- No subcommand and nothing else was given. -/
  | bareCommand (about : String)
  | help (about : String)
  | version (program : String)
  | missingSubcommand (program : String)
  | unknownSubcommand (text : String)
  | unknownArgument (text : String)
  /-- A mandatory argument was not given. -/
  | missingArguments
  /-- An argument was given without its value. -/
  | missingValue (argument : String)
  /-- The value is not one of those that are listed for the argument. -/
  | unlistedValue (argument value : String)
  | refusedValue (argument value reason : String)
  /-- A value was given to an argument that takes none. -/
  | unexpectedValue (argument value : String)
  | repeated (argument : String)
  deriving DecidableEq, Repr

/-! ## Pieces of a report -/

/-- A piece of a report. -/
inductive Piece where
  | plain (text : String)
  /-- A text in color. The color begins outside of any control sequence and ends all of them. -/
  | marked (text : String)
  deriving DecidableEq, Repr

namespace Piece

/-- The characters that are shown of some pieces, the first of which stands where `s` says. -/
def shown (s : Text.Control) : List Piece → List Char
  | [] => []
  | plain text :: rest =>
    let (kept, s) := s.strip text.toList
    kept ++ shown s rest
  | marked text :: rest => (Text.Control.outside.strip text.toList).1 ++ shown .outside rest

end Piece

/-- The first line of a text, without the carriage return at its end. -/
def firstLine (cs : List Char) : List Char :=
  let line := cs.takeWhile (· != '\n')
  if line.getLast? = some '\r' then line.dropLast else line

/-! ## Reports -/

namespace Usage

/-- The version of the program. -/
def programVersion : String := "0.1.0"

/-- A report of a refused command line, which closes with a hint. -/
def refusal (pieces : List Piece) : List Piece :=
  .plain "error: " :: pieces ++
    [.plain "\n\nFor more information, try '", .marked "--help", .plain "'.\n"]

/-- The beginning of the report of a value that is not taken. -/
def invalidValue (argument value : String) : List Piece :=
  [.plain "invalid value '", .marked value, .plain "' for '", .marked argument, .plain "'"]

/-- The report of a command line that does not run anything, down to the first line and the hint. -/
def pieces : Usage → List Piece
  | bareCommand about => [.plain about]
  | help about => [.plain about]
  | version program => [.plain s!"{program} {programVersion}"]
  | missingSubcommand program =>
    refusal [.plain "'", .marked program,
      .plain "' requires a subcommand but one was not provided"]
  | unknownSubcommand text =>
    refusal [.plain "unrecognized subcommand '", .marked text, .plain "'"]
  | unknownArgument text =>
    refusal [.plain "unexpected argument '", .marked text, .plain "' found"]
  | missingArguments => refusal [.plain "the following required arguments were not provided:"]
  | missingValue argument =>
    refusal [.plain "a value is required for '", .marked argument,
      .plain "' but none was supplied"]
  | unlistedValue argument value => refusal (invalidValue argument value)
  | refusedValue argument value reason =>
    refusal (invalidValue argument value ++ [.plain (": " ++ reason)])
  | unexpectedValue argument value =>
    refusal [.plain "unexpected value '", .marked value, .plain "' for '", .marked argument,
      .plain "' found; no more were expected"]
  | repeated argument =>
    refusal [.plain "the argument '", .marked argument, .plain "' cannot be used multiple times"]

/-- The first line of the report of a command line that does not run anything. -/
def report (u : Usage) : String :=
  String.ofList (firstLine (Piece.shown .outside u.pieces))

end Usage

end Netlist
