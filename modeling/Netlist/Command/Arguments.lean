/-
Scanning the arguments of a subcommand into its settings. An option takes its value from the same
argument or from the next one, unless that begins with a dash; a double dash ends the options. A
value is judged when the next option or positional argument begins, so that of two faults the
earlier one is reported, except that an argument which is not known at all is reported before the
value in front of it.
-/
import Netlist.Command.Usage

namespace Netlist

variable {σ : Type}

/-! ## Arguments -/

/-- Why a value is not taken. -/
inductive Refusal where
  /-- The value is empty. -/
  | empty
  /-- The value is not one of those that are listed. -/
  | unlisted
  | because (reason : String)
  deriving DecidableEq, Repr

/-- The report of a value that is not taken. -/
def Refusal.usage (title value : String) : Refusal → Usage
  | empty => .missingValue title
  | unlisted => if value.isEmpty then .missingValue title else .unlistedValue title value
  | because reason => .refusedValue title value reason

/-- An argument that has a value. -/
structure Argument (σ : Type) where
  /-- The argument as help texts show it. -/
  title : String
  required : Bool := false
  repeatable : Bool := false
  /-- Takes a value into the settings. -/
  accept : String → σ → Except Refusal σ

/-- An argument that is given behind its name. -/
structure NamedArgument (σ : Type) where
  long : String
  short : Option Char := none
  argument : Argument σ

/-- An argument that is its name alone. -/
structure Flag (σ : Type) where
  long : String
  set : σ → σ

/-- A flag as help texts show it. -/
def Flag.title (f : Flag σ) : String := "--" ++ f.long

/-- The arguments of a command. -/
structure Spec (σ : Type) where
  /-- The name under which the version is reported. -/
  program : String
  /-- The first line of the help text. -/
  about : String
  named : List (NamedArgument σ) := []
  flags : List (Flag σ) := []
  positionals : List (Argument σ) := []

/-- The flags that every command has. -/
inductive Common where
  | help
  | version
  | verbose
  deriving DecidableEq, Repr

namespace Common

/-- The common flag with a long name. -/
def ofLong? : String → Option Common
  | "help" => some help
  | "version" => some version
  | "verbose" => some verbose
  | _ => none

/-- The common flag with a short name. -/
def ofShort? : Char → Option Common
  | 'h' => some help
  | 'V' => some version
  | 'v' => some verbose
  | _ => none

/-- A common flag as help texts show it. The verbosity may be raised again and again. -/
def title : Common → String
  | help => "--help"
  | version => "--version"
  | verbose => "--verbose..."

/-- Carries out a common flag of a command. The verbosity changes nothing that is printed. -/
def perform (spec : Spec σ) : Common → Except Usage Unit
  | help => .error (.help spec.about)
  | version => .error (.version spec.program)
  | verbose => .ok ()

end Common

/-! ## Scanning -/

/-- Arguments that are being scanned. -/
structure Scan (σ : Type) where
  settings : σ
  /-- The arguments and flags that were given, by title. -/
  given : List String := []
  /-- An argument whose value is not judged yet, with its value if that was given. -/
  pending : Option (Argument σ × Option String) := none
  /-- The positional arguments that are not given yet. -/
  positionals : List (Argument σ)

namespace Scan

/-- Takes the value of an argument. -/
def take (s : Scan σ) (a : Argument σ) (value : String) : Except Usage (Scan σ) :=
  if !a.repeatable && s.given.contains a.title then .error (.repeated a.title)
  else
    match a.accept value s.settings with
    | .ok settings => .ok { s with settings, given := a.title :: s.given }
    | .error refusal => .error (refusal.usage a.title value)

/-- Judges the value of the pending argument. -/
def settle (s : Scan σ) : Except Usage (Scan σ) :=
  match s.pending with
  | none => .ok s
  | some (a, none) => .error (.missingValue a.title)
  | some (a, some value) => { s with pending := none }.take a value

/-- Begins an argument that was named, with the value that is attached to the name. -/
def begin (s : Scan σ) (a : Argument σ) (attached : Option String) : Except Usage (Scan σ) := do
  let s ← s.settle
  match attached with
  | some value => s.take a value
  | none => return { s with pending := some (a, none) }

/-- Carries out a common flag. -/
def common (spec : Spec σ) (s : Scan σ) (flag : Common) : Except Usage (Scan σ) := do
  let s ← s.settle
  flag.perform spec
  return s

/-- Sets a flag. -/
def raise (s : Scan σ) (flag : Flag σ) : Except Usage (Scan σ) := do
  let s ← s.settle
  if s.given.contains flag.title then throw (.repeated flag.title)
  return { s with settings := flag.set s.settings, given := flag.title :: s.given }

/-- Takes an argument with a long name, given without its dashes. -/
def takeLong (spec : Spec σ) (s : Scan σ) (text : List Char) : Except Usage (Scan σ) :=
  let name := String.ofList (text.takeWhile (· != '='))
  let attached := match text.dropWhile (· != '=') with
    | [] => none
    | _ :: value => some (String.ofList value)
  match Common.ofLong? name, spec.flags.find? (·.long == name), attached with
  | some flag, _, none => s.common spec flag
  | some flag, _, some value => .error (.unexpectedValue flag.title value)
  | none, some flag, none => s.raise flag
  | none, some flag, some value => .error (.unexpectedValue flag.title value)
  | none, none, attached =>
    match spec.named.find? (·.long == name) with
    | some named => s.begin named.argument attached
    | none => .error (.unknownArgument ("--" ++ name))

/-- The value that is attached to a short name. -/
def attachedToShort : List Char → Option String
  | [] => none
  | '=' :: value => some (String.ofList value)
  | value => some (String.ofList value)

/-- Takes a run of short names, given without their dash. -/
def takeShorts (spec : Spec σ) (s : Scan σ) : List Char → Except Usage (Scan σ)
  | [] => .ok s
  | c :: rest =>
    match Common.ofShort? c with
    | some flag => do takeShorts spec (← s.common spec flag) rest
    | none =>
      match spec.named.find? (·.short == some c) with
      | some named => s.begin named.argument (attachedToShort rest)
      | none => .error (.unknownArgument (String.ofList ['-', c]))

/-- Takes a positional argument. -/
def takePositional (s : Scan σ) (text : String) : Except Usage (Scan σ) :=
  match s.positionals with
  | a :: rest => do
    let s ← s.settle
    return { s with pending := some (a, some text), positionals := rest }
  | [] => .error (.unknownArgument text)

/-- Takes an argument that is no name: the value of the pending argument, or a positional one. -/
def takePlain (s : Scan σ) (text : String) : Except Usage (Scan σ) :=
  match s.pending with
  | some (a, none) => .ok { s with pending := some (a, some text) }
  | _ => s.takePositional text

/-- Takes all arguments. Behind a double dash there are only positional ones. -/
def takeAll (spec : Spec σ) (ended : Bool) (s : Scan σ) : List String → Except Usage (Scan σ)
  | [] => s.settle
  | text :: rest => do
    if ended then takeAll spec ended (← s.takePositional text) rest
    else
      match text.toList with
      | ['-', '-'] => takeAll spec true s rest
      | '-' :: '-' :: name => takeAll spec ended (← s.takeLong spec name) rest
      | '-' :: c :: names => takeAll spec ended (← s.takeShorts spec (c :: names)) rest
      | _ => takeAll spec ended (← s.takePlain text) rest

end Scan

/-! ## Settings -/

namespace Spec

/-- The arguments that must be given. -/
def required (spec : Spec σ) : List (Argument σ) :=
  (spec.named.map (·.argument) ++ spec.positionals).filter (·.required)

/-- The settings that some arguments give. -/
def settings (spec : Spec σ) (default : σ) (args : List String) : Except Usage σ := do
  let s ← Scan.takeAll spec false { settings := default, positionals := spec.positionals } args
  if spec.required.all fun a => s.given.contains a.title then return s.settings
  else throw .missingArguments

end Spec

end Netlist
