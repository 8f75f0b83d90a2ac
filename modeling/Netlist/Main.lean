/-
The program. It looks up the file that the command names, runs the command on it, writes the file
if it changed and prints what was printed.
-/
import Netlist.Command.Run

namespace Netlist

/-- The path that a command reads or writes. -/
def Command.path : Command → String
  | generate s => s.output
  | stats s => s.file
  | simulate s => s.file

/-- The command on the file at another path. -/
def Command.withPath (path : String) : Command → Command
  | generate s => generate { s with output := path }
  | stats s => stats { s with file := path }
  | simulate s => simulate { s with file := path }

/-- The file at a path as the only one of a folder, by the name `file`. -/
def loadDisk (path : String) : IO Disk := do
  let folder : List (Place × Entry) := [([], .folder)]
  try return ⟨folder ++ [(["file"], .file (← IO.FS.readFile path))], [], []⟩
  catch _ => return ⟨folder, [], []⟩

/-- Runs a command on the files of the system and gives the exit code. -/
def execute (command : Command) : IO UInt32 := do
  let before ← loadDisk command.path
  let outcome := (command.withPath "file").run before
  if outcome.disk ≠ before then
    if let some (.file text) := outcome.disk.entryAt? ["file"] then
      IO.FS.writeFile command.path text
  IO.print outcome.output
  match outcome.failure with
  | none => return 0
  | some e =>
    IO.eprintln ("Error: " ++ e.message)
    return 1

end Netlist

def main (args : List String) : IO UInt32 := do
  match Netlist.Command.ofArguments args with
  | .ok command => Netlist.execute command
  | .error usage =>
    IO.eprintln usage.report
    return 2
