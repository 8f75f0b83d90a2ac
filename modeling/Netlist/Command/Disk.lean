/-
The file system that a command runs on: folders, files and devices at places, and links to places. A
path has `/` between its names. It begins at the folder of the command, or at the root if it begins
with `/`, and leads from name to name as long as there are folders.
-/
import Netlist.Failure

namespace Netlist

/-! ## Places -/

/-- Where something stands: the names on the way from the root, its own name last. -/
abbrev Place := List String

namespace Place

/-- The names in a path. -/
def names (path : String) : List String := (path.toList.splitOn '/').map String.ofList

/-- The place that a name leads to. Empty names and single dots say nothing, and two dots lead one
folder up. -/
def enter (place : Place) (name : String) : Place :=
  if name == "" || name == "." then place
  else if name == ".." then place.dropLast
  else place ++ [name]

example : ["..", "..", "dev", ".", "null"].foldl enter ["tmp"] = ["dev", "null"] := by decide

end Place

/-! ## Entries -/

/-- What can be opened like a file but keeps nothing of what is written to it. -/
structure Device where
  /-- The text that is read from it. -/
  text : String := ""
  /-- Why it takes no text, if it takes none. -/
  fault : Option FileFault := none
  deriving DecidableEq, Repr

namespace Device

/-- The number of bytes that are gathered before any are handed to a file. -/
def blockSize : Nat := 8192

/-- Why a device does not take a text that ends with a line end. What does not fit a block is
refused while the records are written, the rest at the end. -/
def refusal? (device : Device) (text : String) : Option Failure :=
  match device.fault with
  | none => none
  | some fault =>
    if text.isEmpty then none
    else if blockSize + 1 < text.utf8ByteSize then some .malformed
    else some (.file fault)

end Device

/-- What stands at a place. -/
inductive Entry where
  /-- A folder. If there is a fault, then no file can be created in it. -/
  | folder (fault : Option FileFault := none)
  | file (text : String)
  | device (device : Device)
  /-- What cannot be opened, for the given reason. -/
  | closed (fault : FileFault)
  deriving DecidableEq, Repr

/-! ## File systems -/

/-- A file system as a command sees it. Commands write files, but they leave folders and links as
they are. -/
structure Disk where
  /-- What stands at places. -/
  entries : List (Place × Entry)
  /-- Links, with the places that they lead to in the end. -/
  links : List (Place × Place) := []
  /-- The folder of the command. -/
  home : Place := []
  deriving DecidableEq, Repr

namespace Disk

/-- What stands at a place, if anything does. -/
def entryAt? (disk : Disk) (place : Place) : Option Entry := disk.entries.lookup place

/-- The place that a link leads to; any other place leads to itself. -/
def resolve (disk : Disk) (place : Place) : Place := (disk.links.lookup place).getD place

/-- Puts a file at a place. -/
def store (disk : Disk) (place : Place) (text : String) : Disk :=
  { disk with entries := (place, .file text) :: disk.entries.filter (·.1 != place) }

/-! ## Paths -/

/-- The number of bytes that a name may have. -/
def maxName : Nat := 255

/-- The number of bytes that a path may have. -/
def maxPath : Nat := 4095

/-- Where a path begins. -/
def start (disk : Disk) (path : String) : Place := if path.startsWith '/' then [] else disk.home

/-- The place that a name leads to from a place, which must be a folder. -/
def enter (disk : Disk) (place : Place) (name : String) : Except Failure Place :=
  match disk.entryAt? place with
  | some (.folder _) =>
    if maxName < name.utf8ByteSize then .error (.file .nameTooLong)
    else .ok (disk.resolve (place.enter name))
  | some _ => .error (.file .notADirectory)
  | none => .error (.file .notFound)

/-- The place that some names lead to, if they stand in a path. -/
def follow (disk : Disk) (path : String) (names : List String) : Except Failure Place :=
  if path.contains '\x00' then .error (.file .nullInName)
  else if path.isEmpty then .error (.file .notFound)
  else if maxPath < path.utf8ByteSize then .error (.file .nameTooLong)
  else names.foldlM disk.enter (disk.start path)

/-! ## Reading and writing -/

/-- The text of a file. A folder can be opened but has no text that could be read. -/
def read (disk : Disk) (path : String) : Except Failure String := do
  match disk.entryAt? (← disk.follow path (Place.names path)) with
  | some (.folder _) => throw .malformed
  | some (.file text) => return text
  | some (.device device) => return device.text
  | some (.closed fault) => throw (.file fault)
  | none => throw (.file .notFound)

/-- The place of the file that a path names for writing. A path that ends with `/` never names a file,
whatever its last name is. -/
def destination (disk : Disk) (path : String) : Except Failure Place := do
  let names := ((Place.names path).reverse.dropWhile (· == "")).reverse
  let parent ← disk.follow path names.dropLast
  let place ← disk.enter parent (if path.endsWith '/' then "" else names.getLastD "")
  if path.endsWith '/' then throw (.file .isADirectory)
  return place

/-- Why no file can be created at a place: it needs a folder that takes files. -/
def creationFault? (disk : Disk) (place : Place) : Option FileFault :=
  match disk.entryAt? place.dropLast with
  | some (.folder fault) => fault
  | some _ => some .notADirectory
  | none => some .notFound

/-- Puts a text to the file at a place, which is created if nothing is there. A device takes the text and
keeps nothing. -/
def put (disk : Disk) (place : Place) (text : String) : Except Failure Disk :=
  match disk.entryAt? place with
  | some (.folder _) => .error (.file .isADirectory)
  | some (.file _) => .ok (disk.store place text)
  | some (.device device) =>
    match device.refusal? text with
    | some e => .error e
    | none => .ok disk
  | some (.closed fault) => .error (.file fault)
  | none =>
    match disk.creationFault? place with
    | some fault => .error (.file fault)
    | none => .ok (disk.store place text)

/-- Opens a file for writing: the file is created, or emptied. What is written goes to its place. -/
def create (disk : Disk) (path : String) : Except Failure (Place × Disk) := do
  let place ← disk.destination path
  return (place, ← disk.put place "")

end Disk

end Netlist
