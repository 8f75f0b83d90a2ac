/-
Part lists as texts: an array with a record for each part. Writing is refused if a part is beyond the
export limits; the fields of a part stand in a fixed order, and a part without payload has no such
field. When a record is read, the kind of a part and its parameters are gathered from all members that
are not fields of the record itself, and such a member must hold a value that can be held in memory, at
most 127 levels deep counted from the array of parts; a parameter that the kind does not use is
ignored. Ids need not be positions here.
-/
import Netlist.Json.Parse
import Netlist.Json.Sound
import Netlist.PartList.Payload

namespace Netlist.PartList

variable {P : Type}

/-! ## Writing -/

/-- The kind of a cell and its parameters. -/
def cellMembers : Cell → List (String × Json)
  | .gate mode => [("kind", .ofText "gate"), ("mode", .ofNat mode.code)]
  | .timer ticks seconds =>
    [("kind", .ofText "timer"), ("ticks", .ofNat ticks), ("seconds", .ofNat seconds)]

/-- The members of the record of a part. -/
def partMembers (form : PayloadForm P) (p : Part P) : List (String × Json) :=
  ("id", .ofNat p.id) :: cellMembers p.cell ++
    [("connections", .array (p.connections.map .ofNat)),
      ("connections_from", .array (p.connectionsFrom.map .ofNat)),
      ("pinned", .bool p.pinned)] ++
    (match p.payload with
      | none => []
      | some payload => [("payload", form.toJson payload)])

/-- The record of a part. -/
def partJson (form : PayloadForm P) (p : Part P) : Json := .ofMembers (partMembers form p)

/-- The text of a part list, within limits or not. -/
def render (form : PayloadForm P) (parts : List (Part P)) : String :=
  String.ofList (Json.pretty 0 (.array (parts.map (partJson form))) ++ ['\n'])

/-- The text of a part list within the export limits. -/
def write (form : PayloadForm P) (parts : List (Part P)) : Except Failure String := do
  checkLimits parts
  return render form parts

/-! ## Reading -/

/-- The names of the fields of a part, its kind and parameters apart. -/
def recordNames : List String :=
  ["id", "connections", "connections_from", "pinned", "important", "payload"]

/-- The levels of arrays and objects that a part may have within it. -/
def levelLimit : Nat := 125

/-- Whether a kind is that of a timer: kinds are written by name or by number. -/
def isTimer? : Json → Option Bool
  | .string s =>
    if s = Item.ofText "gate" then some false
    else if s = Item.ofText "timer" then some true
    else none
  | v =>
    match word? v with
    | some 0 => some false
    | some 1 => some true
    | _ => none

/-- The cell that some fields describe. -/
def cell? (fields : Fields) : Option Cell := do
  if ← isTimer? (← fields.required? ["kind"]) then
    let ticks ← word? (← fields.required? ["ticks"])
    let seconds ← word? (← fields.required? ["seconds"])
    return .timer ticks seconds
  else return .gate (← Mode.ofCode? (← word? (← fields.required? ["mode"])))

/-- The part that a record writes. -/
def part? (form : PayloadForm P) (v : Json) : Option (Part P) := do
  let fields ← Fields.ofJson? v
  let others := fields.without recordNames
  if !others.all (·.2.isSound levelLimit) then none
  let payload ← match ← fields.optional? ["payload"] with
    | none => some none
    | some v => (form.ofJson? v).map some
  return {
    id := ← word? (← fields.required? ["id"])
    cell := ← cell? others
    connections := ← words? (← fields.required? ["connections"])
    connectionsFrom := ← words? (← fields.required? ["connections_from"])
    pinned := ← truth? (← fields.required? ["pinned", "important"])
    payload }

/-- The part list that a value writes. -/
def ofJson (form : PayloadForm P) (v : Json) : Except Failure (List (Part P)) :=
  match v with
  | .array elements =>
    match elements.mapM (part? form) with
    | some parts => .ok parts
    | none => .error .malformed
  | _ => .error .malformed

/-- The part list that a text writes, given as symbols. -/
def read (form : PayloadForm P) (input : List Text.Symbol) : Except Failure (List (Part P)) :=
  match Json.parse? input with
  | some v => ofJson form v
  | none => .error .malformed

end Netlist.PartList
