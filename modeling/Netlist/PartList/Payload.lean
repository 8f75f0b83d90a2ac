/-
The payload of a part in a part list. An appearance is written as an object and also read from an
array of its three values in order. Unknown members of an appearance are skipped over without being
looked at, so that no limit on values applies to them.
-/
import Netlist.Json.Print
import Netlist.Part.Basic
import Netlist.PartList.Fields

namespace Netlist.PartList

/-- How a payload is written and read. -/
structure PayloadForm (P : Type) where
  toJson : P → Json
  ofJson? : Json → Option P

/-! ## Appearances -/

/-- A position from an array of three coordinates. -/
def position? : Json → Option (Int × Int × Int)
  | .array [x, y, z] => do return (← integer? x, ← integer? y, ← integer? z)
  | _ => none

/-- Two axes from an array. -/
def axes? : Json → Option (Int × Int)
  | .array [x, z] => do return (← integer? x, ← integer? z)
  | _ => none

/-- The appearance with the given values. -/
def appearanceOf? (color pos axis : Json) : Option Appearance := do
  return { color := ← text? color, pos := ← position? pos, axis := ← axes? axis }

/-- The appearance that a value writes. -/
def appearance? : Json → Option Appearance
  | .array [color, pos, axis] => appearanceOf? color pos axis
  | v => do
    let fields ← Fields.ofJson? v
    appearanceOf? (← fields.required? ["color"]) (← fields.required? ["pos"])
      (← fields.required? ["axis"])

/-- The written form of an appearance. -/
def appearanceJson (a : Appearance) : Json :=
  .ofMembers [
    ("color", .ofText a.color),
    ("pos", .array [.ofInt a.pos.1, .ofInt a.pos.2.1, .ofInt a.pos.2.2]),
    ("axis", .array [.ofInt a.axis.1, .ofInt a.axis.2])]

/-! ## Forms -/

/-- Appearances as payload. -/
def PayloadForm.appearance : PayloadForm Appearance := ⟨appearanceJson, appearance?⟩

/-- No payload at all. -/
def PayloadForm.empty : PayloadForm Empty := ⟨Empty.elim, fun _ => none⟩

end Netlist.PartList
