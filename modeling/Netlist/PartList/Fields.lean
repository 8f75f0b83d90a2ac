/-
Fields of a record. A record is an object seen as a set of named members: a field is found by any
of its names wherever it stands, and a field that is given twice is refused.
-/
import Netlist.Json.Syntax

namespace Netlist.PartList

/-- The members of an object with their keys as texts. -/
abbrev Fields := List (String × Json)

/-- The fields of an object whose keys are texts. -/
def Fields.ofJson? : Json → Option Fields
  | .object members => members.mapM fun m => (Item.text? m.1).map fun name => (name, m.2)
  | _ => none

namespace Fields

/-- All values that are given for a field with the given names. -/
def values (fields : Fields) (names : List String) : List Json :=
  (fields.filter fun m => names.contains m.1).map (·.2)

/-- The value of a field that must be given. -/
def required? (fields : Fields) (names : List String) : Option Json :=
  match fields.values names with
  | [v] => some v
  | _ => none

/-- The value of a field that may be left out or null. -/
def optional? (fields : Fields) (names : List String) : Option (Option Json) :=
  match fields.values names with
  | [] => some none
  | [.null] => some none
  | [v] => some (some v)
  | _ => none

/-- The fields with other names. -/
def without (fields : Fields) (names : List String) : Fields :=
  fields.filter fun m => !names.contains m.1

end Fields

/-! ## Values of fields -/

/-- A natural number of 32 bits. -/
def word? : Json → Option Nat
  | .number n => do
    let value ← n.nat?
    if value < 0x100000000 then return value else none
  | _ => none

/-- An integer of 32 bits. -/
def integer? : Json → Option Int
  | .number n => do
    let value ← n.int?
    if -0x80000000 ≤ value ∧ value < 0x80000000 then return value else none
  | _ => none

/-- A truth value. -/
def truth? : Json → Option Bool
  | .bool b => some b
  | _ => none

/-- A text. -/
def text? : Json → Option String
  | .string s => Item.text? s
  | _ => none

/-- An array of natural numbers of 32 bits. -/
def words? : Json → Option (List Nat)
  | .array elements => elements.mapM word?
  | _ => none

end Netlist.PartList
