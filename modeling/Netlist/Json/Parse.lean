/-
Reading a JSON value from tokens. The reader takes one token at a time; its state says what must
come next and holds the arrays and objects that are open, innermost first. There is no bound on how
deeply values are nested.
-/
import Netlist.Json.Token

namespace Netlist.Json

/-! ## States -/

/-- An open array or object, with what was read of it. -/
inductive Frame where
  | array (elements : Array Json)
  /-- An object with the key whose value is being read. -/
  | object (members : Array (List Item × Json)) (key : List Item)

/-- What must come next. -/
inductive Expect where
  /-- A value. -/
  | value
  /-- A value, or the end of the array that has just begun. -/
  | firstElement
  /-- A key, or the end of the object that has just begun. -/
  | firstKey
  /-- A key, behind a comma. -/
  | key (members : Array (List Item × Json))
  /-- A colon. -/
  | colon (members : Array (List Item × Json)) (key : List Item)
  /-- The continuation of what is open around the value that has just ended. -/
  | afterValue (v : Json)

/-- The state of the reader. -/
structure Reading where
  expect : Expect
  opened : List Frame := []

namespace Reading

/-- Begins a value. -/
def begin? (opened : List Frame) : Token → Option Reading
  | .null => some ⟨.afterValue .null, opened⟩
  | .bool b => some ⟨.afterValue (.bool b), opened⟩
  | .number n => some ⟨.afterValue (.number n), opened⟩
  | .string s => some ⟨.afterValue (.string s), opened⟩
  | .beginArray => some ⟨.firstElement, opened⟩
  | .beginObject => some ⟨.firstKey, opened⟩
  | _ => none

/-- Continues behind a value. -/
def resume? (v : Json) : List Frame → Token → Option Reading
  | .array elements :: below, .comma => some ⟨.value, .array (elements.push v) :: below⟩
  | .array elements :: below, .endArray =>
    some ⟨.afterValue (.array (elements.push v).toList), below⟩
  | .object members key :: below, .comma => some ⟨.key (members.push (key, v)), below⟩
  | .object members key :: below, .endObject =>
    some ⟨.afterValue (.object (members.push (key, v)).toList), below⟩
  | _, _ => none

/-- Takes a token. -/
def step (r : Reading) (token : Token) : Option Reading :=
  match r.expect, token with
  | .value, token => begin? r.opened token
  | .firstElement, .endArray => some ⟨.afterValue (.array []), r.opened⟩
  | .firstElement, token => begin? (.array #[] :: r.opened) token
  | .firstKey, .endObject => some ⟨.afterValue (.object []), r.opened⟩
  | .firstKey, .string key => some ⟨.colon #[] key, r.opened⟩
  | .key members, .string key => some ⟨.colon members key, r.opened⟩
  | .colon members key, .colon => some ⟨.value, .object members key :: r.opened⟩
  | .afterValue v, token => resume? v r.opened token
  | _, _ => none

/-- The value that was read, if nothing is open any more. -/
def result? : Reading → Option Json
  | ⟨.afterValue v, []⟩ => some v
  | _ => none

end Reading

/-! ## Values -/

/-- The value that some tokens write. -/
def ofTokens? (tokens : List Token) : Option Json := do
  let r ← tokens.foldlM Reading.step ⟨.value, []⟩
  r.result?

/-- The value that a text writes. -/
def parse? (input : List Text.Symbol) : Option Json := do
  ofTokens? (← Token.ofSymbols? input)

end Netlist.Json
