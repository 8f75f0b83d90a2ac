/-
JSON values as they are written. A string is kept as the sequence of its characters with escapes
resolved, in which half of a surrogate pair, or a byte that is no UTF-8, may stand alone; a number
is kept as its digits; an object is kept as its members in order, with repetitions. Whether such a
string is a text and whether such a number has a value is asked only where it matters.
-/
namespace Netlist

/-! ## Values -/

/-- One character of a string. -/
inductive Item where
  | char (c : Char)
  /-- Half of a surrogate pair, written as an escape. -/
  | surrogate (code : Nat)
  /-- A byte that is no part of a character. -/
  | stray
  deriving DecidableEq, Repr

/-- The exponent of a number. -/
structure Exponent where
  negative : Bool
  digits : List Char
  deriving DecidableEq, Repr

/-- A number as it is written. -/
structure Numeral where
  negative : Bool
  /-- The digits before the point. -/
  whole : List Char
  /-- The digits behind the point. -/
  fraction : Option (List Char) := none
  exponent : Option Exponent := none
  deriving DecidableEq, Repr

/-- A JSON value. -/
inductive Json where
  | null
  | bool (b : Bool)
  | number (n : Numeral)
  | string (s : List Item)
  | array (elements : List Json)
  | object (members : List (List Item × Json))

/-! ## Texts -/

/-- The items of a text. -/
def Item.ofText (text : String) : List Item := text.toList.map Item.char

namespace Item

/-- Whether a code is the first half of a surrogate pair. -/
def isHigh (code : Nat) : Bool := 0xd800 ≤ code && code < 0xdc00

/-- Whether a code is the second half of a surrogate pair. -/
def isLow (code : Nat) : Bool := 0xdc00 ≤ code && code < 0xe000

/-- The character of a surrogate pair. -/
def pair (high low : Nat) : Char := Char.ofNat (0x10000 + (high - 0xd800) * 0x400 + (low - 0xdc00))

/-- The characters of a string, if every surrogate is paired and every byte belongs to a
character. -/
def chars? : List Item → Option (List Char)
  | [] => some []
  | char c :: rest => (chars? rest).map (c :: ·)
  | surrogate high :: surrogate low :: rest =>
    if isHigh high && isLow low then (chars? rest).map (pair high low :: ·) else none
  | surrogate _ :: _ => none
  | stray :: _ => none

/-- The text of a string. -/
def text? (s : List Item) : Option String := (chars? s).map String.ofList

theorem chars?_map_char (cs : List Char) : chars? (cs.map char) = some cs := by
  induction cs with
  | nil => rfl
  | cons c rest ih => simp [chars?, ih]

@[simp] theorem text?_ofText (text : String) : text? (ofText text) = some text := by
  simp [text?, ofText, chars?_map_char]

end Item

/-! ## Integers -/

namespace Numeral

/-- The numeral of a natural number. -/
def ofNat (n : Nat) : Numeral := ⟨false, Nat.toDigits 10 n, none, none⟩

/-- The numeral of an integer. -/
def ofInt (z : Int) : Numeral := ⟨z < 0, Nat.toDigits 10 z.natAbs, none, none⟩

/-- The natural number that a numeral without sign, point and exponent writes. -/
def nat? (n : Numeral) : Option Nat :=
  if n.negative || n.fraction.isSome || n.exponent.isSome then none
  else some (Nat.ofDigitChars 10 n.whole 0)

/-- The integer that a numeral without point and exponent writes; a negative zero is none. -/
def int? (n : Numeral) : Option Int :=
  if n.fraction.isSome || n.exponent.isSome then none
  else
    let value := Nat.ofDigitChars 10 n.whole 0
    if n.negative then if value = 0 then none else some (-value) else some value

end Numeral

end Netlist
