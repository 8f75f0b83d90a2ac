/-
Values that can be held in memory: every string is a text, every number is finite, and arrays and
objects are nested no deeper than a limit.

A number is finite if a reader of binary floating point accepts it. The digits of a number are gathered
into a significand of 64 bits; what does not fit is dropped, digits before the point raising the
exponent instead. The significand is rounded to 53 bits and multiplied by a power of ten that is rounded
to 53 bits as well; the number is refused if the product rounds beyond the largest finite value.
-/
import Netlist.Json.Syntax

namespace Netlist

/-! ## Numbers -/

namespace Numeral

/-- A decimal number that is being read: its value is `significand * 10 ^ exponent`. -/
structure Scaled where
  significand : Nat
  exponent : Int
  deriving DecidableEq, Repr

/-- Whether a digit still fits behind a significand of 64 bits. -/
def roomFor (significand : Nat) (digit : Char) : Bool :=
  significand * 10 + (digit.toNat - '0'.toNat) < 1 <<< 64

/-- Reads the digits before the point. After the first digit without room all are dropped. -/
def readWhole (significand : Nat) : List Char → Scaled
  | [] => ⟨significand, 0⟩
  | d :: rest =>
    if roomFor significand d then readWhole (significand * 10 + (d.toNat - '0'.toNat)) rest
    else ⟨significand, rest.length + 1⟩

/-- Reads the digits behind the point. After the first digit without room all are dropped. -/
def readFraction (x : Scaled) : List Char → Scaled
  | [] => x
  | d :: rest =>
    if roomFor x.significand d then
      readFraction ⟨x.significand * 10 + (d.toNat - '0'.toNat), x.exponent - 1⟩ rest
    else x

/-- The number that the digits and the exponent of a numeral give. -/
def scaled (n : Numeral) : Scaled :=
  let x := readFraction (readWhole 0 n.whole) (n.fraction.getD [])
  match n.exponent with
  | none => x
  | some e =>
    let shift := Nat.ofDigitChars 10 e.digits 0
    ⟨x.significand, if e.negative then x.exponent - shift else x.exponent + shift⟩

/-- A natural number rounded to 53 significant bits, a tie going to the even neighbour. -/
def round53 (n : Nat) : Nat :=
  let unit := 1 <<< (n.log2 - 52)
  let q := n / unit
  let twice := 2 * (n % unit)
  (if unit < twice || (twice == unit && q % 2 == 1) then q + 1 else q) * unit

/-- The largest exponent of ten that a finite value can have. -/
def maxExponent : Int := 308

/-- The least number that rounds beyond the largest finite value. -/
def overflowBound : Nat := (1 <<< 1024) - (1 <<< 970)

/-- Whether a number has a finite value. -/
def isFinite (n : Numeral) : Bool :=
  let x := n.scaled
  if x.significand = 0 || x.exponent ≤ 0 then true
  else if maxExponent < x.exponent then false
  else round53 x.significand * round53 (Nat.pow 10 x.exponent.toNat) < overflowBound

-- The largest finite value is the nearest one to this number, but the two factors are rounded apart.
example : isFinite ⟨false, ['1'], some "7976931348623158".toList, some ⟨false, ['3', '0', '8']⟩⟩ = false := by
  decide +kernel

end Numeral

/-! ## Values -/

namespace Json

/-- Whether a string is a text. -/
def isText (s : List Item) : Bool := (Item.chars? s).isSome

mutual

/-- Whether a value can be held, with at most `limit` levels of arrays and objects. -/
def isSound (limit : Nat) : Json → Bool
  | null => true
  | bool _ => true
  | number n => n.isFinite
  | string s => isText s
  | array elements =>
    match limit with
    | 0 => false
    | limit + 1 => areSound limit elements
  | object members =>
    match limit with
    | 0 => false
    | limit + 1 => areSoundMembers limit members

/-- Whether all elements of an array can be held. -/
def areSound (limit : Nat) : List Json → Bool
  | [] => true
  | v :: rest => isSound limit v && areSound limit rest

/-- Whether all members of an object can be held. -/
def areSoundMembers (limit : Nat) : List (List Item × Json) → Bool
  | [] => true
  | (key, v) :: rest => isText key && isSound limit v && areSoundMembers limit rest

end

end Json

end Netlist
