/-
Blanks and integers in texts. Blank characters are those with the Unicode property White_Space: the
ASCII controls from tab to carriage return, the space, and nineteen characters beyond ASCII. Integers
of bounded width are read from decimal text. A sign may stand in front, a minus only where the integer
is signed; the first thing that goes wrong from left to right decides the refusal.
-/
namespace Netlist.Text

/-! ## Blanks -/

/-- Whether a character has the property White_Space. -/
def isBlank (c : Char) : Bool :=
  ('\t' ≤ c && c ≤ '\r') || c == ' ' || c == '\u0085' || c == '\u00a0' || c == '\u1680' ||
    ('\u2000' ≤ c && c ≤ '\u200a') || c == '\u2028' || c == '\u2029' || c == '\u202f' ||
    c == '\u205f' || c == '\u3000'

/-- The characters left after the blank ones at both ends are dropped. -/
def trim (cs : List Char) : List Char :=
  ((cs.dropWhile isBlank).reverse.dropWhile isBlank).reverse

example : trim "\u3000 a b\t\n".toList = "a b".toList := by decide

/-! ## Integers -/

/-- Why a text is no integer of the width that is asked for. -/
inductive IntegerFault where
  | empty
  | invalidDigit
  | tooLarge
  | tooSmall
  deriving DecidableEq, Repr

/-- The sentence that reports a refusal. -/
def IntegerFault.message : IntegerFault → String
  | .empty => "cannot parse integer from empty string"
  | .invalidDigit => "invalid digit found in string"
  | .tooLarge => "number too large to fit in target type"
  | .tooSmall => "number too small to fit in target type"

/-- Reads digits behind a number that is already read, up to and including `most`. -/
def readDigits (most : Nat) (beyond : IntegerFault) (value : Nat) :
    List Char → Except IntegerFault Nat
  | [] => .ok value
  | c :: rest =>
    if c.isDigit then
      let next := value * 10 + (c.toNat - '0'.toNat)
      if next ≤ most then readDigits most beyond next rest else .error beyond
    else .error .invalidDigit

/-- Reads a natural number of the given width. -/
def readUnsigned (width : Nat) : List Char → Except IntegerFault Nat
  | [] => .error .empty
  | '+' :: c :: rest => readDigits ((1 <<< width) - 1) .tooLarge 0 (c :: rest)
  | cs => readDigits ((1 <<< width) - 1) .tooLarge 0 cs

/-- Reads an integer of the given width. -/
def readSigned (width : Nat) : List Char → Except IntegerFault Int
  | [] => .error .empty
  | '-' :: c :: rest => do
    return -(← readDigits (1 <<< (width - 1)) .tooSmall 0 (c :: rest) : Nat)
  | '+' :: c :: rest => do return (← readDigits ((1 <<< (width - 1)) - 1) .tooLarge 0 (c :: rest) : Nat)
  | cs => do return (← readDigits ((1 <<< (width - 1)) - 1) .tooLarge 0 cs : Nat)

end Netlist.Text
