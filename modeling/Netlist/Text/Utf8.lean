/-
Decoding bytes as UTF-8. A byte that is no part of a well-formed sequence is kept as a gap, so that
a reader can decide whether it matters. Characters below 128 are single bytes and never swallowed.
-/
namespace Netlist.Text

/-- A character, or `none` for a byte that belongs to no character. -/
abbrev Symbol := Option Char

/-- The symbols of a text that is known to be well formed. -/
def symbols (text : String) : List Symbol := text.toList.map some

namespace Utf8

/-- The payload of a continuation byte that lies between two bounds. -/
def tail? (low high : Nat) (b : UInt8) : Option Nat :=
  if low ≤ b.toNat ∧ b.toNat ≤ high then some (b.toNat % 64) else none

/-- The character of a sequence of two bytes. -/
def two? (a b : UInt8) : Option Char := do
  if a.toNat < 0xc2 ∨ 0xdf < a.toNat then none
  else return Char.ofNat (a.toNat % 32 * 64 + (← tail? 0x80 0xbf b))

/-- The character of a sequence of three bytes. Surrogates and overlong forms are excluded by the
bounds of the second byte. -/
def three? (a b c : UInt8) : Option Char := do
  if a.toNat < 0xe0 ∨ 0xef < a.toNat then none
  else
    let second ← tail? (if a = 0xe0 then 0xa0 else 0x80) (if a = 0xed then 0x9f else 0xbf) b
    return Char.ofNat (a.toNat % 16 * 4096 + second * 64 + (← tail? 0x80 0xbf c))

/-- The character of a sequence of four bytes. -/
def four? (a b c d : UInt8) : Option Char := do
  if a.toNat < 0xf0 ∨ 0xf4 < a.toNat then none
  else
    let second ← tail? (if a = 0xf0 then 0x90 else 0x80) (if a = 0xf4 then 0x8f else 0xbf) b
    let third ← tail? 0x80 0xbf c
    return Char.ofNat (a.toNat % 8 * 262144 + second * 4096 + third * 64 + (← tail? 0x80 0xbf d))

/-- The character of the first `n` bytes, if they are a sequence of this length. -/
def lead? : Nat → List UInt8 → Option Char
  | 1, a :: _ => if a < 0x80 then some (Char.ofNat a.toNat) else none
  | 2, a :: b :: _ => two? a b
  | 3, a :: b :: c :: _ => three? a b c
  | 4, a :: b :: c :: d :: _ => four? a b c d
  | _, _ => none

/-- The first character of some bytes and the number of bytes behind the first that it takes. -/
def first (bytes : List UInt8) : Symbol × Nat :=
  match [1, 2, 3, 4].findSome? fun n => (lead? n bytes).map fun c => (c, n - 1) with
  | some (c, more) => (some c, more)
  | none => (none, 0)

/-- The symbols of some bytes, after `skip` bytes that are part of the symbol before. -/
def decodeFrom (skip : Nat) : List UInt8 → List Symbol
  | [] => []
  | b :: rest =>
    match skip with
    | skip + 1 => decodeFrom skip rest
    | 0 =>
      let (symbol, more) := first (b :: rest)
      symbol :: decodeFrom more rest

/-- The symbols of some bytes. -/
def decode (bytes : List UInt8) : List Symbol := decodeFrom 0 bytes

end Utf8

end Netlist.Text
