/-
Writing JSON values. Quotes, backslashes and controls are escaped, the common controls by a letter
and the others by their code; everything else is written as it is. The pretty form has one element
or member on each line and two spaces of indentation for each level; empty arrays and objects take
no lines.
-/
import Netlist.Json.Syntax

namespace Netlist

/-! ## Strings and numbers -/

/-- The escape of a code, in four hexadecimal digits. -/
def escapeCode (code : Nat) : List Char :=
  '\\' :: 'u' :: [code / 4096 % 16, code / 256 % 16, code / 16 % 16, code % 16].map Nat.digitChar

/-- A character as it is written in a string. -/
def escapeChar (c : Char) : List Char :=
  if c = '"' then ['\\', '"']
  else if c = '\\' then ['\\', '\\']
  else if c = '\x08' then ['\\', 'b']
  else if c = '\x0c' then ['\\', 'f']
  else if c = '\n' then ['\\', 'n']
  else if c = '\r' then ['\\', 'r']
  else if c = '\t' then ['\\', 't']
  else if c.toNat < 0x20 then escapeCode c.toNat
  else [c]

/-- An item as it is written in a string. A stray byte has no written form and is dropped. -/
def Item.print : Item → List Char
  | char c => escapeChar c
  | surrogate code => escapeCode code
  | stray => []

/-- A string with its quotes. -/
def printString (s : List Item) : List Char := '"' :: s.flatMap Item.print ++ ['"']

/-- An exponent with its letter. -/
def Exponent.print (e : Exponent) : List Char :=
  'e' :: (if e.negative then ['-'] else []) ++ e.digits

/-- A number as it is written. -/
def Numeral.print (n : Numeral) : List Char :=
  (if n.negative then ['-'] else []) ++ n.whole ++
    (match n.fraction with
      | none => []
      | some digits => '.' :: digits) ++
    (match n.exponent with
      | none => []
      | some e => e.print)

/-! ## Values -/

namespace Json

/-- The string of a text. -/
def ofText (text : String) : Json := .string (Item.ofText text)

/-- The number of a natural number. -/
def ofNat (n : Nat) : Json := .number (Numeral.ofNat n)

/-- The number of an integer. -/
def ofInt (z : Int) : Json := .number (Numeral.ofInt z)

/-- An object with the given keys. -/
def ofMembers (members : List (String × Json)) : Json :=
  .object (members.map fun m => (Item.ofText m.1, m.2))

/-- The break before an element or member at a level. -/
def newLine (level : Nat) : List Char := '\n' :: List.replicate (2 * level) ' '

mutual

/-- The pretty form of a value at a level. -/
def pretty (level : Nat) : Json → List Char
  | null => ['n', 'u', 'l', 'l']
  | bool true => ['t', 'r', 'u', 'e']
  | bool false => ['f', 'a', 'l', 's', 'e']
  | number n => n.print
  | string s => printString s
  | array [] => ['[', ']']
  | array (v :: rest) =>
    '[' :: newLine (level + 1) ++ pretty (level + 1) v ++ prettyElements (level + 1) rest ++
      newLine level ++ [']']
  | object [] => ['{', '}']
  | object ((key, v) :: rest) =>
    '{' :: newLine (level + 1) ++ printString key ++ [':', ' '] ++ pretty (level + 1) v ++
      prettyMembers (level + 1) rest ++ newLine level ++ ['}']

/-- The elements of an array behind the first one. -/
def prettyElements (level : Nat) : List Json → List Char
  | [] => []
  | v :: rest => ',' :: newLine level ++ pretty level v ++ prettyElements level rest

/-- The members of an object behind the first one. -/
def prettyMembers (level : Nat) : List (List Item × Json) → List Char
  | [] => []
  | (key, v) :: rest =>
    ',' :: newLine level ++ printString key ++ [':', ' '] ++ pretty level v ++
      prettyMembers level rest

end

end Json

end Netlist
