/-
The tokens of a JSON text. White space separates tokens and is dropped. A string ends at the first
quote that is not escaped; controls must be escaped in it. A number is the longest run of
characters that occur in numbers, and must then have the form of one.
-/
import Netlist.Json.Syntax
import Netlist.Text.Utf8

namespace Netlist

open Text

/-- A token of a JSON text. -/
inductive Token where
  | beginArray
  | endArray
  | beginObject
  | endObject
  | comma
  | colon
  | null
  | bool (b : Bool)
  | number (n : Numeral)
  | string (s : List Item)
  deriving DecidableEq, Repr

/-! ## Strings -/

/-- The value of a hexadecimal digit. -/
def hexDigit? (c : Char) : Option Nat :=
  if c.isDigit then some (c.toNat - '0'.toNat)
  else if 'a' ≤ c ∧ c ≤ 'f' then some (c.toNat - 'a'.toNat + 10)
  else if 'A' ≤ c ∧ c ≤ 'F' then some (c.toNat - 'A'.toNat + 10)
  else none

/-- The code that four hexadecimal digits write. -/
def hexCode? (a b c d : Symbol) : Option Nat := do
  let a ← hexDigit? (← a)
  let b ← hexDigit? (← b)
  let c ← hexDigit? (← c)
  let d ← hexDigit? (← d)
  return ((a * 16 + b) * 16 + c) * 16 + d

namespace Item

/-- The item of an escaped code. -/
def ofCode (code : Nat) : Item :=
  if isHigh code || isLow code then surrogate code else char (Char.ofNat code)

/-- The character that an escape of one letter writes. -/
def escaped? : Char → Option Char
  | '"' => some '"'
  | '\\' => some '\\'
  | '/' => some '/'
  | 'b' => some '\x08'
  | 'f' => some '\x0c'
  | 'n' => some '\n'
  | 'r' => some '\r'
  | 't' => some '\t'
  | _ => none

/-- Whether a character must be escaped in a string, quotes and backslashes apart. -/
def isControl (c : Char) : Bool := c.toNat < 0x20

/-- Reads the rest of a string behind `done`, which is in reverse, up to its closing quote. -/
def scan (done : List Item) : List Symbol → Option (List Item × List Symbol)
  | [] => none
  | some '"' :: rest => some (done.reverse, rest)
  | some '\\' :: some 'u' :: a :: b :: c :: d :: rest =>
    match hexCode? a b c d with
    | some code => scan (ofCode code :: done) rest
    | none => none
  | some '\\' :: some e :: rest =>
    match escaped? e with
    | some c => scan (char c :: done) rest
    | none => none
  | some '\\' :: _ => none
  | some c :: rest => if isControl c then none else scan (char c :: done) rest
  | none :: rest => scan (stray :: done) rest

theorem length_scan_lt {done s : List Item} {input rest : List Symbol}
    (h : scan done input = some (s, rest)) : rest.length < input.length := by
  fun_induction scan done input <;> simp_all <;> omega

end Item

/-! ## Numbers -/

namespace Numeral

/-- Whether a character occurs in numbers. -/
def isPart (c : Char) : Bool :=
  c.isDigit || c == '-' || c == '+' || c == '.' || c == 'e' || c == 'E'

/-- The exponent that some characters write, without the letter in front. -/
def exponentOf? (cs : List Char) : Option Exponent :=
  let (negative, digits) := match cs with
    | '-' :: rest => (true, rest)
    | '+' :: rest => (false, rest)
    | _ => (false, cs)
  if !digits.isEmpty && digits.all Char.isDigit then some ⟨negative, digits⟩ else none

/-- Adds the exponent to a numeral, if anything follows it. -/
def withExponent? (n : Numeral) : List Char → Option Numeral
  | [] => some n
  | c :: rest =>
    if c == 'e' || c == 'E' then (exponentOf? rest).map ({ n with exponent := some · }) else none

/-- Adds the digits behind a point and the exponent to a numeral. -/
def withFraction? (n : Numeral) : List Char → Option Numeral
  | '.' :: rest =>
    let digits := rest.takeWhile Char.isDigit
    if digits.isEmpty then none
    else withExponent? { n with fraction := some digits } (rest.dropWhile Char.isDigit)
  | rest => withExponent? n rest

/-- Whether digits may stand before the point: at least one, and no zero in front of others. -/
def isWhole : List Char → Bool
  | [] => false
  | ['0'] => true
  | d :: _ => d != '0'

/-- The numeral that some characters write. -/
def ofChars? (cs : List Char) : Option Numeral :=
  let (negative, cs) := match cs with
    | '-' :: rest => (true, rest)
    | _ => (false, cs)
  let whole := cs.takeWhile Char.isDigit
  if isWhole whole then withFraction? { negative, whole } (cs.dropWhile Char.isDigit) else none

end Numeral

/-! ## Texts -/

namespace Token

/-- Whether a character is white space between tokens. -/
def isSpace (c : Char) : Bool := c == ' ' || c == '\t' || c == '\n' || c == '\r'

/-- The token of a single mark. -/
def ofMark? : Char → Option Token
  | '[' => some beginArray
  | ']' => some endArray
  | '{' => some beginObject
  | '}' => some endObject
  | ',' => some comma
  | ':' => some colon
  | _ => none

/-- The token of a word. -/
def ofWord? (cs : List Char) : Option Token :=
  if cs = ['n', 'u', 'l', 'l'] then some null
  else if cs = ['t', 'r', 'u', 'e'] then some (bool true)
  else if cs = ['f', 'a', 'l', 's', 'e'] then some (bool false)
  else none

/-- The characters at the front of a text that have a property. -/
def run (p : Char → Bool) (input : List Symbol) : List Char :=
  (input.takeWhile (·.any p)).filterMap id

/-- What follows the characters at the front of a text that have a property. -/
def afterRun (p : Char → Bool) (input : List Symbol) : List Symbol := input.dropWhile (·.any p)

theorem length_afterRun_le (p : Char → Bool) (input : List Symbol) :
    (afterRun p input).length ≤ input.length :=
  (List.dropWhile_suffix _).length_le

/-- Reads the tokens of a text behind `done`. -/
def scan (done : Array Token) (input : List Symbol) : Option (Array Token) :=
  match input with
  | [] => some done
  | none :: _ => none
  | some c :: rest =>
    if isSpace c then scan done rest
    else if c == '"' then
      match _found : Item.scan [] rest with
      | some (s, rest') => scan (done.push (string s)) rest'
      | none => none
    else if c == '-' || c.isDigit then
      match Numeral.ofChars? (c :: run Numeral.isPart rest) with
      | some n => scan (done.push (number n)) (afterRun Numeral.isPart rest)
      | none => none
    else if c.isAlpha then
      match ofWord? (c :: run Char.isAlpha rest) with
      | some token => scan (done.push token) (afterRun Char.isAlpha rest)
      | none => none
    else
      match ofMark? c with
      | some token => scan (done.push token) rest
      | none => none
termination_by input.length
decreasing_by
  · exact Nat.lt_succ_self _
  · exact Nat.lt_succ_of_lt (Item.length_scan_lt _found)
  · exact Nat.lt_succ_of_le (length_afterRun_le _ _)
  · exact Nat.lt_succ_of_le (length_afterRun_le _ _)
  · exact Nat.lt_succ_self _

/-- The tokens of a text. -/
def ofSymbols? (input : List Symbol) : Option (List Token) := (scan #[] input).map Array.toList

end Token

end Netlist
