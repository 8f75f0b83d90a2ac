/-
What is left of a text when control characters and control sequences are taken out of it. A
sequence begins with an escape and is taken out as a whole: a short one ends with a letter, a
command with the bell, and a string with the next escape. Tabs, line ends and form feeds are kept,
and end a short sequence. A character beyond ASCII is part of the sequence in which it stands and
does not end it, with one exception: the byte that is the terminator of a string where characters
are single bytes ends one also as a byte of a longer character.
-/
namespace Netlist.Text

/-- Where a text stands with regard to control sequences. -/
inductive Control where
  /-- Outside of any sequence. -/
  | outside
  /-- Behind an escape. -/
  | escape
  /-- Behind an escape and marks that ask for one more character. -/
  | marks
  /-- In a sequence of parameters, which ends with a letter. -/
  | parameters
  /-- In a command, which ends with the bell. -/
  | command
  /-- At the beginning of a string that has a header. -/
  | header
  /-- Behind parameters of a header. -/
  | headerParameters
  /-- Behind marks of a header. -/
  | headerMarks
  /-- In a string, behind its header. -/
  | string
  deriving DecidableEq, Repr

namespace Control

/-- Whether a control character is one of layout. -/
def isLayout (c : Char) : Bool := c == '\t' || c == '\n' || c == '\x0c' || c == '\r'

/-- Whether a character is a control character of ASCII. -/
def isControl (c : Char) : Bool := c < ' ' || c == '\x7f'

/-- The byte that ends a string. -/
def terminator : UInt8 := 0x9c

/-- Where a text stands after the character behind an escape. -/
def ofEscaped : Char → Control
  | '[' => parameters
  | ']' => command
  | 'P' => header
  | 'X' => string
  | '^' => string
  | '_' => string
  | c => if c ≤ '/' then marks else outside

/-- Where a text stands after a character that is not a control. A header ends with a letter, or
where it breaks the order of parameters before marks. -/
def follow : Control → Char → Control
  | outside, _ => outside
  | escape, c => ofEscaped c
  | marks, c => if c ≤ '/' then marks else outside
  | parameters, c => if c ≤ '?' then parameters else outside
  | command, _ => command
  | header, c =>
    if c ≤ '/' then headerMarks else if c ≤ '?' then headerParameters else string
  | headerParameters, c =>
    if c ≤ '/' then headerMarks else if c ≤ ';' then headerParameters else string
  | headerMarks, c => if c ≤ '/' then headerMarks else string
  | string, _ => string

/-- Whether layout is kept: outside of sequences and in short ones. -/
def keepsLayout : Control → Bool
  | outside | escape | marks | parameters => true
  | _ => false

/-- Where a text stands after a character of ASCII, and whether the character is kept. -/
def stepAscii (s : Control) (c : Char) : Control × Bool :=
  if c == '\x1b' then (escape, false)
  else if c == '\x18' || c == '\x1a' then (outside, false)
  else if isLayout c && s.keepsLayout then (outside, true)
  else if isControl c then (if s == command && c == '\x07' then outside else s, false)
  else (s.follow c, s == outside)

/-- Where a text stands after a character beyond ASCII, and whether the character is kept. -/
def stepBeyond (s : Control) (c : Char) : Control × Bool :=
  (if s == string && (String.utf8EncodeChar c).contains terminator then outside else s,
    s == outside)

/-- Where a text stands after a character, and whether the character is kept. -/
def step (s : Control) (c : Char) : Control × Bool :=
  if c.toNat < 0x80 then s.stepAscii c else s.stepBeyond c

/-- The characters that are kept of a text, and where it ends. -/
def strip (s : Control) : List Char → List Char × Control
  | [] => ([], s)
  | c :: rest =>
    let (s, kept) := s.step c
    let (shown, s) := s.strip rest
    (if kept then c :: shown else shown, s)

example : (outside.strip "a\x1b[31mred\x1b[0m".toList).1 = "ared".toList := by decide

example : (outside.strip "a\x1bPqÜb\x1bPqéb".toList).1 = "ab".toList := by decide

end Control

end Netlist.Text
