/-
Statistics of a part list: how many parts of each kind there are and how connected they are.
-/
import Netlist.Part.Basic

namespace Netlist

variable {P : Type}

/-- The statistics of a part list. -/
structure Stats where
  parts : Nat
  pinned : Nat
  /-- The number of gates of each mode, in the order of `Mode.all`. -/
  byMode : List Nat
  timers : Nat
  connections : Nat
  /-- The largest number of incoming connections. -/
  maxFanin : Nat
  /-- The largest number of outgoing connections. -/
  maxFanout : Nat
  /-- The number of parts without incoming connections. -/
  sources : Nat
  deriving DecidableEq, Repr

namespace Stats

/-- Whether a cell is a timer. -/
def isTimer : Cell → Bool
  | .gate _ => false
  | .timer .. => true

@[simp] theorem isTimer_gate (m : Mode) : isTimer (.gate m) = false := rfl

@[simp] theorem isTimer_timer (ticks seconds : Nat) : isTimer (.timer ticks seconds) = true := rfl

/-- The largest of some numbers, 0 if there are none. -/
def largest (ns : List Nat) : Nat := ns.foldl max 0

/-- The statistics of a part list. -/
def ofParts (parts : List (Part P)) : Stats where
  parts := parts.length
  pinned := parts.countP (·.pinned)
  byMode := Mode.all.map fun m => parts.countP (·.cell == .gate m)
  timers := parts.countP (isTimer ·.cell)
  connections := (parts.flatMap (·.connections)).length
  maxFanin := largest (parts.map (·.connectionsFrom.length))
  maxFanout := largest (parts.map (·.connections.length))
  sources := parts.countP (·.connectionsFrom.isEmpty)

/-- The number of gates. -/
def gates (s : Stats) : Nat := s.byMode.foldl (· + ·) 0

/-- A line for a count that is shown only if it is not 0. -/
def renderCount (label : String) (count : Nat) : String :=
  if count = 0 then "" else s!"{label}: {count}\n"

/-- The text of the statistics. -/
def render (s : Stats) : String :=
  "Stats:\n" ++
  s!"  Parts: {s.parts}\n" ++
  s!"  Pinned: {s.pinned}\n" ++
  s!"  Gates: {s.gates}\n" ++
  String.join ((Mode.all.zip s.byMode).map fun x => renderCount ("      " ++ x.1.title) x.2) ++
  renderCount "  Timers" s.timers ++
  s!"  Connections: {s.connections}\n" ++
  s!"      max fanin: {s.maxFanin}\n" ++
  s!"      max fanout: {s.maxFanout}\n" ++
  s!"      sources: {s.sources}\n"

end Stats

end Netlist
