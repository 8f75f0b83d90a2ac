/-
Splitting work. Positions are split into contiguous ranges of nearly equal size: every position is in
exactly one range, and the longer ranges come first. An array is cut into consecutive pieces, one job
runs on each piece and sees no other, and the pieces are joined again. A cut beyond the end of the
array, like any other access out of range, gives `none`.
-/
namespace Netlist

/-! ## Ranges -/

/-- The positions from `start` up to but not including `stop`. -/
structure Range where
  start : Nat
  stop : Nat
  deriving DecidableEq, Repr

/-- The number of positions in a range. -/
def Range.length (r : Range) : Nat := r.stop - r.start

namespace Partition

/-- Ranges of `base` positions in sequence from `start`, `count` of them; the first `extra` have
one more position. -/
def rangesFrom (base extra start : Nat) : Nat → List Range
  | 0 => []
  | count + 1 =>
    let stop := start + base + min extra 1
    ⟨start, stop⟩ :: rangesFrom base (extra - 1) stop count

/-- The number of ranges: the one asked for, but at least one and no more than there are
positions. -/
def count (len k : Nat) : Nat := min (max k 1) (max len 1)

end Partition

/-- Splits `len` positions into at most `k` ranges. -/
def partition (len k : Nat) : List Range :=
  let m := Partition.count len k
  Partition.rangesFrom (len / m) (len % m) 0 m

example : partition 10 3 = [⟨0, 4⟩, ⟨4, 7⟩, ⟨7, 10⟩] := by decide

/-! ## Pieces -/

namespace Pieces

variable {α : Type}

/-- Cuts consecutive pieces of the given lengths from `start` on. -/
def cutFrom (a : Array α) (start : Nat) : List Nat → Option (List (Array α))
  | [] => some []
  | len :: rest =>
    if start + len ≤ a.size then
      (cutFrom a (start + len) rest).map (a.extract start (start + len) :: ·)
    else none

/-- Cuts an array into consecutive pieces of the given lengths, with what is left behind them. -/
def cut (a : Array α) (lengths : List Nat) : Option (Array (Array α) × Array α) :=
  (cutFrom a 0 lengths).map fun pieces => (pieces.toArray, a.extract (lengths.foldr (· + ·) 0) a.size)

/-- Joins pieces, with what was left behind them. -/
def join (pieces : Array (Array α)) (left : Array α) : Array α :=
  pieces.foldl (· ++ ·) #[] ++ left

/-- Runs the job of one piece. -/
def runJob (job : Nat → α → Option α) (pieces : Array α) (j : Nat) : Option (Array α) :=
  if h : j < pieces.size then (job j pieces[j]).map (pieces.set j ·) else none

/-- Runs the jobs of the given pieces, one after the other. -/
def runJobs (order : List Nat) (job : Nat → α → Option α) (pieces : Array α) : Option (Array α) :=
  order.foldlM (runJob job) pieces

/-- Replaces an entry that must exist. -/
def put (a : Array α) (i : Nat) (x : α) : Option (Array α) :=
  if h : i < a.size then some (a.set i x) else none

end Pieces

end Netlist
