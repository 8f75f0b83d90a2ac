/-
Operations on a running network: forcing a cell into a state, releasing it, and simulating a frame.
A list of operations is an interleaving of these calls, oldest first. `upTo t` is the part of it
that has happened when frame `t + 1` is about to be simulated: the first `t` frames and every call
before the next one.
-/
import Mathlib.Logic.Function.Basic

namespace Netlist

/-- A call that changes a running network. Cells are named by numbers. -/
inductive Operation where
  /-- Force a cell into a state, or release it. -/
  | drive (target : Nat) (value : Option Bool)
  /-- Simulate a frame. -/
  | step
  deriving DecidableEq, Repr

namespace Operation

/-- What every cell is driven to once an operation is done. -/
def force (forced : Nat → Option Bool) : Operation → Nat → Option Bool
  | drive target value => Function.update forced target value
  | step => forced

/-- What every cell is driven to after some operations. -/
def forcedAfter (ops : List Operation) : Nat → Option Bool := ops.foldl force fun _ => none

/-- The number of frames that are simulated. -/
def frames (ops : List Operation) : Nat := ops.count step

/-- The operations that have happened when frame `t + 1` is about to be simulated. -/
def upTo : Nat → List Operation → List Operation
  | _, [] => []
  | t, drive target value :: ops => drive target value :: upTo t ops
  | 0, step :: _ => []
  | t + 1, step :: ops => step :: upTo t ops

/-- The operation on cells with other names; nothing is left of a call for a cell that has none. -/
def rename (name : Nat → Option Nat) : Operation → Option Operation
  | drive target value => (name target).map (drive · value)
  | step => some step

theorem step_notMem_upTo_zero : ∀ ops : List Operation, step ∉ upTo 0 ops
  | [] => by simp [upTo]
  | drive target value :: ops => by simp [upTo, step_notMem_upTo_zero ops]
  | step :: ops => by simp [upTo]

/-- Between two frames there are only calls that drive or release cells. -/
theorem upTo_succ : ∀ {t : Nat} {ops : List Operation}, t < frames ops →
    ∃ drives, step ∉ drives ∧ upTo (t + 1) ops = upTo t ops ++ step :: drives
  | t, [], h => by simp [frames] at h
  | t, drive target value :: ops, h => by
    have ht : t < frames ops := by simpa [frames] using h
    obtain ⟨drives, hdrives, heq⟩ := upTo_succ ht
    exact ⟨drives, hdrives, by simp [upTo, heq]⟩
  | 0, step :: ops, _ => ⟨upTo 0 ops, step_notMem_upTo_zero ops, by simp [upTo]⟩
  | t + 1, step :: ops, h => by
    have ht : t < frames ops := by simpa [frames] using h
    obtain ⟨drives, hdrives, heq⟩ := upTo_succ ht
    exact ⟨drives, hdrives, by simp [upTo, heq]⟩

end Operation

end Netlist
