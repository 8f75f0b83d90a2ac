/-
The ranges of a partition in closed form. With `q` positions for every range and one more for each
of the first `r`, the range at place `i` begins at `i * q + min i r`, and the next one begins where
it ends. So the ranges cover all positions evenly: each position lies in one of them only, and their
lengths differ by at most one.

No bound lies beyond the number of positions. If 64 bits hold that number, then they hold every sum
that is computed on the way.
-/
import Mathlib.Algebra.Order.Ring.Nat
import Netlist.Proofs.Simulator.Pieces

namespace Netlist

/-! ## Covering evenly -/

/-- Whether a position lies in a range. -/
def Range.Holds (r : Range) (j : Nat) : Prop := r.start ≤ j ∧ j < r.stop

/-- Where the range at a place begins, if all ranges have `base` positions and the first `extra` of
them have one more. -/
def Partition.bound (base extra i : Nat) : Nat := i * base + min i extra

/-- Ranges that cover the positions below `len` in order and evenly. -/
structure CoversEvenly (len : Nat) (rs : List Range) : Prop where
  tiles : Tiles 0 rs len
  unique : ∀ j < len, ∃! i : Nat, ∃ r, rs[i]? = some r ∧ r.Holds j
  lengths : rs.Pairwise fun a b => b.length ≤ a.length ∧ a.length ≤ b.length + 1
  nonempty : 0 < len → ∀ r ∈ rs, r.start < r.stop

/-- A position between the ends of ranges without gaps lies in exactly one of them. -/
theorem Tiles.existsUnique {rs : List Range} {start stop j : Nat} (h : Tiles start rs stop)
    (hstart : start ≤ j) (hstop : j < stop) : ∃! i : Nat, ∃ r, rs[i]? = some r ∧ r.Holds j := by
  induction rs generalizing start with
  | nil =>
    unfold Tiles at h
    omega
  | cons a rest ih =>
    obtain ⟨hs, -, ht⟩ := h
    by_cases hj : j < a.stop
    · -- the ranges behind the first one begin where it ends
      refine ⟨0, ⟨a, rfl, by omega, hj⟩, ?_⟩
      rintro (_ | i) ⟨r, hr, hle, -⟩
      · rfl
      · have := (ht.mem (List.mem_of_getElem? hr)).1
        omega
    · obtain ⟨i, ⟨r, hr, hin⟩, honly⟩ := ih ht (by omega)
      refine ⟨i + 1, ⟨r, hr, hin⟩, ?_⟩
      rintro (_ | k) ⟨r', hr', hle, hlt⟩
      · cases hr'
        omega
      · rw [honly k ⟨r', hr', hle, hlt⟩]

namespace Partition

@[simp] theorem bound_zero (base extra : Nat) : bound base extra 0 = 0 := by
  simp [bound]

theorem bound_succ (base extra i : Nat) :
    bound base extra (i + 1) = bound base extra i + base + if i < extra then 1 else 0 := by
  unfold bound
  rw [Nat.succ_mul]
  split <;> omega

/-- Without the first range, the bounds are those of one range less. -/
theorem bound_pred (base extra i : Nat) :
    bound base extra (i + 1) = base + min extra 1 + bound base (extra - 1) i := by
  unfold bound
  rw [Nat.succ_mul]
  omega

theorem bound_mono (base extra : Nat) {i j : Nat} (h : i ≤ j) : bound base extra i ≤ bound base extra j := by
  have hmul := Nat.mul_le_mul_right base h
  unfold bound
  omega

/-! ## The closed form -/

theorem rangesFrom_eq (base : Nat) : ∀ (count extra start : Nat), rangesFrom base extra start count =
    (List.range count).map fun i => ⟨start + bound base extra i, start + bound base extra (i + 1)⟩
  | 0, _, _ => rfl
  | count + 1, extra, start => by
    rw [rangesFrom, rangesFrom_eq base count, List.range_succ_eq_map, List.map_cons, List.map_map]
    have hone : bound base extra (0 + 1) = base + min extra 1 := by rw [bound_pred, bound_zero, Nat.add_zero]
    rw [bound_zero, hone, Nat.add_zero, Nat.add_assoc]
    simp only [Function.comp_def, Nat.succ_eq_add_one, bound_pred base extra, Nat.add_assoc]

theorem length_range (base extra i : Nat) :
    (Range.mk (bound base extra i) (bound base extra (i + 1))).length = base + if i < extra then 1 else 0 := by
  unfold Range.length
  simp only [bound_succ]
  omega

/-- The longer ranges come first, and they have one more position. -/
theorem pairwise_length (base extra count : Nat) :
    ((List.range count).map fun i => Range.mk (bound base extra i) (bound base extra (i + 1))).Pairwise
      fun a b => b.length ≤ a.length ∧ a.length ≤ b.length + 1 := by
  rw [List.pairwise_map]
  refine List.pairwise_lt_range.imp fun {i j} hij => ?_
  -- if place `j` is one of the first `extra`, then so is `i` before it
  rw [length_range, length_range]
  split <;> split <;> omega

theorem count_le (len k : Nat) : count len k ≤ max len 1 := Nat.min_le_right ..

/-- There are no more ranges than positions, so each range has at least one. -/
theorem div_count_pos {len : Nat} (h : 0 < len) (k : Nat) : 0 < len / count len k := by
  have hle := count_le len k
  exact Nat.div_pos (by omega) (count_pos len k)

theorem bound_count (len k : Nat) :
    bound (len / count len k) (len % count len k) (count len k) = len := by
  have hmod := Nat.mod_lt len (count_pos len k)
  unfold bound
  rw [Nat.min_eq_right (Nat.le_of_lt hmod)]
  exact Nat.div_add_mod _ _

/-! ## Sums of 64 bits -/

/-- The sum of two numbers, none if 64 bits do not hold it. -/
def sum? (a b : Nat) : Option Nat := if a + b < 2 ^ 64 then some (a + b) else none

/-- The ranges from place `i` on, `count` of them, by sums of 64 bits. -/
def boundedFrom? (base extra i start : Nat) : Nat → Option (List Range)
  | 0 => some []
  | count + 1 => do
    let stop ← sum? (← sum? start base) (if i < extra then 1 else 0)
    let rest ← boundedFrom? base extra (← sum? i 1) stop count
    return ⟨start, stop⟩ :: rest

theorem sum?_eq_some {a b : Nat} (h : a + b < 2 ^ 64) : sum? a b = some (a + b) := if_pos h

/-- If 64 bits hold the last place and the last bound, then they hold all sums. -/
theorem boundedFrom?_eq (base extra : Nat) : ∀ (count i : Nat), i + count < 2 ^ 64 →
    bound base extra (i + count) < 2 ^ 64 → boundedFrom? base extra i (bound base extra i) count =
      some (rangesFrom base (extra - i) (bound base extra i) count)
  | 0, _, _, _ => rfl
  | count + 1, i, hplace, hbound => by
    have hnext : bound base extra i + base + (if i < extra then 1 else 0) = bound base extra (i + 1) :=
      (bound_succ base extra i).symm
    have hle := bound_mono base extra (show i + 1 ≤ i + (count + 1) by omega)
    have hplaces : i + 1 + count = i + (count + 1) := by omega
    have ih := boundedFrom?_eq base extra count (i + 1) (by omega) (by rwa [hplaces])
    have hone : min (extra - i) 1 = if i < extra then 1 else 0 := by
      split <;> omega
    rw [boundedFrom?, rangesFrom, sum?_eq_some (show bound base extra i + base < 2 ^ 64 by omega),
      sum?_eq_some (show i + 1 < 2 ^ 64 by omega)]
    simp only [Option.bind_eq_bind, Option.bind_some, hone, hnext, Nat.sub_sub]
    rw [sum?_eq_some (by omega), Option.bind_some, hnext, ih]
    rfl

end Partition

open Netlist.Partition (count bound)

/-- Splits positions as `partition` does, by sums of 64 bits. -/
def boundedPartition? (len k : Nat) : Option (List Range) :=
  let m := count len k
  Partition.boundedFrom? (len / m) (len % m) 0 0 m

theorem partition_eq (len k : Nat) : partition len k = (List.range (count len k)).map fun i =>
    ⟨bound (len / count len k) (len % count len k) i, bound (len / count len k) (len % count len k) (i + 1)⟩ := by
  simp only [partition, Partition.rangesFrom_eq, Nat.zero_add]

theorem coversEvenly_partition (len k : Nat) : CoversEvenly len (partition len k) where
  tiles := tiles_partition len k
  unique j hj := (tiles_partition len k).existsUnique (Nat.zero_le j) hj
  lengths := by
    rw [partition_eq]
    exact Partition.pairwise_length ..
  nonempty hlen r hr := by
    rw [partition_eq] at hr
    obtain ⟨i, -, rfl⟩ := List.mem_map.1 hr
    have hpos := Partition.div_count_pos hlen k
    simp only [Partition.bound_succ]
    omega

theorem boundedPartition?_eq {len : Nat} (h : len < 2 ^ 64) (k : Nat) :
    boundedPartition? len k = some (partition len k) := by
  have hle := Partition.count_le len k
  have hlast : bound (len / count len k) (len % count len k) (0 + count len k) < 2 ^ 64 := by
    rwa [Nat.zero_add, Partition.bound_count]
  have hall := Partition.boundedFrom?_eq (len / count len k) (len % count len k) (count len k) 0 (by omega) hlast
  rwa [Partition.bound_zero] at hall

/-- Positions are split into as many ranges as are asked for, but at least one and no more than there
are positions, with bounds in closed form. They cover all positions evenly. If 64 bits hold the number
of positions, then they hold every sum that is computed. -/
theorem partition_exact (len k : Nat) :
    ∃ m q r, m = min (max k 1) (max len 1) ∧ q = len / m ∧ r = len % m ∧
      partition len k = ((List.range m).map fun i => ⟨i * q + min i r, (i + 1) * q + min (i + 1) r⟩) ∧
      CoversEvenly len (partition len k) ∧
      (len < 2 ^ 64 → boundedPartition? len k = some (partition len k)) :=
  ⟨_, _, _, rfl, rfl, rfl, partition_eq len k, coversEvenly_partition len k, fun h => boundedPartition?_eq h k⟩

/-- Two ranges of the greatest number of positions that 64 bits hold: the last sum is that number. -/
theorem partition_exact_widest : 18446744073709551615 < 2 ^ 64 ∧
    partition 18446744073709551615 2 =
      [⟨0, 9223372036854775808⟩, ⟨9223372036854775808, 18446744073709551615⟩] ∧
    CoversEvenly 18446744073709551615 (partition 18446744073709551615 2) ∧
    boundedPartition? 18446744073709551615 2 = some (partition 18446744073709551615 2) := by
  have hlen : 18446744073709551615 < 2 ^ 64 := by decide
  obtain ⟨m, q, r, rfl, rfl, rfl, hclosed, hcovers, hbounded⟩ := partition_exact 18446744073709551615 2
  exact ⟨hlen, hclosed.trans (by decide), hcovers, hbounded hlen⟩

end Netlist
