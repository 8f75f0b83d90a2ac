/-
A pulse goes round a timer ring with an exact period. A timer of the ring shows what the part before it
showed `ticks + 1` frames earlier, and the gate shows the last timer one frame later. So a pulse of one
frame comes back to the gate after one frame more than it takes through all timers, once in each turn.
-/
import Netlist.Proofs.Generate.Row

namespace Netlist.Generate

open Circuit Operation

variable {P : Type}

/-! ## A pulse -/

/-- Calls that drive the first part active in the first frame only. -/
def pulse : Nat → List (Nat × Option Bool)
  | 1 => [(0, some true)]
  | 2 => [(0, none)]
  | _ => []

theorem part_of_mem_pulse {t : Nat} {call : Nat × Option Bool} (h : call ∈ pulse t) : call.1 = 0 := by
  unfold pulse at h
  split at h
  · rw [List.mem_singleton.1 h]
  · rw [List.mem_singleton.1 h]
  · cases h

/-- After the first frame nothing is driven. -/
theorem held_pulse (n : Nat) : ∀ t, held pulse (t + 2) n = none
  | 0 => by
    rw [held_succ, held_succ]
    refine (Function.update_apply ..).trans ?_
    split
    · rfl
    · next hn => exact (Function.update_apply ..).trans (if_neg hn)
  | t + 1 => by
    rw [held_succ]
    exact held_pulse n t

theorem held_pulse_one (n : Nat) : held pulse 1 n = if n = 0 then some true else none := by
  rw [held_succ]
  exact Function.update_apply ..

/-! ## Turns -/

/-- The frames of one turn through a ring. -/
def turn (len ticks : Nat) : Nat := len * (ticks + 1) + 1

/-- Whether a part of a ring is active after a frame: the pulse has come to it, and since then there have
been full turns. -/
def circling (len ticks t k : Nat) : Bool :=
  decide (1 + k * (ticks + 1) ≤ t ∧ t - k * (ticks + 1) ≡ 1 [MOD turn len ticks])

variable {len ticks : Nat}

theorem circling_start (len ticks k : Nat) : circling len ticks 0 k = false := by
  refine decide_eq_false ?_
  rintro ⟨hbound, -⟩
  omega

/-- The pulse is at the gate after the first frame, and then after every turn. -/
theorem circling_first {t : Nat} (ht : 1 ≤ t) : circling len ticks t 0 = decide (t ≡ 1 [MOD turn len ticks]) := by
  unfold circling
  rw [Nat.zero_mul, Nat.sub_zero, decide_eq_decide]
  exact and_iff_right ht

/-- The pulse comes to a timer as long after the part before it as the timer takes. -/
theorem circling_timer (len ticks t k : Nat) :
    circling len ticks (t + 1) (k + 1) = circling len ticks (t - ticks) k := by
  have hplace : (k + 1) * (ticks + 1) = k * (ticks + 1) + ticks + 1 := by ring
  unfold circling
  rw [hplace]
  have hbound : 1 + (k * (ticks + 1) + ticks + 1) ≤ t + 1 ↔ 1 + k * (ticks + 1) ≤ t - ticks := by omega
  have hsince : t + 1 - (k * (ticks + 1) + ticks + 1) = t - ticks - k * (ticks + 1) := by omega
  rw [hsince]
  exact decide_eq_decide.2 (and_congr_left fun _ => hbound)

/-- The pulse comes back to the gate one frame after it has come to the last timer. -/
theorem circling_gate (hlen : 0 < len) {t : Nat} (ht : 1 ≤ t) :
    circling len ticks (t + 1) 0 = circling len ticks t len := by
  have hway : 0 < len * (ticks + 1) := Nat.mul_pos hlen (Nat.succ_pos ticks)
  have hturn : turn len ticks = len * (ticks + 1) + 1 := rfl
  rw [circling_first (Nat.le_add_left 1 t), circling, decide_eq_decide]
  rcases Nat.lt_or_ge t (turn len ticks) with hfirst | hlater
  · -- in the first turn the pulse has not come to the last timer, and the gate is inactive again
    constructor
    · intro hmod
      exact absurd (Nat.le_of_dvd ht (Nat.add_modEq_right_iff.1 hmod)) (Nat.not_le_of_gt hfirst)
    · rintro ⟨hbound, -⟩
      omega
  · have hsince : t + 1 = t - len * (ticks + 1) + turn len ticks := by omega
    rw [hsince, Nat.add_modulus_modEq_iff]
    constructor
    · intro hmod
      exact ⟨by omega, hmod⟩
    · rintro ⟨-, hmod⟩
      exact hmod

/-! ## Rings -/

theorem sourcesIn_ringEdges_gate (len : Nat) : sourcesIn (ringEdges len) 0 = [len] := by
  have hnone : sourcesIn (inSequence (List.range (len + 1))) 0 = [] := by
    rw [inSequence_range]
    simp [sourcesIn]
  rw [ringEdges, sourcesIn_append, hnone]
  rfl

theorem sourcesIn_ringEdges_timer (len k : Nat) :
    sourcesIn (ringEdges len) (k + 1) = if k + 1 < len + 1 then [k] else [] := by
  rw [ringEdges, sourcesIn_append, sourcesIn_inSequence]
  exact List.append_nil _

/-- The pulse follows the law of the parts of a ring. -/
theorem circling_law (hlen : 0 < len) {k : Nat} {cell : Cell}
    (hcell : (Cell.gate .or :: List.replicate len (.timer ticks 0))[k]? = some cell) (t : Nat) :
    circling len ticks (t + 1) k = (held pulse (t + 1) k).getD
      (cell.next (circling len ticks) t (sourcesIn (ringEdges len) k)) := by
  cases k with
  | zero =>
    cases hcell
    cases t with
    | zero =>
      rw [held_pulse_one, circling_first (Nat.le_refl 1)]
      exact decide_eq_true (Nat.ModEq.refl 1)
    | succ t =>
      rw [held_pulse, sourcesIn_ringEdges_gate, circling_gate hlen (Nat.succ_pos t)]
      show _ = Mode.or.evaluate [circling len ticks (t + 1) len]
      cases circling len ticks (t + 1) len <;> rfl
  | succ k =>
    have hfree : held pulse (t + 1) (k + 1) = none := by
      cases t with
      | zero => rw [held_pulse_one, if_neg (Nat.succ_ne_zero k)]
      | succ t => exact held_pulse _ t
    rw [List.getElem?_cons_succ, List.getElem?_replicate] at hcell
    split at hcell
    · next hk =>
      cases hcell
      rw [hfree, sourcesIn_ringEdges_timer, if_pos (Nat.succ_lt_succ hk), circling_timer]
      simp [Cell.next, Cell.delay]
    · cases hcell

/-- A pulse circulates in a timer ring with the exact period. If the gate is driven active for the first
frame only, then it is active after every full turn, and each timer is active `ticks + 1` frames after
the part before it. -/
theorem timerRing_circulates (P : Type) {len ticks : Nat} (hlen : 0 < len) (hticks : ticks ≤ 2400) :
    ∃ net : Network P, timerRing P len ticks = .ok net ∧ ∀ o : CompileOptions, net.circuit.size < o.maxDepth →
      ∃ compiled, net.compile o = .ok compiled ∧ compiled.leaves = List.range (len + 1) ∧
        (∀ k < len + 1, compiled.idOf? k = some k) ∧
        ∀ so : SimulatorOptions, ∃ s, Simulator.ofNetwork compiled so = .ok s ∧ ∀ t, 1 ≤ t →
          (s.performAll (script pulse t)).isActive? 0 =
            some (decide (t ≡ 1 [MOD len * (ticks + 1) + 1])) ∧
          ∀ k, 1 ≤ k → k ≤ len → (s.performAll (script pulse t)).isActive? k =
            some (decide (1 + k * (ticks + 1) ≤ t ∧ t - k * (ticks + 1) ≡ 1 [MOD len * (ticks + 1) + 1])) := by
  obtain ⟨net, hnet, hwired⟩ := timerRing_eq_ok P hlen ticks
  have hcells : (Cell.gate .or :: List.replicate len (.timer ticks 0)).length = len + 1 := by simp
  have houtputs : ∀ n : Nat, n ∈ [len] → n < len + 1 := fun n hn => List.mem_singleton.1 hn ▸ Nat.lt_succ_self len
  have hrow : net.circuit.InSequence (len + 1) := fun k => by rw [hwired.sources, sourcesIn_ringEdges_timer]
  have hdelays : ∀ cell ∈ Cell.gate .or :: List.replicate len (.timer ticks 0), cell.delay ≤ maxDelay := by
    intro cell hcell
    rcases List.mem_cons.1 hcell with rfl | hcell
    · exact Nat.zero_le _
    · rw [List.eq_of_mem_replicate hcell]
      simpa [Cell.delay, maxDelay, framesPerSecond] using hticks
  refine ⟨net, hnet, fun o ho => ?_⟩
  rw [hwired.size, hcells] at ho
  obtain ⟨compiled, hcompile, hleaves, hids, hsimulates⟩ :=
    hwired.simulates_row hcells (Nat.succ_pos len) houtputs (leads_timerRing hwired) hrow hdelays ho
  refine ⟨compiled, hcompile, hleaves, hids, fun so => ?_⟩
  obtain ⟨s, hs, hstates⟩ := hsimulates so
  have hcalls : ∀ t, ∀ call ∈ pulse t, call.1 < len + 1 := fun t call hcall =>
    part_of_mem_pulse hcall ▸ Nat.succ_pos len
  have hcircling := hstates pulse (circling len ticks) hcalls (fun k _ => circling_start len ticks k)
    fun k cell hcell t => circling_law hlen hcell t
  refine ⟨s, hs, fun t ht => ⟨?_, fun k _ hk => hcircling t k (Nat.lt_succ_of_le hk)⟩⟩
  rw [hcircling t 0 (Nat.succ_pos len), circling_first ht]
  rfl

/-- With two timers of one tick each, a turn takes five frames. -/
theorem timerRing_circulates_fives : 0 < 2 ∧ 1 ≤ 2400 ∧ ∃ (net compiled : Network Unit) (s : Simulator),
    timerRing Unit 2 1 = .ok net ∧ net.circuit.size < 900 ∧ net.compile {} = .ok compiled ∧
    compiled.leaves = [0, 1, 2] ∧ Simulator.ofNetwork compiled {} = .ok s ∧
    (∀ t, 1 ≤ t → (s.performAll (script pulse t)).isActive? 0 = some (decide (t ≡ 1 [MOD 5]))) ∧
    (s.performAll (script pulse 11)).isActive? 0 = some true ∧
    (s.performAll (script pulse 8)).isActive? 1 = some true ∧
    (s.performAll (script pulse 8)).isActive? 2 = some false := by
  obtain ⟨net, hnet, hcirculates⟩ :=
    timerRing_circulates Unit (show 0 < 2 by decide) (show 1 ≤ 2400 by decide)
  obtain ⟨_, hnet', hwired⟩ := timerRing_eq_ok Unit (show 0 < 2 by decide) 1
  cases hnet.symm.trans hnet'
  have hsize : net.circuit.size < 900 := by
    rw [hwired.size]
    decide
  obtain ⟨compiled, hcompile, hleaves, -, hsimulates⟩ := hcirculates {} hsize
  obtain ⟨s, hs, hstates⟩ := hsimulates {}
  refine ⟨by decide, by decide, net, compiled, s, hnet, hsize, hcompile, hleaves, hs,
    fun t ht => (hstates t ht).1, ?_, ?_, ?_⟩
  · rw [(hstates 11 (by decide)).1]
    rfl
  · rw [(hstates 8 (by decide)).2 1 (by decide) (by decide)]
    rfl
  · rw [(hstates 8 (by decide)).2 2 (by decide) (by decide)]
    rfl

end Netlist.Generate
