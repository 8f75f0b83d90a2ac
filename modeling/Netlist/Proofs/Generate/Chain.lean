/-
A chain is a shift register. What the first gate is driven to goes down the chain by one gate in each
frame, and every gate behind the first one passes it on or inverts it, as its mode says. So the last
gate shows a change when as many frames have been simulated as there are gates, and not before.
-/
import Netlist.Proofs.Generate.Row

namespace Netlist

variable {P : Type}

/-- What a gate with a single source makes of it. -/
def Mode.relay : Mode → Bool → Bool
  | .and | .or | .xor => id
  | .nand | .nor | .xnor => not

theorem Mode.evaluate_singleton (mode : Mode) (b : Bool) : mode.evaluate [b] = mode.relay b := by
  cases mode <;> cases b <;> rfl

theorem Mode.relay_injective (mode : Mode) : Function.Injective mode.relay := by
  intro a b h
  cases mode <;> cases a <;> cases b <;> first | rfl | cases h

namespace Generate

open Circuit Operation

/-! ## Streams -/

/-- Calls that drive the first part to another value of a stream before each frame. -/
def streamed (b : Nat → Bool) (t : Nat) : List (Nat × Option Bool) := [(0, some (b t))]

theorem held_streamed (b : Nat → Bool) (n : Nat) : ∀ t,
    held (streamed b) (t + 1) n = if n = 0 then some (b (t + 1)) else none
  | 0 => by
    rw [held_succ]
    exact Function.update_apply ..
  | t + 1 => by
    have ih := held_streamed b n t
    rw [held_succ]
    refine (Function.update_apply ..).trans ?_
    split
    · rfl
    · next hn => rw [ih, if_neg hn]

/-- The state of a gate after a frame: what the first gate was driven to as many frames earlier as the
gate has gates before it, or what has become of the inactive states that all gates began with. -/
def shifted (mode : Mode) (b : Nat → Bool) (t k : Nat) : Bool :=
  if k < t then mode.relay^[k] (b (t - k)) else mode.relay^[t] false

theorem shifted_first (mode : Mode) (b : Nat → Bool) (t : Nat) : shifted mode b (t + 1) 0 = b (t + 1) :=
  if_pos (Nat.succ_pos t)

/-- In each frame a gate takes what it makes of the gate before it. -/
theorem shifted_succ (mode : Mode) (b : Nat → Bool) (t k : Nat) :
    shifted mode b (t + 1) (k + 1) = mode.relay (shifted mode b t k) := by
  unfold shifted
  by_cases hk : k < t
  · rw [if_pos hk, if_pos (Nat.succ_lt_succ hk), Function.iterate_succ_apply', Nat.add_sub_add_right]
  · rw [if_neg hk, if_neg (mt Nat.lt_of_succ_lt_succ hk), Function.iterate_succ_apply']

/-- This is the law of the gates of a chain whose first one is driven. -/
theorem shifted_law (mode : Mode) (b : Nat → Bool) {len k : Nat} (hk : k < len) (t : Nat) :
    shifted mode b (t + 1) k = (held (streamed b) (t + 1) k).getD
      ((Cell.gate mode).next (shifted mode b) t (sourcesIn (inSequence (List.range len)) k)) := by
  rw [held_streamed]
  cases k with
  | zero => exact shifted_first mode b t
  | succ k =>
    rw [shifted_succ, sourcesIn_inSequence, if_pos hk]
    exact (mode.evaluate_singleton _).symm

/-- A gate has not seen the values of the last frames yet. -/
theorem shifted_congr {mode : Mode} {b b' : Nat → Bool} {before t k : Nat}
    (h : ∀ i, 1 ≤ i → i ≤ before → b i = b' i) (ht : t ≤ before + k) : shifted mode b t k = shifted mode b' t k := by
  unfold shifted
  split
  · rw [h (t - k) (by omega) (by omega)]
  · rfl

theorem shifted_ne {mode : Mode} {b b' : Nat → Bool} {t k : Nat} (h : b (t + 1) ≠ b' (t + 1)) :
    shifted mode b (t + 1 + k) k ≠ shifted mode b' (t + 1 + k) k := by
  have hlt : k < t + 1 + k := by omega
  unfold shifted
  rw [if_pos hlt, if_pos hlt, Nat.add_sub_cancel]
  exact (mode.relay_injective.iterate k).ne h

/-! ## Chains -/

/-- A chain is a shift register. Its gates are numbered along the chain, and after each frame a gate shows
what the first one was driven to earlier, by one frame for each gate between, and inverted as often
if the mode inverts. If the first gate is driven to something else from some frame on, then the last
one shows the difference after as many frames as there are gates, and none before. -/
theorem chain_shifts (P : Type) {len : Nat} (hlen : 0 < len) (mode : Mode) :
    ∃ net : Network P, chain P len mode = .ok net ∧ ∀ o : CompileOptions, len + 1 < o.maxDepth →
      ∃ compiled, net.compile o = .ok compiled ∧ compiled.leaves = List.range len ∧
        (∀ k < len, compiled.idOf? k = some k) ∧
        ∀ so : SimulatorOptions, ∃ s, Simulator.ofNetwork compiled so = .ok s ∧
          (∀ b t k, 1 ≤ t → k < len → (s.performAll (script (streamed b) t)).isActive? k =
            some (if k < t then mode.relay^[k] (b (t - k)) else mode.relay^[t] false)) ∧
          ∀ b b' before, (∀ t, 1 ≤ t → t ≤ before → b t = b' t) → b (before + 1) ≠ b' (before + 1) →
            (∀ t < before + len, (s.performAll (script (streamed b) t)).isActive? (len - 1) =
              (s.performAll (script (streamed b') t)).isActive? (len - 1)) ∧
            (s.performAll (script (streamed b) (before + len))).isActive? (len - 1) ≠
              (s.performAll (script (streamed b') (before + len))).isActive? (len - 1) := by
  obtain ⟨net, hnet, hwired⟩ := chain_eq_ok P hlen mode
  have hlast : len - 1 < len := Nat.sub_lt hlen Nat.one_pos
  have houtputs : ∀ n : Nat, n ∈ [len - 1] → n < len := fun n hn => List.mem_singleton.1 hn ▸ hlast
  have hrow : net.circuit.InSequence len := fun k => by rw [hwired.sources, sourcesIn_inSequence]
  have hdelays : ∀ cell ∈ List.replicate len (Cell.gate mode), cell.delay ≤ maxDelay := fun cell hcell => by
    rw [List.eq_of_mem_replicate hcell]
    exact Nat.zero_le _
  refine ⟨net, hnet, fun o ho => ?_⟩
  obtain ⟨compiled, hcompile, hleaves, hids, hsimulates⟩ :=
    hwired.simulates_row List.length_replicate hlen houtputs (leads_chain hlen hwired) hrow hdelays ho
  refine ⟨compiled, hcompile, hleaves, hids, fun so => ?_⟩
  obtain ⟨s, hs, hstates⟩ := hsimulates so
  have hshifted : ∀ b t k, k < len → (s.performAll (script (streamed b) t)).isActive? k =
      some (shifted mode b t k) := by
    intro b t k hk
    refine hstates _ (shifted mode b) (fun t call hcall => ?_) (fun k _ => rfl) (fun k cell hcell t => ?_) t k hk
    · rw [List.mem_singleton.1 hcall]
      exact hlen
    · rw [List.getElem?_replicate] at hcell
      split at hcell
      · next hk =>
        cases hcell
        exact shifted_law mode b hk t
      · cases hcell
  refine ⟨s, hs, fun b t k _ hk => hshifted b t k hk, fun b b' before hsame hdiffer => ⟨fun t ht => ?_, fun heq => ?_⟩⟩
  · rw [hshifted b t _ hlast, hshifted b' t _ hlast, shifted_congr hsame (by omega)]
  · have hframes : before + len = before + 1 + (len - 1) := by omega
    rw [hshifted b _ _ hlast, hshifted b' _ _ hlast, hframes] at heq
    exact shifted_ne hdiffer (Option.some.inj heq)

/-- Two inverters behind the first gate pass on what it was driven to two frames before. A change in the
second frame shows at the last of the three gates after the fourth one. -/
theorem chain_shifts_inverters : 0 < 3 ∧ 3 + 1 < 900 ∧ ∃ (net compiled : Network Unit) (s : Simulator),
    chain Unit 3 .nand = .ok net ∧ net.compile {} = .ok compiled ∧ compiled.leaves = [0, 1, 2] ∧
    Simulator.ofNetwork compiled {} = .ok s ∧
    (∀ b, (s.performAll (script (streamed b) 4)).isActive? 2 = some (b 2)) ∧
    (∀ t < 4, (s.performAll (script (streamed fun _ => false) t)).isActive? 2 =
      (s.performAll (script (streamed (· == 2)) t)).isActive? 2) ∧
    (s.performAll (script (streamed fun _ => false) 4)).isActive? 2 ≠
      (s.performAll (script (streamed (· == 2)) 4)).isActive? 2 := by
  obtain ⟨net, hnet, hshifts⟩ := chain_shifts Unit (show 0 < 3 by decide) .nand
  obtain ⟨compiled, hcompile, hleaves, -, hsimulates⟩ := hshifts {} (by decide)
  obtain ⟨s, hs, hstates, hchange⟩ := hsimulates {}
  have hsame : ∀ t, 1 ≤ t → t ≤ 1 → false = (t == 2) := by
    intro t _ ht
    have hne : t ≠ 2 := by omega
    exact (beq_false_of_ne hne).symm
  obtain ⟨hbefore, hafter⟩ := hchange (fun _ => false) (· == 2) 1 hsame (by decide)
  refine ⟨by decide, by decide, net, compiled, s, hnet, hcompile, hleaves, hs, fun b => ?_, hbefore, hafter⟩
  rw [hstates b 4 2 (by decide) (by decide)]
  exact congrArg some (Bool.not_not (b 2))

end Generate

end Netlist
