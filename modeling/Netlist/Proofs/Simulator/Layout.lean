/-
Which part lists a simulator accepts, and where it keeps their sources: every part has its position
as id, its sources are parts, and its delay is within the limit. The layout of an accepted list is
sound, and the sources of part `i` are those of the list.
-/
import Mathlib.Algebra.BigOperators.Group.List.Lemmas
import Mathlib.Algebra.Order.Ring.Nat
import Netlist.Proofs.Sequence
import Netlist.Proofs.Simulator.Frame

namespace Netlist

variable {P : Type}

/-! ## Accepted part lists -/

/-- The part lists of which a simulator is built. -/
structure Accepted (parts : List (Part P)) : Prop where
  id : ∀ i (p : Part P), parts[i]? = some p → p.id = i
  source : ∀ p ∈ parts, ∀ s ∈ p.connectionsFrom, s < parts.length
  delay : ∀ p ∈ parts, p.cell.delay ≤ maxDelay

/-- A timer whose delay is beyond the limit. -/
def Cell.TooLong (cell : Cell) : Prop :=
  ∃ ticks seconds, cell = .timer ticks seconds ∧ 2400 < 40 * seconds + ticks

theorem Cell.tooLong_iff {cell : Cell} : cell.TooLong ↔ maxDelay < cell.delay := by
  constructor
  · rintro ⟨ticks, seconds, rfl, hlt⟩
    simp only [delay, maxDelay, framesPerSecond]
    omega
  · intro hlt
    cases cell with
    | gate mode => exact absurd hlt (Nat.not_lt_zero _)
    | timer ticks seconds =>
      simp only [delay, maxDelay, framesPerSecond] at hlt
      exact ⟨ticks, seconds, rfl, by omega⟩

namespace Simulator

theorem checkPart_eq_ok {size : Nat} {p : Part P} {position : Nat} :
    checkPart size (p, position) = .ok () ↔
      p.id = position ∧ (∀ s ∈ p.connectionsFrom, s < size) ∧ p.cell.delay ≤ maxDelay := by
  rw [checkPart]
  by_cases hid : p.id = position
  · cases hfind : p.connectionsFrom.find? (size ≤ ·) with
    | none =>
      have hsources : ∀ s ∈ p.connectionsFrom, s < size := by simpa using hfind
      by_cases hdelay : p.cell.delay ≤ maxDelay
      · exact ⟨fun _ => ⟨hid, hsources, hdelay⟩, fun _ => by simp [hid, hdelay, Cell.checkDelay]⟩
      · simp [hid, hdelay, Cell.checkDelay]
    | some s =>
      have hs : size ≤ s := by simpa using List.find?_some hfind
      have hmem := List.mem_of_find?_eq_some hfind
      refine ⟨fun h => ?_, fun h => ?_⟩
      · simp [hid, bind, Except.bind, throw, throwThe, MonadExceptOf.throw] at h
      · have := h.2.1 s hmem
        omega
  · refine ⟨fun h => ?_, fun h => absurd h.1 hid⟩
    simp [hid, bind, Except.bind, throw, throwThe, MonadExceptOf.throw] at h

theorem ofParts_eq_ok {parts : List (Part P)} {o : SimulatorOptions} {s : Simulator} :
    ofParts parts o = .ok s ↔ Accepted parts ∧ s = start (Layout.ofParts parts) o := by
  rw [ofParts, bind_eq_ok]
  constructor
  · rintro ⟨_, hcheck, hs⟩
    have hall := forM_eq_ok.1 hcheck
    have hpart : ∀ i (p : Part P), parts[i]? = some p → checkPart parts.length (p, i) = .ok () :=
      fun i p hp => hall (p, i) (List.mem_zipIdx_iff_getElem?.2 hp)
    refine ⟨⟨fun i p hp => (checkPart_eq_ok.1 (hpart i p hp)).1, fun p hp => ?_, fun p hp => ?_⟩, ?_⟩
    · obtain ⟨i, hi⟩ := List.getElem?_of_mem hp
      exact (checkPart_eq_ok.1 (hpart i p hi)).2.1
    · obtain ⟨i, hi⟩ := List.getElem?_of_mem hp
      exact (checkPart_eq_ok.1 (hpart i p hi)).2.2
    · cases hs
      rfl
  · rintro ⟨hparts, rfl⟩
    refine ⟨(), forM_eq_ok.2 fun x hx => ?_, rfl⟩
    obtain ⟨p, i⟩ := x
    have hp := List.mem_zipIdx_iff_getElem?.1 hx
    have hmem := List.mem_of_getElem? hp
    exact checkPart_eq_ok.2 ⟨hparts.id i p hp, hparts.source p hmem, hparts.delay p hmem⟩

/-- A part at its position, with sources that exist, is refused for its delay. -/
theorem checkPart_eq_timerTooLong {size : Nat} {p : Part P} {position : Nat} (hid : p.id = position)
    (hsources : ∀ s ∈ p.connectionsFrom, s < size) (hdelay : maxDelay < p.cell.delay) :
    checkPart size (p, position) = .error (.timerTooLong position p.cell.delay maxDelay) := by
  have hfind : p.connectionsFrom.find? (size ≤ ·) = none := by simpa using hsources
  simp only [checkPart, hid, hfind, Cell.checkDelay, if_neg (Nat.not_le_of_lt hdelay)]
  simp

/-- A list of parts at their positions, with sources that exist, is refused for its first timer
that is too long, and for nothing else. -/
theorem ofParts_cases {parts : List (Part P)} (hid : ∀ i (p : Part P), parts[i]? = some p → p.id = i)
    (hsource : ∀ p ∈ parts, ∀ s ∈ p.connectionsFrom, s < parts.length) (o : SimulatorOptions) :
    (∃ s, ofParts parts o = .ok s ∧ ∀ p ∈ parts, ¬ p.cell.TooLong) ∨
    ∃ before p after ticks seconds, parts = before ++ p :: after ∧
      (∀ q ∈ before, ¬ q.cell.TooLong) ∧ p.cell = .timer ticks seconds ∧ 2400 < 40 * seconds + ticks ∧
      ofParts parts o = .error (.timerTooLong before.length (40 * seconds + ticks) 2400) := by
  simp only [Cell.tooLong_iff, Nat.not_lt]
  cases hfind : parts.find? (maxDelay < ·.cell.delay) with
  | none =>
    have hfit : ∀ p ∈ parts, p.cell.delay ≤ maxDelay := by simpa using hfind
    exact Or.inl ⟨_, ofParts_eq_ok.2 ⟨⟨hid, hsource, hfit⟩, rfl⟩, hfit⟩
  | some p =>
    obtain ⟨hlong, before, after, rfl, hfit⟩ := List.find?_eq_some_iff_append.1 hfind
    simp only [decide_eq_true_eq, Bool.not_eq_true', decide_eq_false_iff_not, Nat.not_lt] at hlong hfit
    -- the parts in front of it pass, because they are within the limit
    have hpassed : ∀ x ∈ before.zipIdx, checkPart (before ++ p :: after).length x = .ok () := by
      rintro ⟨q, j⟩ hx
      have hq : before[j]? = some q := List.mem_zipIdx_iff_getElem?.1 hx
      have hmem := List.mem_of_getElem? hq
      have hj : j < before.length := (List.getElem?_eq_some_iff.1 hq).1
      refine checkPart_eq_ok.2 ⟨hid j q ?_, hsource q (List.mem_append_left _ hmem), hfit q hmem⟩
      rwa [List.getElem?_append_left hj]
    have hrefused := checkPart_eq_timerTooLong (hid before.length p (by simp))
      (hsource p (by simp)) hlong
    obtain ⟨ticks, seconds, hcell, hlt⟩ := Cell.tooLong_iff.2 hlong
    have hdelay : p.cell.delay = 40 * seconds + ticks := by
      rw [hcell, Cell.delay, framesPerSecond, Nat.mul_comm]
    refine Or.inr ⟨before, p, after, ticks, seconds, rfl, hfit, hcell, hlt, ?_⟩
    rw [ofParts, List.zipIdx_append, List.zipIdx_cons, Nat.zero_add, forM_eq_error hrefused _ hpassed,
      hdelay]
    rfl

end Simulator

/-! ## Layouts of part lists -/

namespace Layout

theorem sumsFrom_eq (start : Nat) : ∀ ns : List Nat,
    sumsFrom start ns = (List.range (ns.length + 1)).map fun i => start + (ns.take i).sum
  | [] => by simp [sumsFrom]
  | n :: ns => by
    rw [sumsFrom, sumsFrom_eq (start + n) ns, List.length_cons, List.range_succ_eq_map (n := ns.length + 1)]
    simp [Function.comp_def, Nat.add_assoc]

@[simp] theorem size_ofParts (parts : List (Part P)) : (ofParts parts).cells.size = parts.length := by
  simp [ofParts]

theorem offset_ofParts (parts : List (Part P)) {i : Nat} (hi : i ≤ parts.length) :
    (ofParts parts).offset i = ((parts.map (·.connectionsFrom.length)).take i).sum := by
  have hlt : i < parts.length + 1 := by omega
  simp [offset, ofParts, sumsFrom_eq, Array.getD, hlt]

theorem sum_take_le (ns : List Nat) {i j : Nat} (h : i ≤ j) : (ns.take i).sum ≤ (ns.take j).sum := by
  obtain ⟨k, rfl⟩ := Nat.exists_eq_add_of_le h
  rw [List.take_add, List.sum_append]
  exact Nat.le_add_right ..

theorem sound_ofParts {parts : List (Part P)} (h : Accepted parts) : (ofParts parts).Sound where
  size := by simp [ofParts, sumsFrom_eq]
  first := by simp [offset_ofParts parts (Nat.zero_le _)]
  mono i j hij hj := by
    rw [size_ofParts] at hj
    rw [offset_ofParts parts (hij.trans hj), offset_ofParts parts hj]
    exact sum_take_le _ hij
  last := by
    rw [size_ofParts, offset_ofParts parts (Nat.le_refl _), List.take_of_length_le (by simp)]
    simp [ofParts, List.length_flatMap]
  bound k hk := by
    rw [size_ofParts]
    have hmem : (ofParts parts).sources[k] ∈ parts.flatMap (·.connectionsFrom) := by
      simp [ofParts]
    obtain ⟨p, hp, hs⟩ := List.mem_flatMap.1 hmem
    exact h.source p hp _ hs

/-- The sources of a part lie at its place. -/
theorem sources_ofParts {parts : List (Part P)} {i : Nat} {p : Part P} (hp : parts[i]? = some p) :
    ((ofParts parts).sources.extract ((ofParts parts).offset i) ((ofParts parts).offset (i + 1))).toList =
      p.connectionsFrom := by
  obtain ⟨hi, rfl⟩ := List.getElem?_eq_some_iff.1 hp
  rw [offset_ofParts parts (by omega), offset_ofParts parts (by omega)]
  have := List.drop_take_succ_flatten_eq_getElem (parts.map (·.connectionsFrom)) i (by simpa using hi)
  simpa [ofParts, List.flatMap, Function.comp_def, List.drop_take] using this

end Layout

namespace Simulator

theorem sound_start {l : Layout} (hl : l.Sound) (o : SimulatorOptions) : (start l o).Sound where
  layout := hl
  ranges := by simpa [start] using tiles_partition l.cells.size o.partitions
  driven := by simp [start]
  captured := by simp [start]
  active := by simp [start]
  lines := by simp [start]

end Simulator

end Netlist
