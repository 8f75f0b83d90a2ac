/-
What the statistics of a part list count. Every part is a gate of one mode or a timer. In the parts of a
compiled network every connection has two ends, so the connections may be counted at either of them, and
there are at most as many as the largest fan-in allows.
-/
import Netlist.Part.Stats
import Netlist.Proofs.Network.Export

namespace Netlist.Stats

variable {P : Type}

/-! ## Kinds -/

theorem gates_ofParts (parts : List (Part P)) : (ofParts parts).gates = parts.countP (!isTimer ·.cell) := by
  simp only [gates, ofParts, Mode.all, List.map_cons, List.map_nil, List.foldl_cons, List.foldl_nil, Nat.zero_add]
  induction parts with
  | nil => rfl
  | cons p parts ih =>
    simp only [List.countP_cons]
    -- a gate is counted under its own mode only
    cases p.cell with
    | timer => simpa using ih
    | gate m => cases m <;> simp <;> omega

/-- A part is either a gate of one of the modes or a timer. -/
theorem gates_add_timers (parts : List (Part P)) :
    (ofParts parts).gates + (ofParts parts).timers = (ofParts parts).parts := by
  have hsplit := List.length_eq_countP_add_countP (fun p : Part P => isTimer p.cell) (l := parts)
  simp only [Bool.not_eq_true, Bool.decide_eq_false] at hsplit
  rw [gates_ofParts, Nat.add_comm]
  exact hsplit.symm

/-! ## Largest numbers -/

theorem foldl_max_le_iff {k : Nat} : ∀ {ns : List Nat} {start : Nat},
    ns.foldl max start ≤ k ↔ start ≤ k ∧ ∀ n ∈ ns, n ≤ k
  | [], start => by simp
  | n :: ns, start => by
    rw [List.foldl_cons, foldl_max_le_iff, Nat.max_le, List.forall_mem_cons, and_assoc]

/-- The largest number is the least bound. -/
theorem largest_le_iff {ns : List Nat} {k : Nat} : largest ns ≤ k ↔ ∀ n ∈ ns, n ≤ k :=
  foldl_max_le_iff.trans (and_iff_right (Nat.zero_le k))

theorem fanin_le {parts : List (Part P)} {p : Part P} (hp : p ∈ parts) :
    p.connectionsFrom.length ≤ (ofParts parts).maxFanin :=
  largest_le_iff.1 (Nat.le_refl _) _ (List.mem_map_of_mem hp)

/-! ## Connections -/

/-- Every connection of a closed part list is counted once at its source and once at its target. -/
theorem connections_ofParts {parts : List (Part P)} (h : ClosedParts parts) :
    (ofParts parts).connections = (parts.map (·.connections.length)).sum ∧
      (ofParts parts).connections = (parts.map (·.connectionsFrom.length)).sum := by
  have hsources : (ofParts parts).connections = (parts.map (·.connections.length)).sum := List.length_flatMap
  exact ⟨hsources, hsources.trans h.fan⟩

/-- A bound on the inputs of all parts bounds their sum, to which parts without inputs add nothing. -/
theorem sum_fanin_le {k : Nat} : ∀ {parts : List (Part P)}, (∀ p ∈ parts, p.connectionsFrom.length ≤ k) →
    (parts.map (·.connectionsFrom.length)).sum ≤ k * (parts.length - parts.countP (·.connectionsFrom.isEmpty))
  | [], _ => Nat.zero_le _
  | p :: parts, h => by
    obtain ⟨hp, hparts⟩ := List.forall_mem_cons.1 h
    have ih := sum_fanin_le hparts
    have hcount : parts.countP (·.connectionsFrom.isEmpty) ≤ parts.length := List.countP_le_length
    rw [List.map_cons, List.sum_cons, List.length_cons]
    cases hempty : p.connectionsFrom.isEmpty with
    | true => simpa [List.isEmpty_iff.1 hempty] using ih
    | false =>
      have hskip : (p :: parts).countP (·.connectionsFrom.isEmpty) = parts.countP (·.connectionsFrom.isEmpty) := by
        simp [hempty]
      rw [hskip, Nat.sub_add_comm hcount, Nat.mul_succ, Nat.add_comm]
      exact Nat.add_le_add ih hp

/-- The parts that are no sources have the largest fan-in at most. -/
theorem connections_le {parts : List (Part P)} (h : ClosedParts parts) : (ofParts parts).connections ≤
    (ofParts parts).maxFanin * ((ofParts parts).parts - (ofParts parts).sources) := by
  rw [(connections_ofParts h).2]
  exact sum_fanin_le fun p hp => fanin_le hp

end Netlist.Stats
