/-
A compiled network settles into the steady states of its circuit. Levels and states are given to
nodes, so they do not depend on which leaves were eliminated or on the ids that the others have.
-/
import Mathlib.Data.List.GetD
import Netlist.Proofs.Network.Simulation
import Netlist.Proofs.Simulator.Settling

namespace Netlist

variable {P : Type}

/-- The state of a cell for steady inputs. -/
def Cell.steadyState (cell : Cell) (inputs : List Bool) : Bool :=
  match cell with
  | .gate mode => mode.evaluate inputs
  | .timer .. => inputs.any id

theorem Cell.steadyState_perm (cell : Cell) {inputs inputs' : List Bool} (h : inputs.Perm inputs') :
    cell.steadyState inputs = cell.steadyState inputs' := by
  cases cell with
  | gate mode => exact mode.evaluate_perm h
  | timer ticks seconds =>
    show inputs.any id = inputs'.any id
    rw [Bool.eq_iff_iff, List.any_eq_true, List.any_eq_true]
    simp only [h.mem_iff]

theorem Part.steadyState_eq (p : Part P) (forced : Option Bool) (state : Nat → Bool) :
    p.steadyState forced state = forced.getD (p.cell.steadyState (p.connectionsFrom.map state)) := by
  unfold steadyState Cell.steadyState
  cases p.cell <;> simp

/-- Steady states of some cells of a schematic while some of them are driven, with levels that leave
each cell the frames that its sources need. -/
structure Schematic.Steady (σ : Schematic) (keep : Nat → Prop) (forced : Nat → Option Bool)
    (level : Nat → Nat) (state : Nat → Bool) : Prop where
  positive : ∀ n, keep n → 1 ≤ level n
  driven : ∀ n v, keep n → forced n = some v → state n = v
  delay : ∀ n cell, keep n → forced n = none → σ.cell? n = some cell → 1 + cell.delay ≤ level n
  source : ∀ n cell, keep n → forced n = none → σ.cell? n = some cell →
    ∀ m ∈ σ.sources n, 1 + cell.delay + level m ≤ level n
  free : ∀ n cell, keep n → forced n = none → σ.cell? n = some cell →
    state n = cell.steadyState ((σ.sources n).map state)

namespace Network

variable {net : Network P} {σ : Schematic} {forced : Nat → Option Bool} {level : Nat → Nat}
  {state : Nat → Bool} {parts : List (Part P)} {driven : Nat → Option Bool}

/-- The leaf at the position of a part. -/
def leafAt (net : Network P) (i : Nat) : NodeId := net.leaves.getD i 0

theorem leafAt_idxOf {n : NodeId} (hn : n ∈ net.leaves) : net.leafAt (net.leaves.idxOf n) = n := by
  have hi := List.idxOf_lt_length_of_mem hn
  rw [leafAt, List.getD_eq_getElem _ _ hi, List.getElem_idxOf]

theorem bounds_of_steady (hnet : net.Sound) (hparts : List.Forall₂ net.Describes net.leaves parts)
    (hσ : net.Realizes σ) (h : σ.Steady (· ∈ net.leaves) forced level state)
    (hdriven : ∀ n ∈ net.leaves, driven (net.leaves.idxOf n) = forced n) :
    Bounds parts driven fun i => level (net.leafAt i) where
  driven i hi := by
    obtain ⟨n, hn, rfl, -⟩ := exists_leaf hnet hparts (List.getElem?_eq_getElem hi)
    rw [leafAt_idxOf hn]
    exact h.positive n hn
  delay i p hp hfree := by
    obtain ⟨n, hn, rfl, hdescribes⟩ := exists_leaf hnet hparts hp
    rw [leafAt_idxOf hn]
    exact h.delay n _ hn ((hdriven n hn).symm.trans hfree) ((hσ n hn).1 ▸ hdescribes.cell)
  source i p hp hfree j hj := by
    obtain ⟨n, hn, rfl, hdescribes⟩ := exists_leaf hnet hparts hp
    rw [hdescribes.connectionsFrom] at hj
    obtain ⟨m, hm, rfl⟩ := List.mem_map.1 hj
    rw [leafAt_idxOf hn, leafAt_idxOf (hnet.mem_of_mem_sources hm).1]
    exact h.source n _ hn ((hdriven n hn).symm.trans hfree) ((hσ n hn).1 ▸ hdescribes.cell) m
      ((hσ n hn).2.mem_iff.1 hm)

theorem solves_of_steady (hnet : net.Sound) (hparts : List.Forall₂ net.Describes net.leaves parts)
    (hσ : net.Realizes σ) (h : σ.Steady (· ∈ net.leaves) forced level state)
    (hdriven : ∀ n ∈ net.leaves, driven (net.leaves.idxOf n) = forced n) :
    Solves parts driven fun i => state (net.leafAt i) := by
  intro i p hp
  obtain ⟨n, hn, rfl, hdescribes⟩ := exists_leaf hnet hparts hp
  show state (net.leafAt (net.leaves.idxOf n)) = _
  rw [leafAt_idxOf hn, Part.steadyState_eq, hdriven n hn]
  cases hforced : forced n with
  | some v => exact h.driven n v hn hforced
  | none =>
    have hinputs : p.connectionsFrom.map (fun i => state (net.leafAt i)) = (net.wires.sources n).map state := by
      rw [hdescribes.connectionsFrom, List.map_map]
      refine List.map_congr_left fun m hm => ?_
      exact congrArg state (leafAt_idxOf (hnet.mem_of_mem_sources hm).1)
    rw [h.free n _ hn hforced ((hσ n hn).1 ▸ hdescribes.cell), Option.getD_none, hinputs]
    exact (p.cell.steadyState_perm ((hσ n hn).2.map state)).symm

/-- A compiled network whose driven leaves are held takes the steady states of the schematic that it
realizes, each leaf after as many frames as its level says. -/
theorem isActive?_run_of_steady (hnet : net.Sound) (hids : net.Numbered) (hdelays : net.DelaysFit)
    (o : SimulatorOptions) : ∃ s, Simulator.ofNetwork net o = .ok s ∧
      ∀ (before : List Operation) (forced : Nat → Option Bool) (level : Nat → Nat) (state : Nat → Bool) σ,
        net.Realizes σ → σ.Steady (· ∈ net.leaves) forced level state →
        (∀ n ∈ net.leaves, (s.performAll before).driven.getD (net.leaves.idxOf n) none = forced n) →
        ∀ n ∈ net.leaves, ∀ frames, level n ≤ frames →
          ((s.performAll before).run frames).isActive? (net.leaves.idxOf n) = some (state n) := by
  obtain ⟨parts, heq, hparts⟩ := parts_eq_ok hnet hids
  have haccepted := accepted_parts hnet hparts (delaysFit_iff.1 hdelays)
  have hs := Simulator.ofParts_eq_ok (o := o) |>.2 ⟨haccepted, rfl⟩
  refine ⟨_, bind_eq_ok.2 ⟨parts, heq, hs⟩, ?_⟩
  intro before forced level state σ hσ hsteady hdriven n hn frames hle
  have hlt : ∀ m ∈ net.leaves, net.leaves.idxOf m < parts.length := fun m hm => by
    rw [← hparts.length_eq]
    exact List.idxOf_lt_length_of_mem hm
  have hheld : ∀ m ∈ net.leaves, Operation.forcedAfter before (net.leaves.idxOf m) = forced m := by
    intro m hm
    have hfollows := (Simulator.follows_performAll hs before).driven _ (hlt m hm)
    rw [← hdriven m hm, hfollows, Schematic.forced_run]
  -- frames alone drive nothing
  have hhold : Operation.Hold parts.length (Operation.forcedAfter before) (List.replicate frames .step) :=
    fun target value hm => nomatch List.eq_of_mem_replicate hm
  have hframes : Operation.frames (List.replicate frames .step) = frames := List.count_replicate_self
  have hactive := Simulator.isActive?_of_bounds hs hhold (bounds_of_steady hnet hparts hσ hsteady hheld)
    (solves_of_steady hnet hparts hσ hsteady hheld) (hlt n hn)
    (by rw [hframes, leafAt_idxOf hn]; exact hle)
  rw [leafAt_idxOf hn, Simulator.performAll, List.foldl_append] at hactive
  rw [Simulator.run_eq_performAll]
  exact hactive

end Network

end Netlist
