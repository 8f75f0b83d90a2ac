/-
Random networks for every outcome of their draws. The cells are drawn first, one for each leaf, and then
the edges into each leaf behind the inputs, so such a leaf has the sources that were drawn for it and
no others, and an input has none.
-/
import Netlist.Proofs.Generate.Wired

namespace Netlist.Generate

open Circuit

variable {P σ : Type}

/-! ## Drawn edges -/

theorem sourcesIn_eq_map {edges : List (NodeId × NodeId)} {n : NodeId} (h : ∀ e ∈ edges, e.2 = n) :
    sourcesIn edges n = edges.map (·.1) := by
  rw [← List.filterMap_eq_map]
  exact List.filterMap_congr fun e he => if_pos (h e he)

theorem sourcesIn_eq_nil {edges : List (NodeId × NodeId)} {n : NodeId} (h : ∀ e ∈ edges, e.2 ≠ n) :
    sourcesIn edges n = [] :=
  List.filterMap_eq_nil_iff.2 fun e he => if_neg (h e he)

/-- Edges into one target, at least one and not too many. -/
structure DrawnFor (len maxFanin : Nat) (target : NodeId) (edges : List (NodeId × NodeId)) : Prop where
  source : ∀ e ∈ edges, e.1 < len
  target : ∀ e ∈ edges, e.2 = target
  pos : 0 < edges.length
  le : edges.length ≤ maxFanin

/-- Each target has the edges that were drawn for it, and nothing else has any. -/
theorem sourcesIn_drawn {len maxFanin : Nat} {targets : List NodeId} {drawn : List (List (NodeId × NodeId))}
    (h : List.Forall₂ (DrawnFor len maxFanin) targets drawn) (hnodup : targets.Nodup) (n : NodeId) :
    (n ∈ targets → 0 < (sourcesIn drawn.flatten n).length ∧ (sourcesIn drawn.flatten n).length ≤ maxFanin) ∧
    (n ∉ targets → sourcesIn drawn.flatten n = []) := by
  induction h with
  | nil => exact ⟨nofun, fun _ => rfl⟩
  | @cons target edges targets drawn hedges _ ih =>
    obtain ⟨hfresh, hnodup⟩ := List.nodup_cons.1 hnodup
    obtain ⟨hmem, hnotMem⟩ := ih hnodup
    rw [List.flatten_cons, sourcesIn_append]
    by_cases hn : n = target
    · subst hn
      rw [hnotMem hfresh, List.append_nil, sourcesIn_eq_map hedges.target, List.length_map]
      exact ⟨fun _ => ⟨hedges.pos, hedges.le⟩, fun hself => absurd (List.mem_cons_self ..) hself⟩
    · rw [sourcesIn_eq_nil fun e he heq => hn (heq.symm.trans (hedges.target e he)), List.nil_append,
        List.mem_cons, or_iff_right hn]
      exact ⟨hmem, hnotMem⟩

theorem lt_of_drawn {len maxFanin : Nat} {targets : List NodeId} {drawn : List (List (NodeId × NodeId))}
    (h : List.Forall₂ (DrawnFor len maxFanin) targets drawn) (htargets : ∀ n ∈ targets, n < len) :
    ∀ e ∈ drawn.flatten, e.1 < len ∧ e.2 < len := by
  intro e he
  obtain ⟨edges, hedges, he⟩ := List.mem_flatten.1 he
  obtain ⟨i, hi⟩ := List.getElem?_of_mem hedges
  obtain ⟨target, htarget, hdrawn⟩ := getElem?_of_forall₂ h hi
  refine ⟨hdrawn.source e he, ?_⟩
  rw [hdrawn.target e he]
  exact htargets target (List.mem_of_getElem? htarget)

/-! ## Draws -/

/-- A gate, or a timer of at most three frames behind the inputs. -/
def DrawnCell (inputs position : Nat) (cell : Cell) : Prop :=
  (∃ mode, cell = .gate mode) ∨ inputs ≤ position ∧ ∃ ticks ≤ 3, cell = .timer ticks 0

section Draws

variable {src : Source σ} (hsrc : src.InRange)

include hsrc

omit hsrc in
/-- Behind the inputs a draw decides between a timer and a gate. -/
theorem drawCell_of_le {inputs position : Nat} (h : inputs ≤ position) (s : σ) :
    (drawCell src inputs position s).1 =
      if (src.sixteenth s).1 then .timer (src.belowShort 4 (src.sixteenth s).2).1 0
      else (drawGate src (src.sixteenth s).2).1 := by
  obtain ⟨chosen, s', hchosen⟩ : ∃ chosen s', src.sixteenth s = (chosen, s') := ⟨_, _, rfl⟩
  rw [drawCell, if_neg (Nat.not_lt_of_le h)]
  simp only [bind, StateT.bind, hchosen]
  cases chosen <;> rfl

theorem drawCell_spec (inputs position : Nat) (s : σ) :
    DrawnCell inputs position (drawCell src inputs position s).1 := by
  rcases Nat.lt_or_ge position inputs with hposition | hposition
  · rw [drawCell, if_pos hposition]
    exact .inl ⟨_, rfl⟩
  · rw [drawCell_of_le hposition]
    split
    · exact .inr ⟨hposition, _, Nat.le_of_lt_succ (hsrc.belowShort 4 _ (by decide)), rfl⟩
    · exact .inl ⟨_, rfl⟩

/-- A position behind the inputs has from one to `maxFanin` drawn sources. -/
theorem drawEdges_spec {len maxFanin : Nat} (hlen : 0 < len) (hfanin : 0 < maxFanin) (target : NodeId) (s : σ) :
    DrawnFor len maxFanin target (drawEdges src len maxFanin target s).1 := by
  have hedges : ∀ e ∈ (drawEdges src len maxFanin target s).1, e.1 < len ∧ e.2 = target := mem_drawEdges hsrc hlen s
  have hextra : (src.below maxFanin s).1 < maxFanin := hsrc.below maxFanin s hfanin
  have hsources := forall₂_mapM_state (R := fun _ _ => True)
    (l := List.replicate ((src.below maxFanin s).1 + 1) len) (f := src.below) (fun _ _ _ => trivial)
    (src.below maxFanin s).2
  have hlength : (drawEdges src len maxFanin target s).1.length = (src.below maxFanin s).1 + 1 := by
    show (((List.replicate ((src.below maxFanin s).1 + 1) len).mapM src.below (src.below maxFanin s).2).1.map
      fun source => (source, target)).length = _
    rw [List.length_map, ← hsources.length_eq, List.length_replicate]
  refine ⟨fun e he => (hedges e he).1, fun e he => (hedges e he).2, ?_, ?_⟩
  · rw [hlength]
    exact Nat.succ_pos _
  · rw [hlength]
    exact hextra

end Draws

/-! ## Drawn networks -/

/-- What holds of a random network whatever is drawn. -/
structure Drawn (len maxFanin : Nat) (net : Network P) : Prop where
  built : net.circuit.Built
  ports : net.circuit.PortsExist
  /-- There are the leaves and the root. -/
  size : net.circuit.size = len + 1
  root : net.root = len
  exists_root : ∃ node, net.circuit.node? net.root = some node ∧ node.kind = .container ∧
    node.inputs = ((List.range len).take (ioCount len)).map .single ∧
    node.outputs = ((List.range len).drop (len - ioCount len)).map .single
  isLeaf : ∀ n, (net.circuit.cell? n).isSome ↔ n < len
  input : ∀ n < ioCount len, (∃ mode, net.circuit.cell? n = some (.gate mode)) ∧ net.circuit.backwardOf n = []
  behind : ∀ n, ioCount len ≤ n → n < len →
    1 ≤ (net.circuit.backwardOf n).length ∧ (net.circuit.backwardOf n).length ≤ maxFanin
  pinned : ∀ n, net.circuit.isPinned n = true ↔ n < ioCount len ∨ len - ioCount len ≤ n ∧ n < len
  delay : ∀ n cell, net.circuit.cell? n = some cell → cell.delay ≤ 3

theorem ioCount_le {len : Nat} (hlen : 0 < len) : ioCount len ≤ len :=
  Nat.max_le.2 ⟨hlen, Nat.div_le_self ..⟩

theorem mem_take_range {len count n : Nat} (h : count ≤ len) : n ∈ (List.range len).take count ↔ n < count := by
  rw [List.take_range, Nat.min_eq_left h, List.mem_range]

theorem mem_drop_range {len count n : Nat} : n ∈ (List.range len).drop count ↔ count ≤ n ∧ n < len := by
  rw [List.range_eq_range', List.drop_range', List.mem_range'_1]
  omega

/-- The cells and the edges of a random circuit. -/
theorem exists_drawn (P : Type) {src : Source σ} (hsrc : src.InRange) (state : σ) {len maxFanin : Nat}
    (hlen : 0 < len) (hfanin : 0 < maxFanin) : ∃ cells edges,
      (drawCircuit P src len maxFanin state).1 = wired P cells edges ∧ cells.length = len ∧
      (∀ n cell, cells[n]? = some cell → DrawnCell (ioCount len) n cell) ∧
      (∀ e ∈ edges, e.1 < len ∧ e.2 < len) ∧
      (∀ n < ioCount len, sourcesIn edges n = []) ∧
      ∀ n, ioCount len ≤ n → n < len →
        0 < (sourcesIn edges n).length ∧ (sourcesIn edges n).length ≤ maxFanin := by
  have hcells := forall₂_mapM_state (l := List.range len)
    (fun position _ => drawCell_spec hsrc (ioCount len) position) state
  have hedges := forall₂_mapM_state (l := (List.range len).drop (ioCount len))
    (fun target _ => drawEdges_spec hsrc hlen hfanin target)
    ((List.range len).mapM (drawCell src (ioCount len)) state).2
  have hsources := sourcesIn_drawn hedges (List.nodup_range.sublist (List.drop_sublist ..))
  refine ⟨_, _, fst_drawCircuit P src len maxFanin state, hcells.length_eq.symm.trans List.length_range,
    fun n cell hn => ?_, lt_of_drawn hedges fun n hn => (mem_drop_range.1 hn).2, fun n hn => ?_,
    fun n hn hlt => (hsources n).1 (mem_drop_range.2 ⟨hn, hlt⟩)⟩
  · obtain ⟨position, hposition, hdrawn⟩ := getElem?_of_forall₂ hcells hn
    obtain ⟨hlt, rfl⟩ := List.getElem?_eq_some_iff.1 hposition
    rwa [List.getElem_range] at hdrawn
  · exact (hsources n).2 fun hmem => Nat.not_lt_of_le (mem_drop_range.1 hmem).1 hn

/-- There is a random network for every outcome of the draws. -/
theorem exists_randomFrom (P : Type) {src : Source σ} (hsrc : src.InRange) (state : σ) {len maxFanin : Nat}
    (hlen : 0 < len) (hfanin : 0 < maxFanin) :
    ∃ net : Network P, randomFrom P src state len maxFanin = .ok net ∧ Drawn len maxFanin net := by
  obtain ⟨cells, edges, hdrawn, rfl, hcell, hedges, hinput, hbehind⟩ := exists_drawn P hsrc state hlen hfanin
  obtain ⟨net, hnet, hwired⟩ : ∃ net, withRoot (wired P cells edges) _ _ = .ok net ∧
      WiredNetwork cells edges ((List.range cells.length).take (ioCount cells.length))
        ((List.range cells.length).drop (cells.length - ioCount cells.length)) net :=
    exists_wiredNetwork P hedges
      (fun n hn => List.mem_range.1 (List.mem_of_mem_take hn)) (fun n hn => List.mem_range.1 (List.mem_of_mem_drop hn))
      (List.nodup_range.sublist (List.take_sublist ..)) (List.nodup_range.sublist (List.drop_sublist ..))
  have hrequired : randomFrom P src state cells.length maxFanin = .ok net := by
    rw [randomFrom, require, if_pos (by simp [hlen, hfanin]), hdrawn]
    exact hnet
  refine ⟨net, hrequired, hwired.built, hwired.ports, hwired.size, hwired.root, hwired.exists_root,
    fun n => ?_, fun n hn => ⟨?_, (hwired.sources n).trans (hinput n hn)⟩, fun n hn hlt => ?_, fun n => ?_,
    fun n cell hn => ?_⟩
  · rw [hwired.cell, isSome_getElem?]
  · have hlt := hn.trans_le (ioCount_le hlen)
    have hfound := List.getElem?_eq_getElem hlt
    rcases hcell n _ hfound with ⟨mode, hmode⟩ | ⟨hle, -⟩
    · exact ⟨mode, (hwired.cell n).trans (hmode ▸ hfound)⟩
    · exact absurd hn (Nat.not_lt_of_le hle)
  · rw [hwired.sources]
    exact hbehind n hn hlt
  · rw [hwired.pinned, mem_take_range (ioCount_le hlen), mem_drop_range]
  · rcases hcell n cell ((hwired.cell n).symm.trans hn) with ⟨mode, rfl⟩ | ⟨-, ticks, hticks, rfl⟩
    · exact Nat.zero_le 3
    · show 0 * framesPerSecond + ticks ≤ 3
      rwa [Nat.zero_mul, Nat.zero_add]

end Netlist.Generate
