/-
The generated networks are built by the public operations. Their generators record edges directly,
and all of these join leaves; those of a random network do because a source draws numbers below the
bound that it is asked for.
-/
import Mathlib.Algebra.Order.Ring.Nat
import Netlist.Generate.Adder
import Netlist.Generate.Basic
import Netlist.Generate.Random
import Netlist.Proofs.Circuit.Nesting

namespace Netlist

variable {P : Type}

namespace Circuit

/-! ## Added leaves -/

theorem size_push (c : Circuit P) (node : Node P) : (c.push node).1.size = c.size + 1 :=
  Array.size_push ..

theorem cell?_push (c : Circuit P) (node : Node P) (n : NodeId) :
    (c.push node).1.cell? n = if n = c.size then node.cell? else c.cell? n := by
  unfold cell?
  rw [node?_push]
  split <;> rfl

theorem snd_addContainer (c : Circuit P) (inputs outputs : List Port) :
    (c.addContainer inputs outputs).2 = c.size :=
  rfl

/-- A container is no leaf and takes the place of none. -/
theorem cell?_addContainer (c : Circuit P) (inputs outputs : List Port) (n : NodeId) :
    (c.addContainer inputs outputs).1.cell? n = c.cell? n := by
  rw [addContainer, cell?_push]
  split
  · next hn =>
    exact (Option.not_isSome_iff_eq_none.1 fun h => Nat.ne_of_lt (lt_size_of_cell? h) hn).symm
  · rfl

theorem isSome_cell?_addContainer {c : Circuit P} {n : NodeId} (h : (c.cell? n).isSome)
    (inputs outputs : List Port) : ((c.addContainer inputs outputs).1.cell? n).isSome := by
  rwa [cell?_addContainer]

theorem isSome_cell?_linkAll {c : Circuit P} {edges : List (NodeId × NodeId)} {n : NodeId}
    (h : (c.cell? n).isSome) : ((c.linkAll edges).cell? n).isSome := by
  rwa [(SamePorts.linkAll c edges).cell?_eq]

theorem isSome_cell?_connect {c : Circuit P} {n : NodeId} (h : (c.cell? n).isSome) (sender receiver : NodeId)
    (lenient : Bool) : ((c.connect sender receiver lenient).circuit.cell? n).isSome := by
  rwa [(SamePorts.connect c sender receiver lenient).cell?_eq]

theorem size_addLeaves : ∀ (cells : List Cell) (c : Circuit P),
    (c.addLeaves cells).size = c.size + cells.length
  | [], _ => rfl
  | cell :: cells, c => by
    have hrest := size_addLeaves cells (c.addLeaf cell).1
    rw [addLeaf, size_push] at hrest
    rw [List.length_cons, ← Nat.add_assoc, Nat.add_right_comm]
    exact hrest

theorem cell?_addLeaves : ∀ (cells : List Cell) (c : Circuit P) (n : Nat),
    (c.addLeaves cells).cell? n = if n < c.size then c.cell? n else cells[n - c.size]?
  | [], c, n => by
    split
    · rfl
    · next hn =>
      rw [List.getElem?_nil]
      exact Option.not_isSome_iff_eq_none.1 fun h => hn (lt_size_of_cell? h)
  | cell :: cells, c, n => by
    have hrest := cell?_addLeaves cells (c.addLeaf cell).1 n
    rw [addLeaf, size_push, cell?_push] at hrest
    refine hrest.trans ?_
    rcases Nat.lt_trichotomy n c.size with hn | rfl | hn
    · rw [if_pos (Nat.lt_succ_of_lt hn), if_neg (Nat.ne_of_lt hn), if_pos hn]
    · rw [if_pos (Nat.lt_succ_self _), if_pos rfl, if_neg (Nat.lt_irrefl _), Nat.sub_self]
      rfl
    · rw [if_neg (by omega), if_neg (by omega), show n - c.size = n - (c.size + 1) + 1 by omega]
      rfl

theorem isSome_cell?_addLeaves {c : Circuit P} {n : NodeId} (h : (c.cell? n).isSome) (cells : List Cell) :
    ((c.addLeaves cells).cell? n).isSome := by
  rwa [cell?_addLeaves, if_pos (lt_size_of_cell? h)]

/-! ## Steps of the generators -/

theorem Built.addLeaves : ∀ {cells : List Cell} {c : Circuit P}, c.Built → (c.addLeaves cells).Built
  | [], _, hc => hc
  | cell :: _, _, hc => (hc.addLeaf cell).addLeaves

theorem Built.linkAll : ∀ {edges : List (NodeId × NodeId)} {c : Circuit P}, c.Built →
    (∀ e ∈ edges, c.JoinsLeaves e) → (c.linkAll edges).Built
  | [], _, hc, _ => hc
  | e :: edges, c, hc, h => by
    have hrest : ∀ e' ∈ edges, (c.link e.1 e.2).JoinsLeaves e' := fun e' he' => by
      rw [JoinsLeaves, cell?_link, cell?_link]
      exact h e' (List.mem_cons_of_mem _ he')
    exact (hc.link (h e (List.mem_cons_self ..))).linkAll hrest

end Circuit

namespace Generate

open Circuit

theorem built_leaves (cells : List Cell) : (leaves P cells).Built := Built.empty.addLeaves

theorem joinsLeaves_leaves {cells : List Cell} {e : NodeId × NodeId}
    (h : e.1 < cells.length ∧ e.2 < cells.length) : (leaves P cells).JoinsLeaves e := by
  have hcell : ∀ n < cells.length, ((leaves P cells).cell? n).isSome := by
    intro n hn
    have hlookup : (leaves P cells).cell? n = cells[n]? :=
      (cell?_addLeaves cells (⟨#[]⟩ : Circuit P) n).trans (if_neg (Nat.not_lt_zero n))
    rw [hlookup, List.getElem?_eq_getElem hn]
    rfl
  exact ⟨hcell _ h.1, hcell _ h.2⟩

theorem built_addRoot {c : Circuit P} (hc : c.Built) {inputs outputs : List NodeId} {rooted : Circuit P × NodeId}
    (h : addRoot c inputs outputs = .ok rooted) : rooted.1.Built := by
  obtain ⟨pinned, hpinned, h⟩ := bind_eq_ok.1 h
  cases h
  exact (hc.addContainer ..).pinPorts hpinned

theorem circuit_ofRoot {c : Circuit P} {root : NodeId} {net : Network P} (h : Network.ofRoot c root = .ok net) :
    net.circuit = c := by
  unfold Network.ofRoot at h
  split at h <;> cases h
  rfl

theorem exists_addRoot {c : Circuit P} {inputs outputs : List NodeId} {net : Network P}
    (h : withRoot c inputs outputs = .ok net) :
    ∃ rooted, addRoot c inputs outputs = .ok rooted ∧ net.circuit = rooted.1 := by
  obtain ⟨rooted, hrooted, h⟩ := bind_eq_ok.1 h
  exact ⟨rooted, hrooted, circuit_ofRoot h⟩

theorem built_withRoot {c : Circuit P} (hc : c.Built) {inputs outputs : List NodeId} {net : Network P}
    (h : withRoot c inputs outputs = .ok net) : net.circuit.Built := by
  obtain ⟨rooted, hrooted, hcircuit⟩ := exists_addRoot h
  rw [hcircuit]
  exact built_addRoot hc hrooted

/-- A network of leaves with edges between them, and a root. -/
theorem built_wired {cells : List Cell} {edges : List (NodeId × NodeId)} {inputs outputs : List NodeId}
    {net : Network P} (hedges : ∀ e ∈ edges, e.1 < cells.length ∧ e.2 < cells.length)
    (h : withRoot ((leaves P cells).linkAll edges) inputs outputs = .ok net) : net.circuit.Built :=
  built_withRoot ((built_leaves cells).linkAll fun e he => joinsLeaves_leaves (hedges e he)) h

/-! ## Simple networks -/

theorem mem_inSequence_range {len : Nat} {e : NodeId × NodeId} (h : e ∈ inSequence (List.range len)) :
    e.1 < len ∧ e.2 < len := by
  obtain ⟨hfirst, hsecond⟩ := List.of_mem_zip h
  exact ⟨List.mem_range.1 hfirst, List.mem_range.1 (List.mem_of_mem_tail hsecond)⟩

theorem built_chain {len : Nat} {mode : Mode} {net : Network P} (h : chain P len mode = .ok net) :
    net.circuit.Built := by
  obtain ⟨_, -, h⟩ := bind_eq_ok.1 h
  refine built_wired (fun e he => ?_) h
  rw [List.length_replicate]
  exact mem_inSequence_range he

theorem mem_meshEdges {len : Nat} {e : NodeId × NodeId} (h : e ∈ meshEdges len) : e.1 < len ∧ e.2 < len := by
  obtain ⟨i, hi, he⟩ := List.mem_flatMap.1 h
  have hi : i + 2 < len := Nat.add_lt_of_lt_sub (List.mem_range.1 hi)
  simp only [List.mem_cons, List.not_mem_nil, or_false] at he
  rcases he with rfl | rfl
  · exact ⟨hi, Nat.lt_of_succ_lt hi⟩
  · exact ⟨hi, Nat.lt_of_succ_lt (Nat.lt_of_succ_lt hi)⟩

theorem built_mesh {len : Nat} {net : Network P} (h : mesh P len = .ok net) : net.circuit.Built := by
  obtain ⟨_, -, h⟩ := bind_eq_ok.1 h
  refine built_wired (fun e he => ?_) h
  rw [List.length_replicate]
  exact mem_meshEdges he

/-- The edges of a timer ring. -/
def ringEdges (len : Nat) : List (NodeId × NodeId) := inSequence (List.range (len + 1)) ++ [(len, 0)]

theorem mem_ringEdges {len : Nat} {e : NodeId × NodeId} (h : e ∈ ringEdges len) : e.1 < len + 1 ∧ e.2 < len + 1 := by
  rcases List.mem_append.1 h with he | he
  · exact mem_inSequence_range he
  · rw [List.mem_singleton.1 he]
    exact ⟨Nat.lt_succ_self _, Nat.succ_pos _⟩

theorem built_timerRing {len ticks : Nat} {net : Network P} (h : timerRing P len ticks = .ok net) :
    net.circuit.Built := by
  obtain ⟨_, -, h⟩ := bind_eq_ok.1 h
  refine built_wired (fun e he => ?_) h
  rw [List.length_cons, List.length_replicate]
  exact mem_ringEdges he

/-! ## Adders -/

/-- The gates of a full adder and the edges between them, behind the nodes that there are. -/
def adderGates (c : Circuit P) : Circuit P :=
  (c.addLeaves fullAdderCells).linkAll
    [(c.size + 1, c.size + 4), (c.size + 2, c.size + 4), (c.size + 3, c.size + 4)]

theorem fullAdder_eq (c : Circuit P) : fullAdder c = (adderGates c).addContainer
    [.bus [c.size, c.size + 1, c.size + 2], .bus [c.size, c.size + 1, c.size + 3],
      .bus [c.size, c.size + 2, c.size + 3]]
    [.single c.size, .single (c.size + 4)] :=
  rfl

theorem isSome_cell?_fullAdderCells (c : Circuit P) {i : Nat} (hi : i < 5) :
    ((c.addLeaves fullAdderCells).cell? (c.size + i)).isSome := by
  have hlt : i < fullAdderCells.length := hi
  rw [cell?_addLeaves, if_neg (by omega), Nat.add_sub_cancel_left, List.getElem?_eq_getElem hlt]
  rfl

theorem built_fullAdder {c : Circuit P} (hc : c.Built) : (fullAdder c).1.Built := by
  have hgates : (adderGates c).Built := by
    refine hc.addLeaves.linkAll fun e he => ?_
    simp only [List.mem_cons, List.not_mem_nil, or_false] at he
    rcases he with rfl | rfl | rfl <;>
      exact ⟨isSome_cell?_fullAdderCells c (by decide), isSome_cell?_fullAdderCells c (by decide)⟩
  rw [fullAdder_eq]
  exact hgates.addContainer ..

theorem size_adderGates (c : Circuit P) : (adderGates c).size = c.size + 5 := by
  rw [adderGates, (SamePorts.linkAll _ _).size_eq, size_addLeaves]
  rfl

/-- The container of a full adder is right behind its gates, of which the carry is the last one. -/
theorem snd_fullAdder (c : Circuit P) : (fullAdder c).2 = c.size + 5 := by
  rw [fullAdder_eq, snd_addContainer, size_adderGates]

theorem isSome_cell?_fullAdder {c : Circuit P} {n : NodeId} (h : (c.cell? n).isSome) :
    ((fullAdder c).1.cell? n).isSome := by
  have hgates : ((adderGates c).cell? n).isSome := isSome_cell?_linkAll (isSome_cell?_addLeaves h fullAdderCells)
  rw [fullAdder_eq]
  exact isSome_cell?_addContainer hgates ..

theorem entry_eq_ok {α : Type} {xs : List α} {i : Nat} {x : α} : entry xs i = .ok x ↔ xs[i]? = some x := by
  unfold entry
  cases xs[i]? <;> simp

theorem isSome_cell?_outputLeaf {c : Circuit P} {n l : NodeId} {slot : Nat} (h : outputLeaf c n slot = .ok l) :
    (c.cell? l).isSome := by
  obtain ⟨lists, hlists, h⟩ := bind_eq_ok.1 h
  obtain ⟨leaves, hleaves, hl⟩ := bind_eq_ok.1 h
  exact isSome_cell?_of_mem_slotLeaves hlists (List.mem_of_getElem? (entry_eq_ok.1 hleaves))
    (List.mem_of_getElem? (entry_eq_ok.1 hl))

theorem complete_connect {c c' : Circuit P} {sender receiver : NodeId} {lenient : Bool}
    (h : (c.connect sender receiver lenient).complete = .ok c') :
    c' = (c.connect sender receiver lenient).circuit := by
  unfold Wired.complete at h
  split at h <;> cases h
  rfl

/-- What the step of one bit does: a full adder, the container of the operands, the sink of the sum, and the
connections between them. The carry is a leaf behind the full adder. -/
theorem addBit_cases {r r' : Ripple P} {a b s : NodeId} (h : r.addBit a b s = .ok r') :
    ∃ adder operands sink : NodeId,
      r'.circuit = (((((fullAdder r.circuit).1.addContainer [] [.single a, .single b, .single r.carry]).1.connect
        operands adder false).circuit.addContainer [.single s] []).1.connect adder sink true).circuit ∧
      outputLeaf r'.circuit adder 1 = .ok r'.carry := by
  obtain ⟨⟨c, adder⟩, hadder⟩ : ∃ x, fullAdder r.circuit = x := ⟨_, rfl⟩
  rw [Ripple.addBit, hadder] at h
  obtain ⟨first, hfirst, h⟩ := bind_eq_ok.1 h
  obtain ⟨second, hsecond, h⟩ := bind_eq_ok.1 h
  obtain ⟨carry, hcarry, h⟩ := bind_eq_ok.1 h
  cases h
  refine ⟨adder, c.size, first.size, ?_, hcarry⟩
  rw [hadder]
  cases complete_connect hfirst
  exact complete_connect hsecond

/-- What a ripple-carry adder consists of: its bits, the last carry wired to the output, and the root. -/
theorem rippleCarry_cases {len : Nat} {net : Network P} (h : rippleCarry P len = .ok net) :
    ∃ (r : Ripple P) (inputs outputs : List NodeId) (rooted : Circuit P × NodeId),
      (List.range len).foldlM (fun r i => r.addBit i (len + i) (2 * len + i))
        (⟨leaves P (List.replicate (3 * len + 2) (.gate .or)), 3 * len + 1⟩ : Ripple P) = .ok r ∧
      addRoot (r.circuit.link r.carry (3 * len)) inputs outputs = .ok rooted ∧ net.circuit = rooted.1 := by
  obtain ⟨r, hr, h⟩ := bind_eq_ok.1 h
  obtain ⟨rooted, hrooted, h⟩ := bind_eq_ok.1 h
  obtain ⟨_, -, h⟩ := bind_eq_ok.1 h
  exact ⟨r, _, _, rooted, hr, hrooted, circuit_ofRoot h⟩

/-- What holds of a ripple-carry adder while it is built: the carry into the next bit and the last
output are leaves. -/
structure Rippling (carryOut : NodeId) (r : Ripple P) : Prop where
  built : r.circuit.Built
  carry : (r.circuit.cell? r.carry).isSome
  carryOut : (r.circuit.cell? carryOut).isSome

theorem Rippling.addBit {carryOut a b s : NodeId} {r r' : Ripple P} (hr : Rippling carryOut r)
    (h : r.addBit a b s = .ok r') : Rippling carryOut r' := by
  obtain ⟨adder, operands, sink, hcircuit, hcarry⟩ := addBit_cases h
  refine ⟨?_, isSome_cell?_outputLeaf hcarry, ?_⟩
  · rw [hcircuit]
    exact ((((built_fullAdder hr.built).addContainer ..).connect ..).addContainer ..).connect ..
  · -- a bit adds nodes and edges, so a leaf stays one
    rw [hcircuit]
    exact isSome_cell?_connect (isSome_cell?_addContainer (isSome_cell?_connect
      (isSome_cell?_addContainer (isSome_cell?_fullAdder hr.carryOut) ..) ..) ..) ..

theorem rippling_start (P : Type) (len : Nat) : Rippling (3 * len)
    (⟨leaves P (List.replicate (3 * len + 2) (.gate .or)), 3 * len + 1⟩ : Ripple P) := by
  have hjoins : (leaves P (List.replicate (3 * len + 2) (.gate .or))).JoinsLeaves (3 * len + 1, 3 * len) :=
    joinsLeaves_leaves (by simp)
  exact ⟨built_leaves _, hjoins.1, hjoins.2⟩

theorem rippling_bits {len : Nat} {r : Ripple P}
    (h : (List.range len).foldlM (fun r i => r.addBit i (len + i) (2 * len + i))
      (⟨leaves P (List.replicate (3 * len + 2) (.gate .or)), 3 * len + 1⟩ : Ripple P) = .ok r) :
    Rippling (3 * len) r :=
  foldlM_keeps (fun _ _ _ hr hbit => Rippling.addBit hr hbit) (rippling_start P len) h

theorem Rippling.finish {carryOut : NodeId} {r : Ripple P} (h : Rippling carryOut r) :
    (r.circuit.link r.carry carryOut).Built :=
  h.built.link ⟨h.carry, h.carryOut⟩

theorem built_rippleCarry {len : Nat} {net : Network P} (h : rippleCarry P len = .ok net) :
    net.circuit.Built := by
  obtain ⟨r, inputs, outputs, rooted, hr, hrooted, hcircuit⟩ := rippleCarry_cases h
  rw [hcircuit]
  exact built_addRoot (rippling_bits hr).finish hrooted

/-! ## Random networks -/

/-- A source that draws numbers below the bounds that it is asked for. -/
structure Source.InRange {σ : Type} (src : Source σ) : Prop where
  below : ∀ bound s, 0 < bound → (src.below bound s).1 < bound
  belowShort : ∀ bound s, 0 < bound → (src.belowShort bound s).1 < bound

theorem Xoshiro.belowFrom_lt {word : StateM Xoshiro Nat} {width bound : Nat} (hword : ∀ s, (word s).1 < 2 ^ width)
    (hbound : 0 < bound) : ∀ (tries : Nat) (s : Xoshiro), (belowFrom word width bound tries s).1 < bound := by
  have hhigh : ∀ s, (word s).1 * bound / 2 ^ width < bound := fun s =>
    Nat.div_lt_of_lt_mul (Nat.mul_lt_mul_of_pos_right (hword s) hbound)
  intro tries
  induction tries with
  | zero => exact hhigh
  | succ tries ih =>
    intro s
    change ((if (word s).1 * bound % 2 ^ width ≤ zone width bound then pure ((word s).1 * bound / 2 ^ width)
      else belowFrom word width bound tries : StateM Xoshiro Nat) (word s).2).1 < bound
    split
    · exact hhigh s
    · exact ih _

theorem Xoshiro.source_inRange : source.InRange where
  below bound s hbound := belowFrom_lt (fun s => UInt64.toNat_lt _) hbound _ s
  belowShort bound s hbound := by
    refine belowFrom_lt (fun s => ?_) hbound _ s
    change ((next s).1 >>> 32).toNat < 2 ^ 32
    rw [UInt64.toNat_shiftRight, Nat.shiftRight_eq_div_pow]
    exact Nat.div_lt_of_lt_mul (UInt64.toNat_lt _)

variable {σ : Type}

theorem mem_drawEdges {src : Source σ} (hsrc : src.InRange) {len maxFanin target : Nat} (hlen : 0 < len)
    (s : σ) : ∀ e ∈ (drawEdges src len maxFanin target s).1, e.1 < len ∧ e.2 = target := by
  intro e he
  obtain ⟨source, hsource, rfl⟩ := List.mem_map.1 he
  have hall := forall₂_mapM_state (R := fun _ n => n < len)
    (l := List.replicate ((src.below maxFanin s).1 + 1) len) (f := src.below)
    (fun bound hb s => by
      rw [List.eq_of_mem_replicate hb]
      exact hsrc.below len s hlen) (src.below maxFanin s).2
  obtain ⟨i, hi, rfl⟩ := List.getElem_of_mem hsource
  have hi' := hall.length_eq ▸ hi
  exact ⟨hall.get hi' hi, rfl⟩

theorem fst_drawCircuit (P : Type) (src : Source σ) (len maxFanin : Nat) (s : σ) :
    (drawCircuit P src len maxFanin s).1 =
      let cells := (List.range len).mapM (drawCell src (ioCount len)) s
      (leaves P cells.1).linkAll
        (((List.range len).drop (ioCount len)).mapM (drawEdges src len maxFanin) cells.2).1.flatten :=
  rfl

/-- There is a leaf for each position, and every drawn edge joins two of them. -/
theorem built_drawCircuit {src : Source σ} (hsrc : src.InRange) {len maxFanin : Nat} (hlen : 0 < len)
    (s : σ) : (drawCircuit P src len maxFanin s).1.Built := by
  have hcells := forall₂_mapM_state (R := fun _ _ => True) (l := List.range len)
    (f := drawCell src (ioCount len)) (fun _ _ _ => trivial) s
  have hedges := forall₂_mapM_state (R := fun target es => ∀ e ∈ es, e.1 < len ∧ e.2 = target)
    (l := (List.range len).drop (ioCount len)) (f := drawEdges src len maxFanin)
    (fun _ _ => mem_drawEdges hsrc hlen) ((List.range len).mapM (drawCell src (ioCount len)) s).2
  rw [fst_drawCircuit]
  refine (built_leaves _).linkAll fun e he => joinsLeaves_leaves ?_
  rw [← hcells.length_eq, List.length_range]
  obtain ⟨es, hes, he⟩ := List.mem_flatten.1 he
  obtain ⟨i, hi, rfl⟩ := List.getElem_of_mem hes
  have hi' := hedges.length_eq ▸ hi
  obtain ⟨hsource, htarget⟩ := hedges.get hi' hi e he
  refine ⟨hsource, ?_⟩
  rw [htarget]
  exact List.mem_range.1 (List.mem_of_mem_drop (List.getElem_mem hi'))

theorem built_random {len maxFanin : Nat} {seed : UInt64} {net : Network P}
    (h : random P len maxFanin seed = .ok net) : net.circuit.Built := by
  obtain ⟨_, hrequire, h⟩ := bind_eq_ok.1 h
  have hlen : 0 < len := by
    unfold require at hrequire
    split at hrequire
    · next hdomain => simpa using (Bool.and_eq_true_iff.1 hdomain).1
    · cases hrequire
  exact built_withRoot (built_drawCircuit Xoshiro.source_inRange hlen _) h

end Generate

end Netlist
