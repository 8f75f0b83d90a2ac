/-
The circuit of a ripple-carry adder. The operands, the sum and two carries come first, in blocks of
the width; behind them each bit has eight nodes: the five gates of its full adder and the three
containers through which these are wired. A bit reads its two operands and the carry of the bit
before, and feeds its sum.
-/
import Mathlib.Tactic.IntervalCases
import Netlist.Proofs.Generate.Rooted
import Netlist.Proofs.Network.Check

namespace Netlist.Generate

open Circuit

variable {P : Type}

/-! ## One bit -/

/-- The edges by which the gates of a full adder read its operands. -/
def operandEdges (gates a b carry : NodeId) : List (NodeId × NodeId) :=
  [(a, gates), (a, gates + 1), (a, gates + 2), (b, gates), (b, gates + 1), (b, gates + 3),
    (carry, gates), (carry, gates + 2), (carry, gates + 3)]

/-- The edges of a bit whose gates begin at `gates`, in the order in which they are recorded. -/
def bitEdges (gates a b carry s : NodeId) : List (NodeId × NodeId) :=
  [(gates + 1, gates + 4), (gates + 2, gates + 4), (gates + 3, gates + 4)] ++
    operandEdges gates a b carry ++ [(gates, s)]

/-- A circuit with a full adder and, behind it, the container of its operands. -/
def bundled (c : Circuit P) (a b carry : NodeId) : Circuit P :=
  ((fullAdder c).1.addContainer [] [.single a, .single b, .single carry]).1

/-- A circuit with one bit more, whose sum is not wired yet. -/
def summed (c : Circuit P) (a b carry s : NodeId) : Circuit P :=
  (((bundled c a b carry).linkAll (operandEdges c.size a b carry)).addContainer [.single s] []).1

section Bit

variable {c : Circuit P} {a b carry s : Nat}

theorem size_fullAdder (c : Circuit P) : (fullAdder c).1.size = c.size + 6 := by
  rw [fullAdder_eq, addContainer, size_push, size_adderGates]

theorem size_bundled : (bundled c a b carry).size = c.size + 7 := by
  rw [bundled, addContainer, size_push, size_fullAdder]

theorem size_summed : (summed c a b carry s).size = c.size + 8 := by
  rw [summed, addContainer, size_push, (SamePorts.linkAll _ _).size_eq, size_bundled]

theorem cell?_bundled (n : NodeId) :
    (bundled c a b carry).cell? n = (c.addLeaves fullAdderCells).cell? n := by
  rw [bundled, cell?_addContainer, fullAdder_eq, cell?_addContainer, adderGates,
    (SamePorts.linkAll _ _).cell?_eq]

theorem cell?_summed (n : NodeId) :
    (summed c a b carry s).cell? n = (c.addLeaves fullAdderCells).cell? n := by
  rw [summed, cell?_addContainer, (SamePorts.linkAll _ _).cell?_eq, cell?_bundled]

theorem joinsLeaves_operandEdges (ha : (c.cell? a).isSome) (hb : (c.cell? b).isSome)
    (hcarry : (c.cell? carry).isSome) :
    ∀ e ∈ operandEdges c.size a b carry, (bundled c a b carry).JoinsLeaves e := by
  have hgate {i : Nat} (hi : i < 5) := isSome_cell?_fullAdderCells c hi
  have hold {n : Nat} (hn : (c.cell? n).isSome) := isSome_cell?_addLeaves hn fullAdderCells
  intro e he
  rw [JoinsLeaves, cell?_bundled, cell?_bundled]
  simp only [operandEdges, List.mem_cons, List.not_mem_nil, or_false] at he
  rcases he with rfl | rfl | rfl | rfl | rfl | rfl | rfl | rfl | rfl
  · exact ⟨hold ha, hgate (i := 0) (by decide)⟩
  · exact ⟨hold ha, hgate (by decide)⟩
  · exact ⟨hold ha, hgate (by decide)⟩
  · exact ⟨hold hb, hgate (i := 0) (by decide)⟩
  · exact ⟨hold hb, hgate (by decide)⟩
  · exact ⟨hold hb, hgate (by decide)⟩
  · exact ⟨hold hcarry, hgate (i := 0) (by decide)⟩
  · exact ⟨hold hcarry, hgate (by decide)⟩
  · exact ⟨hold hcarry, hgate (by decide)⟩

/-- The container of a full adder. -/
def adderNode (P : Type) (gates : NodeId) : Node P where
  kind := .container
  inputs := [.bus [gates, gates + 1, gates + 2], .bus [gates, gates + 1, gates + 3],
    .bus [gates, gates + 2, gates + 3]]
  outputs := [.single gates, .single (gates + 4)]

theorem node?_bundled : (bundled c a b carry).node? (c.size + 5) = some (adderNode P c.size) ∧
    (bundled c a b carry).node? (c.size + 6) =
      some { kind := .container, outputs := [.single a, .single b, .single carry] } := by
  constructor
  · have hne : c.size + 5 ≠ c.size + 6 := by omega
    rw [bundled, addContainer, node?_push, size_fullAdder, if_neg hne, fullAdder_eq, addContainer,
      node?_push, if_pos (size_adderGates c).symm]
    rfl
  · rw [bundled, addContainer, node?_push, if_pos (size_fullAdder c).symm]

theorem connect_operands (ha : (c.cell? a).isSome) (hb : (c.cell? b).isSome)
    (hcarry : (c.cell? carry).isSome) :
    ((bundled c a b carry).connect (c.size + 6) (c.size + 5) false).complete =
      .ok ((bundled c a b carry).linkAll (operandEdges c.size a b carry)) := by
  obtain ⟨adder, hadder, hinputs⟩ : ∃ node, (bundled c a b carry).node? (c.size + 5) = some node ∧
      node.inputs = (adderNode P c.size).inputs := ⟨_, node?_bundled.1, rfl⟩
  obtain ⟨operands, hoperands, houtputs⟩ : ∃ node, (bundled c a b carry).node? (c.size + 6) = some node ∧
      node.outputs = [.single a, .single b, .single carry] := ⟨_, node?_bundled.2, rfl⟩
  have hpairs : matchedPairs operands.outputs adder.inputs = operandEdges c.size a b carry := by
    rw [houtputs, hinputs]
    rfl
  rw [← hpairs]
  refine connect_leaves hoperands hadder ?_ ?_ (.inl ?_) ?_
  · rw [houtputs]
    exact List.cons_ne_nil _ _
  · rw [hinputs]
    exact List.cons_ne_nil _ _
  · rw [houtputs, hinputs]
    rfl
  · rw [hpairs]
    exact joinsLeaves_operandEdges ha hb hcarry

/-- The full adder still has its outputs when its operands are wired. -/
theorem exists_adder_summed (a b carry s : NodeId) : ∃ node, (summed c a b carry s).node? (c.size + 5) = some node ∧
    node.outputs = [.single c.size, .single (c.size + 4)] := by
  have hports := SamePorts.linkAll (bundled c a b carry) (operandEdges c.size a b carry)
  obtain ⟨adder, hadder, hface⟩ := hports.exists_node node?_bundled.1
  have hne : c.size + 5 ≠ c.size + 7 := by omega
  refine ⟨adder, ?_, (Node.face_eq_iff.1 hface).2.2⟩
  rw [summed, addContainer, node?_push, hports.size_eq, size_bundled, if_neg hne, hadder]

theorem connect_sum (a b carry : NodeId) (hs : (c.cell? s).isSome) :
    ((summed c a b carry s).connect (c.size + 5) (c.size + 7) true).complete =
      .ok ((summed c a b carry s).linkAll [(c.size, s)]) := by
  obtain ⟨adder, hsender, houtputs⟩ := exists_adder_summed (c := c) a b carry s
  have hreceiver : (summed c a b carry s).node? (c.size + 7) =
      some { kind := .container, inputs := [.single s] } := by
    rw [summed, addContainer, node?_push, (SamePorts.linkAll _ _).size_eq, size_bundled, if_pos rfl]
  have hpairs : matchedPairs adder.outputs [.single s] = [(c.size, s)] := by
    rw [houtputs]
    rfl
  have hjoins : ∀ e ∈ matchedPairs adder.outputs [.single s], (summed c a b carry s).JoinsLeaves e := by
    intro e he
    rw [hpairs, List.mem_singleton] at he
    rw [he, JoinsLeaves, cell?_summed, cell?_summed]
    exact ⟨isSome_cell?_fullAdderCells c (i := 0) (by decide), isSome_cell?_addLeaves hs _⟩
  rw [← hpairs]
  refine connect_leaves hsender hreceiver ?_ (List.cons_ne_nil _ _) (.inr rfl) hjoins
  rw [houtputs]
  exact List.cons_ne_nil _ _

/-- A circuit with one bit more. -/
def extended (c : Circuit P) (a b carry s : NodeId) : Circuit P :=
  (summed c a b carry s).linkAll [(c.size, s)]

theorem size_extended : (extended c a b carry s).size = c.size + 8 := by
  rw [extended, (SamePorts.linkAll _ _).size_eq, size_summed]

theorem cell?_extended (n : NodeId) :
    (extended c a b carry s).cell? n = (c.addLeaves fullAdderCells).cell? n := by
  rw [extended, (SamePorts.linkAll _ _).cell?_eq, cell?_summed]

/-- The second output of a full adder is its carry. -/
theorem outputLeaf_extended (a b carry s : NodeId) :
    outputLeaf (extended c a b carry s) (c.size + 5) 1 = .ok (c.size + 4) := by
  obtain ⟨adder, hadder, houtputs⟩ := exists_adder_summed (c := c) a b carry s
  obtain ⟨node, hnode, hface⟩ := (SamePorts.linkAll (summed c a b carry s) [(c.size, s)]).exists_node hadder
  have hslots : node.slots .output = [c.size, c.size + 4].map .single :=
    (Node.face_eq_iff.1 hface).2.2.trans houtputs
  have hleaves : ∀ m ∈ [c.size, c.size + 4], ((extended c a b carry s).cell? m).isSome := by
    simp only [List.forall_mem_cons, List.not_mem_nil, false_implies, implies_true, and_true, cell?_extended]
    exact ⟨isSome_cell?_fullAdderCells c (i := 0) (by decide), isSome_cell?_fullAdderCells c (by decide)⟩
  exact bind_eq_ok.2 ⟨_, slotLeaves_single hnode hslots hleaves, rfl⟩

/-- Adding a bit succeeds on leaves. -/
theorem addBit_eq_ok {r : Ripple P} (ha : (r.circuit.cell? a).isSome) (hb : (r.circuit.cell? b).isSome)
    (hs : (r.circuit.cell? s).isSome) (hcarry : (r.circuit.cell? r.carry).isSome) :
    r.addBit a b s = .ok ⟨extended r.circuit a b r.carry s, r.circuit.size + 4⟩ := by
  have hoperands := connect_operands ha hb hcarry
  have hsum := connect_sum a b r.carry hs
  have hsink := (SamePorts.linkAll (bundled r.circuit a b r.carry)
    (operandEdges r.circuit.size a b r.carry)).size_eq.trans size_bundled
  rw [← size_fullAdder] at hoperands
  rw [← hsink] at hsum
  obtain ⟨⟨first, adder⟩, hadder⟩ : ∃ x, fullAdder r.circuit = x := ⟨_, rfl⟩
  obtain ⟨rfl, rfl⟩ : (fullAdder r.circuit).1 = first ∧ r.circuit.size + 5 = adder := by
    rw [← snd_fullAdder, hadder]
    exact ⟨rfl, rfl⟩
  rw [Ripple.addBit, hadder]
  exact bind_eq_ok.2 ⟨_, hoperands, bind_eq_ok.2 ⟨_, hsum, bind_eq_ok.2 ⟨_, outputLeaf_extended a b r.carry s, rfl⟩⟩⟩

/-- A bit adds its edges and no others. -/
theorem backwardOf_extended (hs : s < c.size) (n : NodeId) :
    (extended c a b carry s).backwardOf n = c.backwardOf n ++ sourcesIn (bitEdges c.size a b carry s) n := by
  have hgates : (adderGates c).backwardOf n = c.backwardOf n ++ sourcesIn
      [(c.size + 1, c.size + 4), (c.size + 2, c.size + 4), (c.size + 3, c.size + 4)] n := by
    rw [adderGates, backwardOf_linkAll (by simp [size_addLeaves, fullAdderCells]), backwardOf_addLeaves]
  have hbundled : (bundled c a b carry).backwardOf n = (adderGates c).backwardOf n := by
    rw [bundled, fullAdder_eq, addContainer, addContainer, backwardOf_push _ rfl, backwardOf_push _ rfl]
  have hsummed : (summed c a b carry s).backwardOf n = (bundled c a b carry).backwardOf n ++
      sourcesIn (operandEdges c.size a b carry) n := by
    rw [summed, addContainer, backwardOf_push _ rfl,
      backwardOf_linkAll (by simp [operandEdges, size_bundled])]
  have hsum : ∀ e ∈ [(c.size, s)], e.2 < (summed c a b carry s).size := by
    intro e he
    rw [List.mem_singleton.1 he, size_summed]
    exact Nat.lt_add_right 8 hs
  rw [extended, backwardOf_linkAll hsum, hsummed, hbundled, hgates, bitEdges,
    sourcesIn_append, sourcesIn_append]
  simp only [List.append_assoc]

theorem portsExist_extended (hc : c.PortsExist) (ha : a < c.size) (hb : b < c.size) (hcarry : carry < c.size)
    (hs : s < c.size) : (extended c a b carry s).PortsExist := by
  have hgates : (adderGates c).PortsExist := hc.addLeaves.same (.linkAll ..)
  have hadder : (fullAdder c).1.PortsExist := by
    rw [fullAdder_eq]
    refine hgates.addContainer ?_
    simp [Port.nodes, size_adderGates]
  have hbundled : (bundled c a b carry).PortsExist := by
    refine hadder.addContainer ?_
    simp only [List.nil_append, List.forall_mem_cons, Port.nodes, List.mem_singleton, forall_eq, size_fullAdder]
    omega
  have hsummed : (summed c a b carry s).PortsExist := by
    refine PortsExist.addContainer (hbundled.same (.linkAll ..)) ?_
    rw [(SamePorts.linkAll _ _).size_eq, size_bundled]
    simp only [List.append_nil, List.mem_singleton, forall_eq, Port.nodes]
    omega
  exact hsummed.same (.linkAll ..)

variable {gates n : Nat}

theorem sourcesIn_bitEdges_old (hn : n < gates) (hs : n ≠ s) :
    sourcesIn (bitEdges gates a b carry s) n = [] := by
  have hself : gates ≠ n := by omega
  have hne (k : Nat) : gates + k ≠ n := by omega
  simp [sourcesIn, bitEdges, operandEdges, hne, hself, Ne.symm hs]

theorem sourcesIn_bitEdges_sum (hs : s < gates) : sourcesIn (bitEdges gates a b carry s) s = [gates] := by
  have hself : gates ≠ s := by omega
  have hne (k : Nat) : gates + k ≠ s := by omega
  simp [sourcesIn, bitEdges, operandEdges, hne, hself]

end Bit

/-! ## Roles of nodes -/

/-- What a node is for. The places of a bit are its five gates and, behind them, three containers. -/
inductive Role where
  | first (i : Nat)
  | second (i : Nat)
  | sum (i : Nat)
  | carryOut
  | carryIn
  | gate (i place : Nat)

namespace Role

variable {len width : Nat}

/-- Where the gates of a bit begin. -/
def gatesAt (len i : Nat) : Nat := 3 * len + 2 + 8 * i

/-- The carry into a bit. -/
def carryInto : Nat → Role
  | 0 => .carryIn
  | i + 1 => .gate i 4

/-- The node with a role. -/
def node (len : Nat) : Role → Nat
  | .first i => i
  | .second i => len + i
  | .sum i => 2 * len + i
  | .carryOut => 3 * len
  | .carryIn => 3 * len + 1
  | .gate i place => gatesAt len i + place

/-- The roles in an adder of which some bits have been built. -/
def Within (len width : Nat) : Role → Prop
  | .first i | .second i | .sum i => i < len
  | .carryOut | .carryIn => True
  | .gate i place => i < width ∧ place < 8

/-- The role of a node. -/
def ofNode (len n : Nat) : Role :=
  if n < len then .first n
  else if n < 2 * len then .second (n - len)
  else if n < 3 * len then .sum (n - 2 * len)
  else if n = 3 * len then .carryOut
  else if n = 3 * len + 1 then .carryIn
  else .gate ((n - gatesAt len 0) / 8) ((n - gatesAt len 0) % 8)

def cell? : Role → Option Cell
  | .gate _ place => fullAdderCells[place]?
  | _ => some (.gate .or)

/-- The nodes from which a finished adder has edges to the node with a role. -/
def sources (len : Nat) : Role → List Role
  | .sum i => [.gate i 0]
  | .carryOut => [carryInto len]
  | .gate i 0 => [.first i, .second i, carryInto i]
  | .gate i 1 => [.first i, .second i]
  | .gate i 2 => [.first i, carryInto i]
  | .gate i 3 => [.second i, carryInto i]
  | .gate i 4 => [.gate i 1, .gate i 2, .gate i 3]
  | _ => []

/-- Whether the node with a role has no edges yet. -/
def waits (width : Nat) : Role → Bool
  | .sum i => width ≤ i
  | .carryOut => true
  | _ => false

/-- The sources while an adder is built. -/
def sourcesSoFar (len width : Nat) (r : Role) : List Role :=
  if r.waits width then [] else r.sources len

theorem node_lt {r : Role} (h : r.Within len width) : r.node len < gatesAt len width := by
  cases r <;> simp only [Within, node, gatesAt] at * <;> omega

theorem ofNode_node {r : Role} (h : r.Within len width) : ofNode len (r.node len) = r := by
  cases r with
  | first i => exact if_pos h
  | second i =>
    have h : i < len := h
    rw [node, ofNode, if_neg (by omega), if_pos (by omega), Nat.add_sub_cancel_left]
  | sum i =>
    have h : i < len := h
    rw [node, ofNode, if_neg (by omega), if_neg (by omega), if_pos (by omega), Nat.add_sub_cancel_left]
  | carryOut =>
    rw [node, ofNode, if_neg (by omega), if_neg (by omega), if_neg (by omega), if_pos rfl]
  | carryIn =>
    rw [node, ofNode, if_neg (by omega), if_neg (by omega), if_neg (by omega), if_neg (by omega), if_pos rfl]
  | gate i place =>
    have h : place < 8 := h.2
    have hnode : node len (.gate i place) = 3 * len + 2 + 8 * i + place := rfl
    rw [hnode, ofNode, if_neg (by omega), if_neg (by omega), if_neg (by omega), if_neg (by omega),
      if_neg (by omega), gatesAt]
    congr 1 <;> omega

theorem exists_node_eq {n : Nat} (h : n < gatesAt len width) :
    ∃ r : Role, r.Within len width ∧ r.node len = n := by
  unfold gatesAt at h
  rcases Nat.lt_or_ge n len with hn | hn
  · exact ⟨.first n, hn, rfl⟩
  rcases Nat.lt_or_ge n (2 * len) with hn' | hn'
  · exact ⟨.second (n - len), by show n - len < len; omega, by show len + (n - len) = n; omega⟩
  rcases Nat.lt_or_ge n (3 * len) with hn'' | hn''
  · exact ⟨.sum (n - 2 * len), by show n - 2 * len < len; omega, by show 2 * len + (n - 2 * len) = n; omega⟩
  rcases Nat.lt_or_ge n (3 * len + 2) with hcarry | hgate
  · rcases Nat.eq_or_lt_of_le hn'' with rfl | hlt
    · exact ⟨.carryOut, trivial, rfl⟩
    · exact ⟨.carryIn, trivial, by show 3 * len + 1 = n; omega⟩
  · refine ⟨.gate ((n - (3 * len + 2)) / 8) ((n - (3 * len + 2)) % 8), ⟨by omega, ?_⟩, ?_⟩
    · exact Nat.mod_lt _ (by decide)
    show 3 * len + 2 + 8 * _ + _ = n
    omega

theorem node_injective {r r' : Role} (h : r.Within len width) (h' : r'.Within len width)
    (heq : r.node len = r'.node len) : r = r' := by
  rw [← ofNode_node h, heq, ofNode_node h']

theorem within_carryInto {i : Nat} (h : i ≤ width) : (carryInto i).Within len width := by
  cases i with
  | zero => exact trivial
  | succ i => exact ⟨h, by decide⟩

theorem within_succ {r : Role} (h : r.Within len (width + 1)) :
    r.Within len width ∨ ∃ place < 8, r = .gate width place := by
  cases r with
  | gate i place =>
    obtain ⟨hi, hplace⟩ := h
    rcases Nat.lt_succ_iff_lt_or_eq.1 hi with hi | rfl
    · exact .inl ⟨hi, hplace⟩
    · exact .inr ⟨place, hplace, rfl⟩
  | _ => exact .inl h

/-- With another bit, the sum of this bit is no longer waiting. -/
theorem sourcesSoFar_succ {r : Role} (h : r ≠ .sum width) :
    r.sourcesSoFar len (width + 1) = r.sourcesSoFar len width := by
  cases r with
  | sum i =>
    have hne : i ≠ width := fun heq => h (congrArg Role.sum heq)
    have hwaits : waits (width + 1) (.sum i) = waits width (.sum i) := by
      show decide (width + 1 ≤ i) = decide (width ≤ i)
      exact decide_eq_decide.2 (by omega)
    rw [sourcesSoFar, sourcesSoFar, hwaits]
  | _ => rfl

/-- The sources of a finished adder have roles in it. -/
theorem within_of_mem_sources {r : Role} (h : r.Within len len) :
    ∀ r' ∈ r.sources len, r'.Within len len := by
  cases r with
  | sum i =>
    intro r' hr'
    rw [List.mem_singleton.1 hr']
    exact ⟨h, by decide⟩
  | carryOut =>
    intro r' hr'
    rw [List.mem_singleton.1 hr']
    exact within_carryInto (Nat.le_refl len)
  | gate i place =>
    obtain ⟨hi, hplace⟩ := h
    have hfirst : (first i).Within len len := hi
    have hsecond : (second i).Within len len := hi
    have hcarry : (carryInto i).Within len len := within_carryInto (Nat.le_of_lt hi)
    have hgate {k : Nat} (hk : k < 8) : (gate i k).Within len len := ⟨hi, hk⟩
    interval_cases place <;> simp [sources, hfirst, hsecond, hcarry, hgate]
  | _ => nofun

end Role

/-! ## An adder with some of its bits -/

open Role

/-- A ripple-carry adder of which some bits have been built. -/
structure Laid (len width : Nat) (r : Ripple P) : Prop where
  size : r.circuit.size = gatesAt len width
  carry : r.carry = (carryInto width).node len
  ports : r.circuit.PortsExist
  cell : ∀ role : Role, role.Within len width → r.circuit.cell? (role.node len) = role.cell?
  backward : ∀ role : Role, role.Within len width →
    r.circuit.backwardOf (role.node len) = (role.sourcesSoFar len width).map (node len)

variable {len width : Nat}

theorem laid_start (P : Type) (len : Nat) :
    Laid len 0 (⟨leaves P (List.replicate (3 * len + 2) (.gate .or)), 3 * len + 1⟩ : Ripple P) where
  size := by
    rw [leaves, size_addLeaves, List.length_replicate]
    show 0 + (3 * len + 2) = 3 * len + 2 + 8 * 0
    omega
  carry := rfl
  ports := PortsExist.addLeaves (c := ⟨#[]⟩) fun {_} hnode => absurd hnode (Array.not_mem_empty _)
  cell role h := by
    have hlt : role.node len < 3 * len + 2 := node_lt h
    have hcell : role.cell? = some (.gate .or) := by
      cases role with
      | gate i place => exact absurd h.1 (Nat.not_lt_zero i)
      | _ => rfl
    rw [leaves, cell?_addLeaves, hcell]
    exact (if_neg (Nat.not_lt_zero _)).trans (List.getElem?_replicate_of_lt hlt)
  backward role h := by
    rw [leaves, backwardOf_addLeaves]
    cases role with
    | gate i place => exact absurd h.1 (Nat.not_lt_zero i)
    | _ => rfl

theorem node_gate (len i place : Nat) : node len (.gate i place) = gatesAt len i + place := rfl

/-- The edges of a bit give its gates the sources that their roles have. -/
theorem sourcesIn_bitEdges_gate {i place : Nat} (hi : i < len) (hplace : place < 8) :
    sourcesIn (bitEdges (gatesAt len i) (node len (.first i)) (node len (.second i))
      ((carryInto i).node len) (node len (.sum i))) (node len (.gate i place)) =
        ((Role.gate i place).sources len).map (node len) := by
  have hne : node len (.sum i) ≠ gatesAt len i + place := by
    show 2 * len + i ≠ 3 * len + 2 + 8 * i + place
    omega
  rw [node_gate]
  interval_cases place <;> simp [sourcesIn, bitEdges, operandEdges, sources, node] <;> exact hne

theorem Laid.node_lt_size {r : Ripple P} (h : Laid len width r) {role : Role}
    (hrole : role.Within len width) : role.node len < r.circuit.size := by
  rw [h.size]
  exact node_lt hrole

/-- The edges of a bit reach the sum of the bit and the nodes that were added with them. -/
theorem Laid.backwardOf_extended {r : Ripple P} (h : Laid len width r) (hwidth : width < len) {role : Role}
    (hrole : role.Within len (width + 1)) :
    (extended r.circuit (node len (.first width)) (node len (.second width)) r.carry
      (node len (.sum width))).backwardOf (role.node len) =
        (role.sourcesSoFar len (width + 1)).map (node len) := by
  have hsum : (Role.sum width).Within len width := hwidth
  have hlt := node_lt hsum
  rw [Generate.backwardOf_extended (h.node_lt_size hsum), h.size, h.carry]
  rcases within_succ hrole with hold | ⟨place, hplace, rfl⟩
  · -- of the nodes that were there before, only the sum of this bit gets an edge
    rw [h.backward role hold]
    by_cases hself : role = .sum width
    · have hbefore : role.sourcesSoFar len width = [] := by
        rw [hself]
        exact if_pos (decide_eq_true (Nat.le_refl width))
      have hafter : role.sourcesSoFar len (width + 1) = [.gate width 0] := by
        rw [hself]
        exact if_neg (by simp [waits])
      rw [hbefore, hafter, hself, sourcesIn_bitEdges_sum hlt]
      rfl
    · have hne : role.node len ≠ node len (.sum width) := fun heq => hself (node_injective hold hsum heq)
      rw [sourcesIn_bitEdges_old (node_lt hold) hne, List.append_nil, sourcesSoFar_succ hself]
  · have hnew : r.circuit.backwardOf (node len (.gate width place)) = [] := by
      have hnone : r.circuit.node? (node len (.gate width place)) = none :=
        Array.getElem?_eq_none (by rw [node_gate, ← h.size]; exact Nat.le_add_right ..)
      rw [backwardOf, hnone]
      rfl
    rw [hnew, sourcesIn_bitEdges_gate hwidth hplace]
    rfl

theorem Laid.addBit {r : Ripple P} (h : Laid len width r) (hwidth : width < len) :
    ∃ r', r.addBit (node len (.first width)) (node len (.second width)) (node len (.sum width)) = .ok r' ∧
      Laid len (width + 1) r' := by
  have hleaf (role : Role) (hrole : role.Within len width) (hcell : role.cell? = some (.gate .or)) :
      (r.circuit.cell? (role.node len)).isSome := by
    rw [h.cell role hrole, hcell]
    rfl
  have hfirst := hleaf (.first width) hwidth rfl
  have hsecond := hleaf (.second width) hwidth rfl
  have hsum := hleaf (.sum width) hwidth rfl
  have hcarry : (r.circuit.cell? r.carry).isSome := by
    rw [h.carry, h.cell _ (within_carryInto (Nat.le_refl width))]
    cases width <;> rfl
  refine ⟨_, addBit_eq_ok hfirst hsecond hsum hcarry, ?_, ?_, ?_, fun role hrole => ?_, fun role hrole => ?_⟩
  · rw [size_extended, h.size]
    rfl
  · rw [h.size]
    rfl
  · exact portsExist_extended h.ports (lt_size_of_cell? hfirst) (lt_size_of_cell? hsecond)
      (lt_size_of_cell? hcarry) (lt_size_of_cell? hsum)
  · rw [cell?_extended, cell?_addLeaves]
    rcases within_succ hrole with hold | ⟨place, hplace, rfl⟩
    · rw [if_pos (h.node_lt_size hold), h.cell role hold]
    · rw [node_gate, ← h.size, if_neg (by omega), Nat.add_sub_cancel_left]
      rfl
  · exact h.backwardOf_extended hwidth hrole

theorem exists_laid (P : Type) (len : Nat) : ∀ width ≤ len, ∃ r : Ripple P,
    (List.range width).foldlM (fun r i => r.addBit i (len + i) (2 * len + i))
      (⟨leaves P (List.replicate (3 * len + 2) (.gate .or)), 3 * len + 1⟩ : Ripple P) = .ok r ∧
      Laid len width r := by
  intro width
  induction width with
  | zero => exact fun _ => ⟨_, rfl, laid_start P len⟩
  | succ width ih =>
    intro hwidth
    obtain ⟨r, hr, hlaid⟩ := ih (Nat.le_of_succ_le hwidth)
    obtain ⟨r', hbit, hlaid'⟩ := hlaid.addBit hwidth
    refine ⟨r', ?_, hlaid'⟩
    rw [List.range_succ, List.foldlM_append, hr]
    exact bind_eq_ok.2 ⟨r, rfl, bind_eq_ok.2 ⟨r', hbit, rfl⟩⟩

/-! ## The whole adder -/

namespace Role

/-- The operands in the order of the inputs of an adder. -/
def operands (len : Nat) : List Role := (List.range len).map .first ++ (List.range len).map .second

/-- The results in the order of the outputs of an adder. -/
def results (len : Nat) : List Role := (List.range len).map .sum ++ [.carryOut]

theorem mem_operands {r : Role} : r ∈ operands len ↔ ∃ i < len, r = .first i ∨ r = .second i := by
  simp only [operands, List.mem_append, List.mem_map, List.mem_range]
  constructor
  · rintro (⟨i, hi, rfl⟩ | ⟨i, hi, rfl⟩)
    · exact ⟨i, hi, .inl rfl⟩
    · exact ⟨i, hi, .inr rfl⟩
  · rintro ⟨i, hi, rfl | rfl⟩
    · exact .inl ⟨i, hi, rfl⟩
    · exact .inr ⟨i, hi, rfl⟩

theorem mem_results {r : Role} : r ∈ results len ↔ (∃ i < len, r = .sum i) ∨ r = .carryOut := by
  simp only [results, List.mem_append, List.mem_map, List.mem_range, List.mem_singleton]
  exact or_congr_left ⟨fun ⟨i, hi, h⟩ => ⟨i, hi, h.symm⟩, fun ⟨i, hi, h⟩ => ⟨i, hi, h.symm⟩⟩

/-- Operands and results are gates of an adder, which has no edges into its operands. -/
theorem within_of_mem {r : Role} (h : r ∈ operands len ∨ r ∈ results len) :
    r.Within len len ∧ r.cell? = some (.gate .or) := by
  rcases h with h | h
  · obtain ⟨i, hi, rfl | rfl⟩ := mem_operands.1 h <;> exact ⟨hi, rfl⟩
  · rcases mem_results.1 h with ⟨i, hi, rfl⟩ | rfl
    · exact ⟨hi, rfl⟩
    · exact ⟨trivial, rfl⟩

theorem nodup_operands : (operands len).Nodup := by
  refine List.nodup_range.map (fun _ _ => Role.first.inj) |>.append
    (List.nodup_range.map fun _ _ => Role.second.inj) ?_
  intro r hr hr'
  obtain ⟨_, -, rfl⟩ := List.mem_map.1 hr
  obtain ⟨_, -, heq⟩ := List.mem_map.1 hr'
  cases heq

theorem nodup_results : (results len).Nodup := by
  refine List.nodup_range.map (fun _ _ => Role.sum.inj) |>.append (List.nodup_singleton _) ?_
  intro r hr hr'
  obtain ⟨_, -, rfl⟩ := List.mem_map.1 hr
  cases List.mem_singleton.1 hr'

theorem map_node_operands (len : Nat) :
    (operands len).map (node len) = List.range len ++ (List.range len).map (len + ·) := by
  rw [operands, List.map_append, List.map_map, List.map_map]
  exact congrArg (· ++ _) (List.map_id _)

theorem map_node_results (len : Nat) :
    (results len).map (node len) = (List.range len).map (2 * len + ·) ++ [3 * len] := by
  rw [results, List.map_append, List.map_map]
  rfl

theorem nodup_map_node {roles : List Role} (h : ∀ r ∈ roles, r.Within len len) (hnodup : roles.Nodup) :
    (roles.map (node len)).Nodup :=
  hnodup.map_on fun r hr r' hr' => node_injective (h r hr) (h r' hr')

end Role

/-- The circuit of a ripple-carry adder, node by node. -/
structure Adds (len : Nat) (c : Circuit P) : Prop where
  size : c.size = gatesAt len len
  cell : ∀ role : Role, role.Within len len → c.cell? (role.node len) = role.cell?
  backward : ∀ role : Role, role.Within len len →
    c.backwardOf (role.node len) = (role.sources len).map (node len)

/-- Operands and results are leaves. -/
theorem Adds.isSome_cell? {c : Circuit P} (h : Adds len c) {roles : List Role}
    (hroles : ∀ role ∈ roles, role ∈ operands len ∨ role ∈ results len) :
    ∀ n ∈ roles.map (node len), (c.cell? n).isSome := by
  intro n hn
  obtain ⟨role, hrole, rfl⟩ := List.mem_map.1 hn
  obtain ⟨hwithin, hcell⟩ := within_of_mem (hroles role hrole)
  rw [h.cell role hwithin, hcell]
  rfl

theorem Laid.finish {r : Ripple P} (h : Laid len len r) :
    Adds len (r.circuit.link r.carry (node len .carryOut)) where
  size := (SamePorts.linkAll r.circuit [(r.carry, node len .carryOut)]).size_eq.trans h.size
  cell role hrole := (cell?_link ..).trans (h.cell role hrole)
  backward role hrole := by
    have hout : (Role.carryOut).Within len len := trivial
    have hedge : ∀ e ∈ [(r.carry, node len .carryOut)], e.2 < r.circuit.size := by
      simpa using h.node_lt_size hout
    refine (backwardOf_linkAll hedge (role.node len)).trans ?_
    rw [h.backward role hrole, h.carry]
    by_cases hself : role = .carryOut
    · rw [hself]
      simp [sourcesIn, sourcesSoFar, waits, sources]
    · have hne : node len .carryOut ≠ role.node len := fun heq => hself (node_injective hrole hout heq.symm)
      have hwaits : role.waits len = false := by
        cases role with
        | sum i => exact decide_eq_false (Nat.not_le_of_lt hrole)
        | carryOut => exact absurd rfl hself
        | _ => rfl
      simp [sourcesIn, sourcesSoFar, hwaits, hne]

/-- A ripple-carry adder is generated at every width. -/
theorem rippleCarry_eq_ok (P : Type) (len : Nat) : ∃ (c : Circuit P) (net : Network P),
    rippleCarry P len = .ok net ∧ Adds len c ∧ c.PortsExist ∧
      Rooted c ((operands len).map (node len)) ((results len).map (node len)) net := by
  obtain ⟨r, hr, hlaid⟩ := exists_laid P len len (Nat.le_refl len)
  have hadds := hlaid.finish
  obtain ⟨net, hnet, hrooted⟩ := withRoot_eq_ok (hadds.isSome_cell? fun _ h => .inl h)
    (hadds.isSome_cell? fun _ h => .inr h)
    (nodup_map_node (fun r hr => (within_of_mem (.inl hr)).1) nodup_operands)
    (nodup_map_node (fun r hr => (within_of_mem (.inr hr)).1) nodup_results)
  refine ⟨_, net, ?_, hadds, hlaid.ports.same (.linkAll _ [(r.carry, node len .carryOut)]), hrooted⟩
  rw [map_node_operands, map_node_results] at hnet
  obtain ⟨rooted, hroot, hnet⟩ := bind_eq_ok.1 hnet
  have hbuilt : rooted.1.Built := built_addRoot (rippling_bits hr).finish hroot
  exact bind_eq_ok.2 ⟨r, hr, bind_eq_ok.2 ⟨rooted, hroot, bind_eq_ok.2
    ⟨(), check_eq_ok hbuilt.wellWired, hnet⟩⟩⟩

end Netlist.Generate
