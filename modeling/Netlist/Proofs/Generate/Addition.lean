/-
The ripple-carry adder adds. The carry into a bit is known two frames per bit after the operands are,
whatever carries of earlier operands were on their way: the sum of a bit is the exclusive or of its
operands and its carry, one frame behind them, and the carry out of it takes two frames.
-/
import Mathlib.Data.Nat.Digits.Defs
import Netlist.Proofs.Generate.Adder
import Netlist.Proofs.Network.Settling

namespace Netlist

variable {P : Type}

namespace Generate

/-! ## Addition by bits -/

/-- The carry into a bit of a sum. -/
def carryBit (x y : Nat) : Nat → Bool
  | 0 => false
  | i + 1 => Bool.atLeastTwo (x.testBit i) (y.testBit i) (carryBit x y i)

/-- A bit of a sum. -/
def sumBit (x y i : Nat) : Bool := (x.testBit i ^^ y.testBit i) ^^ carryBit x y i

/-- The lowest bits of a number, lowest first. -/
def bitsOf (len x : Nat) : List Bool := (List.range len).map x.testBit

/-- The number with the given bits, lowest first. -/
def ofBits (bits : List Bool) : Nat := Nat.ofDigits 2 (bits.map Bool.toNat)

theorem ofBits_append (bits bits' : List Bool) :
    ofBits (bits ++ bits') = ofBits bits + 2 ^ bits.length * ofBits bits' := by
  rw [ofBits, List.map_append, Nat.ofDigits_append, List.length_map]
  rfl

theorem ofBits_singleton (b : Bool) : ofBits [b] = b.toNat := by simp [ofBits]

theorem toNat_fullAdder (a b c : Bool) :
    ((a ^^ b) ^^ c).toNat + 2 * (Bool.atLeastTwo a b c).toNat = a.toNat + b.toNat + c.toNat := by
  cases a <;> cases b <;> cases c <;> rfl

theorem mod_two_pow_succ (x i : Nat) : x % 2 ^ (i + 1) = x % 2 ^ i + 2 ^ i * (x.testBit i).toNat := by
  rw [Nat.mod_pow_succ, Nat.toNat_testBit]

/-- The sum of the lowest bits and the carry out of them. -/
theorem ofBits_sumBit (x y : Nat) : ∀ i, ofBits ((List.range i).map (sumBit x y)) +
    2 ^ i * (carryBit x y i).toNat = x % 2 ^ i + y % 2 ^ i
  | 0 => by simp [ofBits, carryBit, Nat.mod_one]
  | i + 1 => by
    have ih := ofBits_sumBit x y i
    have hbit : (sumBit x y i).toNat + 2 * (carryBit x y (i + 1)).toNat =
        (x.testBit i).toNat + (y.testBit i).toNat + (carryBit x y i).toNat := toNat_fullAdder ..
    rw [List.range_succ, List.map_append, ofBits_append, List.length_map, List.length_range,
      mod_two_pow_succ, mod_two_pow_succ]
    show _ + 2 ^ i * ofBits [sumBit x y i] + _ = _
    rw [ofBits_singleton]
    calc ofBits ((List.range i).map (sumBit x y)) + 2 ^ i * (sumBit x y i).toNat +
          2 ^ (i + 1) * (carryBit x y (i + 1)).toNat
        = ofBits ((List.range i).map (sumBit x y)) +
            2 ^ i * ((sumBit x y i).toNat + 2 * (carryBit x y (i + 1)).toNat) := by ring
      _ = ofBits ((List.range i).map (sumBit x y)) + 2 ^ i * (carryBit x y i).toNat +
            2 ^ i * ((x.testBit i).toNat + (y.testBit i).toNat) := by
          rw [hbit]
          ring
      _ = _ := by rw [ih]; ring

/-! ## Steady states of an adder -/

namespace Role

variable {len x y : Nat}

/-- What the operands are driven to. -/
def forced (x y : Nat) : Role → Option Bool
  | .first i => some (x.testBit i)
  | .second i => some (y.testBit i)
  | _ => none

/-- The states of the nodes for two operands. -/
def state (len x y : Nat) : Role → Bool
  | .first i => x.testBit i
  | .second i => y.testBit i
  | .sum i => sumBit x y i
  | .carryOut => carryBit x y len
  | .carryIn => false
  | .gate i 0 => sumBit x y i
  | .gate i 1 => x.testBit i && y.testBit i
  | .gate i 2 => x.testBit i && carryBit x y i
  | .gate i 3 => y.testBit i && carryBit x y i
  | .gate i _ => carryBit x y (i + 1)

/-- The frames that the nodes need. -/
def level (len : Nat) : Role → Nat
  | .first _ | .second _ | .carryIn => 1
  | .sum i => 2 * i + 3
  | .carryOut => 2 * len + 2
  | .gate i 4 => 2 * i + 3
  | .gate i _ => 2 * i + 2

theorem state_carryInto (i : Nat) : (carryInto i).state len x y = carryBit x y i := by
  cases i <;> rfl

theorem level_carryInto (i : Nat) : (carryInto i).level len = 2 * i + 1 := by
  cases i <;> rfl

theorem one_le_level (r : Role) : 1 ≤ r.level len := by
  unfold level
  split <;> omega

theorem state_of_forced {r : Role} {v : Bool} (h : r.forced x y = some v) : r.state len x y = v := by
  cases r <;> cases h <;> rfl

theorem delay_of_cell? {r : Role} {cell : Cell} (h : r.cell? = some cell) : cell.delay = 0 := by
  cases r with
  | gate i place =>
    have hall : ∀ cell ∈ fullAdderCells, cell.delay = 0 := by decide
    exact hall cell (List.mem_of_getElem? h)
  | _ => cases h; rfl

/-- A node needs a frame more than each of its sources. -/
theorem level_of_mem_sources (r : Role) : ∀ r' ∈ r.sources len, 1 + r'.level len ≤ r.level len := by
  unfold sources
  split <;> simp only [List.forall_mem_cons, List.not_mem_nil, false_imp_iff, implies_true,
    level_carryInto] <;> simp [level] <;> omega

/-- The states of the nodes that are not driven follow from their sources. -/
theorem state_eq_steadyState {r : Role} {cell : Cell} (hfree : r.forced x y = none)
    (h : r.cell? = some cell) : r.state len x y = cell.steadyState ((r.sources len).map (state len x y)) := by
  cases r with
  | first i => cases hfree
  | second i => cases hfree
  | sum i =>
    cases h
    show sumBit x y i = Mode.evaluate .or [sumBit x y i]
    cases sumBit x y i <;> rfl
  | carryOut =>
    cases h
    show carryBit x y len = Mode.evaluate .or [(carryInto len).state len x y]
    rw [state_carryInto]
    cases carryBit x y len <;> rfl
  | carryIn => cases h; rfl
  | gate i place =>
    -- behind the gates there are containers, which are no cells
    have hplace : place < 5 := (List.getElem?_eq_some_iff.1 h).1
    interval_cases place <;> cases h <;>
      simp only [sources, List.map_cons, List.map_nil, state_carryInto] <;>
      simp only [state, sumBit, carryBit] <;>
      cases x.testBit i <;> cases y.testBit i <;> cases carryBit x y i <;> rfl

/-- The operands are driven, and nothing else. -/
theorem forced_eq_none {r : Role} (h : r.Within len len) (hr : r ∉ operands len) : r.forced x y = none := by
  cases r with
  | first i => exact absurd (mem_operands.2 ⟨i, h, .inl rfl⟩) hr
  | second i => exact absurd (mem_operands.2 ⟨i, h, .inr rfl⟩) hr
  | _ => rfl

theorem map_forced_operands (len x y : Nat) :
    (operands len).map (forced x y) = (bitsOf len x ++ bitsOf len y).map some := by
  simp only [operands, bitsOf, List.map_append, List.map_map]
  rfl

theorem level_le_of_mem_results {r : Role} (h : r ∈ results len) : r.level len ≤ 2 * len + 2 := by
  rcases mem_results.1 h with ⟨i, hi, rfl⟩ | rfl
  · show 2 * i + 3 ≤ 2 * len + 2
    omega
  · exact Nat.le_refl _

/-- The results are the sum, bit by bit. -/
theorem ofBits_results (hx : x < 2 ^ len) (hy : y < 2 ^ len) :
    ofBits ((results len).map (state len x y)) = x + y := by
  have hbits : (results len).map (state len x y) =
      (List.range len).map (sumBit x y) ++ [carryBit x y len] := by
    rw [results, List.map_append, List.map_map]
    rfl
  rw [hbits, ofBits_append, ofBits_singleton, List.length_map, List.length_range, ofBits_sumBit,
    Nat.mod_eq_of_lt hx, Nat.mod_eq_of_lt hy]

end Role

open Role

variable {len : Nat} {c : Circuit P}

theorem Adds.exists_role (h : Adds len c) {n : Nat} {cell : Cell} (hn : c.cell? n = some cell) :
    ∃ r : Role, r.Within len len ∧ r.node len = n ∧ r.cell? = some cell := by
  have hlt := Circuit.lt_size_of_cell? (Option.isSome_of_eq_some hn)
  rw [h.size] at hlt
  obtain ⟨r, hr, rfl⟩ := exists_node_eq hlt
  exact ⟨r, hr, rfl, (h.cell r hr).symm.trans hn⟩

/-- The states of the roles are steady states of an adder. -/
theorem Adds.steady (h : Adds len c) (keep : Nat → Prop) (x y : Nat) :
    c.schematic.Steady keep (fun n => (ofNode len n).forced x y) (fun n => (ofNode len n).level len)
      (fun n => (ofNode len n).state len x y) where
  positive n _ := one_le_level _
  driven n v _ hv := state_of_forced hv
  delay n cell _ _ hcell := by
    obtain ⟨r, -, -, hr⟩ := h.exists_role hcell
    rw [delay_of_cell? hr]
    exact one_le_level _
  source n cell _ _ hcell m hm := by
    obtain ⟨r, hwithin, rfl, hr⟩ := h.exists_role hcell
    change m ∈ c.backwardOf (r.node len) at hm
    rw [h.backward r hwithin] at hm
    obtain ⟨r', hr', rfl⟩ := List.mem_map.1 hm
    rw [delay_of_cell? hr, ofNode_node hwithin, ofNode_node (within_of_mem_sources hwithin r' hr')]
    exact level_of_mem_sources r r' hr'
  free n cell _ hfree hcell := by
    obtain ⟨r, hwithin, rfl, hr⟩ := h.exists_role hcell
    rw [ofNode_node hwithin] at hfree
    have hsources : (c.schematic.sources (r.node len)).map (fun n => (ofNode len n).state len x y) =
        (r.sources len).map (state len x y) := by
      show (c.backwardOf (r.node len)).map _ = _
      rw [h.backward r hwithin, List.map_map]
      refine List.map_congr_left fun r' hr' => ?_
      exact congrArg (state len x y) (ofNode_node (within_of_mem_sources hwithin r' hr'))
    rw [hsources, ofNode_node hwithin]
    exact state_eq_steadyState hfree hr

/-! ## Simulated addition -/

/-- If the operands are the parts that are driven, then the leaves are driven as their roles say. -/
theorem Adds.driven_eq (h : Adds len c) {net : Network P} {s : Simulator} {x y : Nat}
    (hcell : ∀ n ∈ net.leaves, (c.cell? n).isSome) (hlisted : ∀ r ∈ operands len, r.node len ∈ net.leaves)
    (hs : s.DrivenTo ((operands len).map fun r => net.leaves.idxOf (r.node len))
      (bitsOf len x ++ bitsOf len y)) :
    ∀ n ∈ net.leaves, s.driven.getD (net.leaves.idxOf n) none = (ofNode len n).forced x y := by
  intro n hn
  obtain ⟨cell, hfound⟩ := Option.isSome_iff_exists.1 (hcell n hn)
  obtain ⟨r, hwithin, rfl, -⟩ := h.exists_role hfound
  obtain ⟨hdriven, hreleased⟩ := hs
  rw [ofNode_node hwithin]
  by_cases hr : r ∈ operands len
  · rw [← map_forced_operands, List.map_map] at hdriven
    exact List.map_inj_left.1 hdriven r hr
  · -- another leaf is at another position than the operands
    rw [forced_eq_none hwithin hr]
    refine hreleased _ fun hid => ?_
    obtain ⟨r', hr', heq⟩ := List.mem_map.1 hid
    have hnode := (List.idxOf_inj (hlisted r' hr')).1 heq
    have hsame := node_injective (within_of_mem (.inl hr')).1 hwithin hnode
    exact hr (hsame ▸ hr')

/-- The ripple-carry adder adds. While its inputs are driven to the bits of two numbers and nothing
else is, its outputs are the bits of their sum from two frames per bit and two more on, whatever
happened before. -/
theorem rippleCarry_adds (P : Type) (len : Nat) : ∃ net, rippleCarry P len = .ok net ∧
    ∀ o : CompileOptions, net.circuit.size < o.maxDepth →
      ∃ (compiled : Network P) (inputs outputs : List Nat), net.compile o = .ok compiled ∧
        compiled.slotIds .input = .ok (inputs.map ([·])) ∧
        compiled.slotIds .output = .ok (outputs.map ([·])) ∧ inputs.length = 2 * len ∧
        ∀ so : SimulatorOptions, ∃ s, Simulator.ofNetwork compiled so = .ok s ∧
          ∀ before x y, x < 2 ^ len → y < 2 ^ len →
            (s.performAll before).DrivenTo inputs (bitsOf len x ++ bitsOf len y) →
            ∀ n, 2 * len + 2 ≤ n → ∃ sum : List Bool,
              outputs.map ((s.performAll before).run n).isActive? = sum.map some ∧ sum.length = len + 1 ∧
                ofBits sum = x + y := by
  obtain ⟨c, net, hnet, hadds, hports, hrooted⟩ := rippleCarry_eq_ok P len
  refine ⟨net, hnet, fun o ho => ?_⟩
  obtain ⟨compiled, hcompile, hrouted⟩ := hrooted.compile (built_rippleCarry hnet) hports
    (hadds.isSome_cell? fun _ hr => .inl hr) (hadds.isSome_cell? fun _ hr => .inr hr) ho
  have hrealizes := hrouted.realizes
  rw [hrooted.schematic_eq] at hrealizes
  have hlisted : ∀ r, r ∈ operands len ∨ r ∈ results len → r.node len ∈ compiled.leaves := fun r hr =>
    hrouted.listed _ (hr.imp List.mem_map_of_mem List.mem_map_of_mem)
  have hcell : ∀ n ∈ compiled.leaves, compiled.circuit.cell? n = c.cell? n := fun n hn => (hrealizes n hn).1
  have hdelays : compiled.DelaysFit := Network.delaysFit_iff.2 fun n hn cell hfound => by
    obtain ⟨r, -, -, hr⟩ := hadds.exists_role ((hcell n hn).symm.trans hfound)
    rw [delay_of_cell? hr]
    exact Nat.zero_le _
  refine ⟨compiled, (operands len).map fun r => compiled.leaves.idxOf (r.node len),
    (results len).map fun r => compiled.leaves.idxOf (r.node len), hcompile, ?_, ?_, ?_, fun so => ?_⟩
  · rw [hrouted.inputs, List.map_map, List.map_map]
    rfl
  · rw [hrouted.outputs, List.map_map, List.map_map]
    rfl
  · simp [operands, Nat.two_mul]
  obtain ⟨s, hs, hsettles⟩ := Network.isActive?_run_of_steady hrouted.sound hrouted.numbered hdelays so
  refine ⟨s, hs, fun before x y hx hy hdriven n hn => ?_⟩
  refine ⟨(results len).map (state len x y), ?_, by simp [results], ofBits_results hx hy⟩
  rw [List.map_map, List.map_map]
  refine List.map_congr_left fun r hr => ?_
  -- the driven positions hold the operands, so the states of the roles are those of a sum
  have hforced := hadds.driven_eq (fun m hm => hcell m hm ▸ hrouted.sound.leaf m hm)
    (fun r hr => hlisted r (.inl hr)) hdriven
  have hlevel := (level_le_of_mem_results hr).trans hn
  have hnode := ofNode_node (within_of_mem (.inr hr)).1
  have hactive := hsettles before _ _ _ _ hrealizes (hadds.steady (· ∈ compiled.leaves) x y) hforced _
    (hlisted r (.inr hr)) n (by rw [hnode]; exact hlevel)
  rw [hnode] at hactive
  exact hactive

/-- Two frames of three and three with the carry held, then one and two. -/
def oneAndTwo : List Operation :=
  [.drive 0 (some true), .drive 8 (some true), .drive 3 (some true), .drive 14 (some true),
    .drive 11 (some true), .step, .step, .drive 11 none, .drive 8 (some false), .drive 3 (some false)]

theorem run_oneAndTwo : (do
    let net ← rippleCarry Unit 2
    let compiled ← net.compile {}
    let inputs ← compiled.slotIds .input
    let outputs ← compiled.slotIds .output
    let s ← Simulator.ofNetwork compiled {}
    return (net.circuit.size, inputs, outputs, (s.performAll oneAndTwo).driven)) =
      (.ok (25, [[0], [8], [3], [14]], [[2], [7], [11]],
        #[some true, none, none, some false, none, none, none, none, some false, none, none, none, none, none,
          some true, none, none, none]) : Except Failure _) := by
  cbv

/-- The carries of three and three are on their way when one and two are driven. -/
theorem rippleCarry_adds_oneAndTwo : ∃ net compiled s, rippleCarry Unit 2 = .ok net ∧ net.circuit.size < 900 ∧
    net.compile {} = .ok compiled ∧ compiled.slotIds .input = .ok [[0], [8], [3], [14]] ∧
    compiled.slotIds .output = .ok [[2], [7], [11]] ∧ Simulator.ofNetwork compiled {} = .ok s ∧
    1 < 2 ^ 2 ∧ 2 < 2 ^ 2 ∧ (s.performAll oneAndTwo).DrivenTo [0, 8, 3, 14] (bitsOf 2 1 ++ bitsOf 2 2) ∧
    ∀ n, 6 ≤ n → ∃ sum : List Bool, [2, 7, 11].map ((s.performAll oneAndTwo).run n).isActive? = sum.map some ∧
      sum.length = 3 ∧ ofBits sum = 3 := by
  obtain ⟨net, hnet, hrun⟩ := bind_eq_ok.1 run_oneAndTwo
  obtain ⟨compiled, hcompile, hrun⟩ := bind_eq_ok.1 hrun
  obtain ⟨inputSlots, hinputSlots, hrun⟩ := bind_eq_ok.1 hrun
  obtain ⟨outputSlots, houtputSlots, hrun⟩ := bind_eq_ok.1 hrun
  obtain ⟨s, hs, hrun⟩ := bind_eq_ok.1 hrun
  obtain ⟨hsize, rfl, rfl, hdriven⟩ : net.circuit.size = 25 ∧ inputSlots = [[0], [8], [3], [14]] ∧
      outputSlots = [[2], [7], [11]] ∧ (s.performAll oneAndTwo).driven =
        #[some true, none, none, some false, none, none, none, none, some false, none, none, none, none, none,
          some true, none, none, none] := by
    simpa only [pure, Except.pure, Except.ok.injEq, Prod.mk.injEq] using hrun
  have hoperands : (s.performAll oneAndTwo).DrivenTo [0, 8, 3, 14] (bitsOf 2 1 ++ bitsOf 2 2) := by
    rw [Simulator.drivenTo_iff, hdriven]
    decide
  obtain ⟨net', hnet', hadds⟩ := rippleCarry_adds Unit 2
  obtain rfl := Except.ok.inj (hnet.symm.trans hnet')
  obtain ⟨compiled', inputs, outputs, hcompile', hinputs, houtputs, -, hsimulates⟩ :=
    hadds {} (hsize ▸ by decide)
  obtain rfl := Except.ok.inj (hcompile.symm.trans hcompile')
  obtain ⟨s', hs', hsum⟩ := hsimulates {}
  obtain rfl := Except.ok.inj (hs.symm.trans hs')
  have hinjective := List.map_injective_iff.2 (List.singleton_injective (α := Nat))
  obtain rfl : inputs = [0, 8, 3, 14] := hinjective (Except.ok.inj (hinputs.symm.trans hinputSlots))
  obtain rfl : outputs = [2, 7, 11] := hinjective (Except.ok.inj (houtputs.symm.trans houtputSlots))
  exact ⟨net, compiled, s, hnet, hsize ▸ by decide, hcompile, hinputs, houtputs, hs, by decide, by decide,
    hoperands, hsum oneAndTwo 1 2 (by decide) (by decide) hoperands⟩

end Generate

end Netlist
