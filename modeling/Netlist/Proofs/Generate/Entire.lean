/-
Nothing is lost from the simple networks and the adders. From every leaf edges lead to a leaf that the
root exposes. Backwards along them the survey comes from the root to each leaf, and the leaf at the
end is pinned, so no pass removes any. With a budget above the size of the circuit a compilation
lists each leaf once, whatever is eliminated.
-/
import Mathlib.Tactic
import Netlist.Proofs.Circuit.Recursion
import Netlist.Proofs.Generate.Addition
import Netlist.Proofs.Generate.Wired
import Netlist.Proofs.Network.Check

namespace Netlist

open Relation (ReflTransGen)

variable {P : Type}

/-- The first node is a source of the second one. -/
def Circuit.Sends (c : Circuit P) (a b : NodeId) : Prop := a ∈ c.backwardOf b

namespace Network

/-! ## Ways to exposed leaves -/

section Ways

variable {c : Circuit P} {root maxDepth : Nat} {found : Survey}

/-- A leaf is next to the leaves that it reads. -/
theorem adjacent_of_sends {a b : NodeId} (h : c.Sends a b) : c.Adjacent b a := by
  unfold Circuit.Sends Circuit.backwardOf at h
  cases hnode : c.node? b with
  | none => simp [hnode] at h
  | some node =>
    rw [hnode] at h
    exact ⟨node, hnode, List.mem_append_right _ h⟩

/-- The survey goes back along the way, and the pinned leaf is reached forwards. -/
theorem Roomy.reachesPinned (h : Roomy c root maxDepth found) (hc : c.WellWired) {n m : NodeId}
    (hexposed : c.Adjacent root m) (hleaf : (c.cell? m).isSome) (hp : c.isPinned m = true)
    (hway : ReflTransGen c.Sends n m) : (ofSurvey (withoutIds c) root found).ReachesPinned n := by
  have hsound := sound_ofSurvey (wellWired_withoutIds hc) h.surveyed root
  induction hway using ReflTransGen.head_induction_on with
  | refl =>
    have hlisted := h.mem_leaves.2 ⟨hleaf, .single hexposed⟩
    exact .pinned hlisted ((isPinned_withoutIds c m).trans hp)
  | @head a b hab _ ih =>
    have hb := ih.mem_leaves hsound
    obtain ⟨-, hreached⟩ := h.mem_leaves.1 hb
    have hforward := hc.mem_backwardOf.1 hab
    have ha := h.mem_leaves.2 ⟨(hc.joins a b hforward).1, hreached.tail (adjacent_of_sends hab)⟩
    refine .feeds ?_ ih
    rw [targets_ofSurvey_withoutIds { circuit := c, root } found, if_pos ha]
    exact List.mem_filter.2 ⟨hforward, decide_eq_true hb⟩

end Ways

/-! ## Compiling everything -/

/-- What a compilation gives that loses nothing: every leaf once, in the order of the survey. -/
structure Entire (net : Network P) (o : CompileOptions) (compiled : Network P) : Prop where
  sound : compiled.Sound
  numbered : compiled.Numbered
  realizes : compiled.Realizes net.circuit.schematic
  every : ∀ n, n ∈ compiled.leaves ↔ (net.circuit.cell? n).isSome
  order : (net.circuit.survey net.root o.maxDepth).map (·.leaves.toList) = .ok compiled.leaves
  diagnostics : compiled.diagnostics = []
  check : compiled.check = .ok ()

variable {net : Network P}

theorem Entire.length_eq {o : CompileOptions} {compiled : Network P} (h : net.Entire o compiled) {ns : List NodeId}
    (hnodup : ns.Nodup) (hns : ∀ n, n ∈ ns ↔ (net.circuit.cell? n).isSome) : compiled.leaves.length = ns.length :=
  ((List.perm_ext_iff_of_nodup h.sound.nodup hnodup).2 fun n => (h.every n).trans (hns n).symm).length_eq

/-- If from every leaf edges lead to a pinned leaf next to the root, then a compilation with enough budget
loses none, whatever it eliminates. -/
theorem compile_entire (hc : net.circuit.Built) (hports : net.circuit.PortsExist) (hroot : net.root < net.circuit.size)
    (hways : ∀ n, (net.circuit.cell? n).isSome → ∃ m, net.circuit.Adjacent net.root m ∧
      (net.circuit.cell? m).isSome ∧ net.circuit.isPinned m = true ∧ ReflTransGen net.circuit.Sends n m)
    {o : CompileOptions} (ho : net.circuit.size < o.maxDepth) :
    ∃ compiled, net.compile o = .ok compiled ∧ net.Entire o compiled := by
  have hwired := hc.wellWired
  obtain ⟨found, hroomy⟩ := exists_roomy hwired hports hroot ho
  have hsound := sound_ofSurvey (wellWired_withoutIds hwired) hroomy.surveyed net.root
  obtain ⟨keep, hcompiled⟩ := compiled_assignIds hwired hroomy.surveyed o
  have hlive : ∀ n, (net.circuit.cell? n).isSome →
      (ofSurvey (withoutIds net.circuit) net.root found).ReachesPinned n := by
    intro n hn
    obtain ⟨m, hexposed, hleaf, hp, hway⟩ := hways n hn
    exact hroomy.reachesPinned hwired hexposed hleaf hp hway
  -- a pass keeps the leaves from which a pinned leaf is reached, and these are all of them
  have hkeep : ∀ n ∈ found.leaves.toList, keep n = true := fun n hn =>
    hcompiled.prunes.keep_of_reachesPinned hsound (hlive n (hroomy.mem_leaves.1 hn).1)
  have hleaves := hcompiled.prunes.leaves.trans (List.filter_eq_self.2 hkeep)
  have hsound' := hcompiled.prunes.sound hsound
  refine ⟨_, compile_of_survey hroomy.survey, hsound', hcompiled.numbered,
    hcompiled.realizes hwired hroomy.surveyed hroomy.cuts, fun n => ?_, ?_, ?_, ?_⟩
  · rw [hleaves]
    exact ⟨fun hn => (hroomy.mem_leaves.1 hn).1, fun hn => (hlive n hn).mem_leaves hsound⟩
  · rw [hleaves, Circuit.survey_eq_visit, ← Circuit.visit_withoutIds, ← Circuit.survey_eq_visit, hroomy.survey]
    rfl
  · rw [hcompiled.diagnostics, hroomy.cuts]
  · exact check_eq_ok (hwired.of_withoutIds (withoutIds_compile (compile_of_survey hroomy.survey))) hsound'
      hcompiled.numbered

/-- Compiled with a budget above its size, a network reports nothing, lists each of its leaves once,
`count` in all, and passes its check, whatever is eliminated. -/
def ListsEvery (net : Network P) (count : Nat) : Prop :=
  ∀ o : CompileOptions, net.circuit.size < o.maxDepth → ∃ compiled, net.compile o = .ok compiled ∧
    compiled.diagnostics = [] ∧ compiled.leaves.Nodup ∧
    (∀ n, n ∈ compiled.leaves ↔ (net.circuit.cell? n).isSome) ∧ compiled.leaves.length = count ∧
    compiled.check = .ok ()

end Network

namespace Generate

open Circuit

/-! ## Roots -/

section Rooted

variable {c : Circuit P} {inputs outputs : List NodeId} {net : Network P}

/-- Every leaf leads to one that the root exposes. -/
def Leads (c : Circuit P) (inputs outputs : List NodeId) : Prop :=
  ∀ n, (c.cell? n).isSome → ∃ m, (m ∈ inputs ∨ m ∈ outputs) ∧ (c.cell? m).isSome ∧ ReflTransGen c.Sends n m

theorem Rooted.compile_entire (h : Rooted c inputs outputs net) (hnet : net.circuit.Built) (hports : c.PortsExist)
    (hleads : Leads net.circuit inputs outputs) {o : CompileOptions} (ho : net.circuit.size < o.maxDepth) :
    ∃ compiled, net.compile o = .ok compiled ∧ net.Entire o compiled := by
  have hroot : net.root = c.size := by rw [h.start]
  refine Network.compile_entire hnet (h.ports hports) ?_ (fun n hn => ?_) ho
  · rw [hroot, h.size]
    exact Nat.lt_succ_self _
  · obtain ⟨m, hm, hleaf, hway⟩ := hleads n hn
    exact ⟨m, hroot ▸ h.adjacent hm, hleaf, h.pinned m hm, hway⟩

theorem Rooted.listsEvery (h : Rooted c inputs outputs net) (hnet : net.circuit.Built) (hports : c.PortsExist)
    (hleads : Leads net.circuit inputs outputs) {ns : List NodeId} (hnodup : ns.Nodup)
    (hns : ∀ n, n ∈ ns ↔ (net.circuit.cell? n).isSome) : net.ListsEvery ns.length := by
  intro o ho
  obtain ⟨compiled, hcompile, hentire⟩ := h.compile_entire hnet hports hleads ho
  exact ⟨compiled, hcompile, hentire.diagnostics, hentire.sound.nodup, hentire.every,
    hentire.length_eq hnodup hns, hentire.check⟩

end Rooted

namespace WiredNetwork

variable {cells : List Cell} {edges : List (NodeId × NodeId)} {inputs outputs : List NodeId} {net : Network P}
  (h : WiredNetwork cells edges inputs outputs net)

include h

theorem sends {a b : NodeId} (hedge : (a, b) ∈ edges) : net.circuit.Sends a b := by
  rw [Sends, h.sources]
  exact List.mem_filterMap.2 ⟨(a, b), hedge, if_pos rfl⟩

theorem isSome_cell?_iff (n : Nat) : (net.circuit.cell? n).isSome ↔ n < cells.length := by simp [h.cell]

theorem compile_entire (hleads : Leads net.circuit inputs outputs) {o : CompileOptions}
    (ho : net.circuit.size < o.maxDepth) : ∃ compiled, net.compile o = .ok compiled ∧ net.Entire o compiled :=
  h.rooted.compile_entire h.built portsExist_wired hleads ho

theorem listsEvery (hleads : Leads net.circuit inputs outputs) : net.ListsEvery cells.length := by
  have hall := h.rooted.listsEvery h.built portsExist_wired hleads List.nodup_range fun n =>
    List.mem_range.trans (h.isSome_cell?_iff n).symm
  rwa [List.length_range] at hall

end WiredNetwork

/-! ## Chains, meshes and rings -/

theorem inSequence_range (n : Nat) : inSequence (List.range n) = (List.range (n - 1)).map fun i => (i, i + 1) := by
  refine List.ext_getElem ?_ fun i _ _ => ?_
  · simp [inSequence]
  · simp [inSequence, Nat.add_comm]

theorem mem_inSequence {n k : Nat} (h : k + 1 < n) : (k, k + 1) ∈ inSequence (List.range n) := by
  rw [inSequence_range]
  exact List.mem_map_of_mem (List.mem_range.2 (Nat.lt_sub_of_add_lt h))

section Simple

variable {cells : List Cell} {edges : List (NodeId × NodeId)} {inputs outputs : List NodeId} {net : Network P}
  {last : Nat}

/-- If the leaves are in sequence, then they lead to the last one. -/
theorem WiredNetwork.leads_last (h : WiredNetwork cells edges inputs outputs net) (hlast : cells.length = last + 1)
    (hexposed : last ∈ outputs) (hedges : ∀ e ∈ inSequence (List.range cells.length), e ∈ edges) :
    Leads net.circuit inputs outputs := by
  intro n hn
  have hn := (h.isSome_cell?_iff n).1 hn
  rw [hlast] at hedges hn
  have hleaf : last < cells.length := hlast ▸ Nat.lt_succ_self last
  refine ⟨last, .inr hexposed, (h.isSome_cell?_iff last).2 hleaf, ?_⟩
  refine reflTransGen_of_succ_of_le _ (fun i hi => ?_) (Nat.le_of_lt_succ hn)
  exact h.sends (hedges _ (mem_inSequence (Nat.succ_lt_succ hi.2)))

/-- The first gate of a mesh is exposed, and the others lead to the second one, down from gate to gate. -/
theorem leads_mesh {len : Nat} (hlen : 2 ≤ len)
    (h : WiredNetwork (List.replicate len (.gate .xor)) (meshEdges len) inputs [0, 1] net) :
    Leads net.circuit inputs [0, 1] := by
  have hleaf : ∀ n : Nat, (net.circuit.cell? n).isSome ↔ n < len := by simpa using h.isSome_cell?_iff
  intro n hn
  have hn := (hleaf n).1 hn
  cases n with
  | zero => exact ⟨0, .inr (List.mem_cons_self ..), (hleaf 0).2 hn, .refl⟩
  | succ n =>
    refine ⟨1, .inr (by simp), (hleaf 1).2 hlen, reflTransGen_of_succ_of_ge _ (fun i hi => ?_) (Nat.succ_pos n)⟩
    obtain ⟨j, rfl⟩ : ∃ j, i = j + 1 := Nat.exists_eq_add_of_le' hi.1
    have hj : j + 2 < len := Nat.lt_of_le_of_lt hi.2 hn
    exact h.sends (List.mem_flatMap.2 ⟨j, List.mem_range.2 (Nat.lt_sub_of_add_lt hj), List.mem_cons_self ..⟩)

theorem leads_chain {len : Nat} (hlen : 0 < len) {mode : Mode}
    (h : WiredNetwork (List.replicate len (.gate mode)) (inSequence (List.range len)) inputs [len - 1] net) :
    Leads net.circuit inputs [len - 1] := by
  refine h.leads_last ?_ (List.mem_singleton_self _) fun e he => ?_
  · rw [List.length_replicate, Nat.sub_add_cancel hlen]
  · rwa [List.length_replicate] at he

theorem leads_timerRing {len ticks : Nat}
    (h : WiredNetwork (.gate .or :: List.replicate len (.timer ticks 0)) (ringEdges len) inputs [len] net) :
    Leads net.circuit inputs [len] := by
  refine h.leads_last ?_ (List.mem_singleton_self _) fun e he => List.mem_append_left _ ?_
  · rw [List.length_cons, List.length_replicate]
  · rwa [List.length_cons, List.length_replicate] at he

end Simple

/-! ## Adders -/

namespace Role

/-- The first role is a source of the second one in a finished adder. -/
def Sends (len : Nat) (r r' : Role) : Prop := r'.Within len len ∧ r ∈ r'.sources len

variable {len : Nat}

/-- A carry leads to the sum of the next bit, and the last one to the carry out. -/
theorem carryInto_leads {i : Nat} (hi : i ≤ len) :
    ∃ r ∈ results len, ReflTransGen (Sends len) (carryInto i) r := by
  rcases Nat.lt_or_eq_of_le hi with hi | rfl
  · have hgate : Sends len (carryInto i) (.gate i 0) := ⟨⟨hi, by decide⟩, by simp [sources]⟩
    have hsum : Sends len (.gate i 0) (.sum i) := ⟨hi, List.mem_singleton_self _⟩
    exact ⟨.sum i, mem_results.2 (.inl ⟨i, hi, rfl⟩), .tail (.single hgate) hsum⟩
  · exact ⟨.carryOut, mem_results.2 (.inr rfl), .single ⟨trivial, List.mem_singleton_self _⟩⟩

theorem lt_five_of_cell? {i place : Nat} (h : (Role.gate i place).cell?.isSome) : place < 5 := by
  obtain ⟨cell, hcell⟩ := Option.isSome_iff_exists.1 h
  exact (List.getElem?_eq_some_iff.1 hcell).1

/-- Every gate of an adder leads to an operand or a result. -/
theorem leads {r : Role} (hr : r.Within len len) (hleaf : r.cell?.isSome) :
    ∃ r', (r' ∈ operands len ∨ r' ∈ results len) ∧ ReflTransGen (Sends len) r r' := by
  cases r with
  | first i => exact ⟨.first i, .inl (mem_operands.2 ⟨i, hr, .inl rfl⟩), .refl⟩
  | second i => exact ⟨.second i, .inl (mem_operands.2 ⟨i, hr, .inr rfl⟩), .refl⟩
  | sum i => exact ⟨.sum i, .inr (mem_results.2 (.inl ⟨i, hr, rfl⟩)), .refl⟩
  | carryOut => exact ⟨.carryOut, .inr (mem_results.2 (.inr rfl)), .refl⟩
  | carryIn =>
    obtain ⟨r', hr', hway⟩ := carryInto_leads (Nat.zero_le len)
    exact ⟨r', .inr hr', hway⟩
  | gate i place =>
    obtain ⟨hi, -⟩ := hr
    obtain ⟨r', hr', hway⟩ := carryInto_leads (Nat.succ_le_of_lt hi)
    have hplace : place < 5 := lt_five_of_cell? hleaf
    -- the products of two operands feed the carry
    have hproduct : ∀ place ∈ [1, 2, 3], Sends len (.gate i place) (.gate i 4) :=
      fun place hplace => ⟨⟨hi, by decide⟩, List.mem_map_of_mem hplace⟩
    interval_cases place
    · exact ⟨.sum i, .inr (mem_results.2 (.inl ⟨i, hi, rfl⟩)), .single ⟨hi, List.mem_singleton_self _⟩⟩
    · exact ⟨r', .inr hr', .head (hproduct 1 (by decide)) hway⟩
    · exact ⟨r', .inr hr', .head (hproduct 2 (by decide)) hway⟩
    · exact ⟨r', .inr hr', .head (hproduct 3 (by decide)) hway⟩
    · exact ⟨r', .inr hr', hway⟩

/-- The gates of the full adders. -/
def gates (len : Nat) : List Role := (List.range len ×ˢ List.range 5).map fun p => .gate p.1 p.2

/-- The leaves of an adder. -/
def leaves (len : Nat) : List Role := operands len ++ (results len ++ (.carryIn :: gates len))

theorem mem_gates {r : Role} : r ∈ gates len ↔ ∃ i < len, ∃ place < 5, r = .gate i place := by
  simp only [gates, List.mem_map, Prod.exists, List.mem_product, List.mem_range]
  constructor
  · rintro ⟨i, place, ⟨hi, hplace⟩, rfl⟩
    exact ⟨i, hi, place, hplace, rfl⟩
  · rintro ⟨i, hi, place, hplace, rfl⟩
    exact ⟨i, place, ⟨hi, hplace⟩, rfl⟩

theorem mem_leaves {r : Role} : r ∈ leaves len ↔ r.Within len len ∧ r.cell?.isSome := by
  simp only [leaves, List.mem_append, List.mem_cons, mem_gates]
  constructor
  · rintro (hr | hr | rfl | ⟨i, hi, place, hplace, rfl⟩)
    · obtain ⟨hwithin, hcell⟩ := within_of_mem (.inl hr)
      exact ⟨hwithin, Option.isSome_of_eq_some hcell⟩
    · obtain ⟨hwithin, hcell⟩ := within_of_mem (.inr hr)
      exact ⟨hwithin, Option.isSome_of_eq_some hcell⟩
    · exact ⟨trivial, rfl⟩
    · have hlt : place < fullAdderCells.length := hplace
      exact ⟨⟨hi, by omega⟩, Option.isSome_of_eq_some (List.getElem?_eq_getElem hlt)⟩
  · rintro ⟨hwithin, hleaf⟩
    cases r with
    | first i => exact .inl (mem_operands.2 ⟨i, hwithin, .inl rfl⟩)
    | second i => exact .inl (mem_operands.2 ⟨i, hwithin, .inr rfl⟩)
    | sum i => exact .inr (.inl (mem_results.2 (.inl ⟨i, hwithin, rfl⟩)))
    | carryOut => exact .inr (.inl (mem_results.2 (.inr rfl)))
    | carryIn => exact .inr (.inr (.inl rfl))
    | gate i place => exact .inr (.inr (.inr ⟨i, hwithin.1, place, lt_five_of_cell? hleaf, rfl⟩))

theorem nodup_leaves : (leaves len).Nodup := by
  have hgates : (gates len).Nodup := by
    refine (List.nodup_range.product List.nodup_range).map fun p q h => ?_
    obtain ⟨hi, hplace⟩ := Role.gate.inj h
    exact Prod.ext hi hplace
  have hcarry : (Role.carryIn :: gates len).Nodup := by
    refine List.nodup_cons.2 ⟨fun h => ?_, hgates⟩
    obtain ⟨i, -, place, -, heq⟩ := mem_gates.1 h
    cases heq
  refine nodup_operands.append (nodup_results.append hcarry fun r hr hr' => ?_) fun r hr hr' => ?_
  · rcases mem_results.1 hr with ⟨i, -, rfl⟩ | rfl <;> simp [mem_gates] at hr'
  · obtain ⟨i, -, rfl | rfl⟩ := mem_operands.1 hr <;> simp [mem_results, mem_gates] at hr'

theorem length_leaves : (leaves len).length = 8 * len + 2 := by
  simp only [leaves, operands, results, gates, List.length_append, List.length_cons, List.length_nil,
    List.length_map, List.length_product, List.length_range]
  omega

end Role

open Role

/-- The leaves of an adder behind its root. -/
theorem Adds.mem_leaves {len : Nat} {c : Circuit P} (h : Adds len c) (n : NodeId) :
    n ∈ (Role.leaves len).map (node len) ↔ (c.cell? n).isSome := by
  constructor
  · intro hn
    obtain ⟨r, hr, rfl⟩ := List.mem_map.1 hn
    obtain ⟨hwithin, hleaf⟩ := Role.mem_leaves.1 hr
    rwa [h.cell r hwithin]
  · intro hn
    obtain ⟨cell, hcell⟩ := Option.isSome_iff_exists.1 hn
    obtain ⟨r, hwithin, rfl, hr⟩ := h.exists_role hcell
    exact List.mem_map_of_mem (Role.mem_leaves.2 ⟨hwithin, Option.isSome_of_eq_some hr⟩)

theorem Adds.leads {len : Nat} {c : Circuit P} {net : Network P} (h : Adds len c)
    (hrooted : Rooted c ((operands len).map (node len)) ((results len).map (node len)) net) :
    Leads net.circuit ((operands len).map (node len)) ((results len).map (node len)) := by
  intro n hn
  rw [hrooted.cell] at hn
  obtain ⟨r, hr, rfl⟩ := List.mem_map.1 ((h.mem_leaves n).2 hn)
  obtain ⟨hwithin, hleaf⟩ := Role.mem_leaves.1 hr
  obtain ⟨r', hr', hway⟩ := Role.leads hwithin hleaf
  have hend : r'.node len ∈ (Role.leaves len).map (node len) :=
    List.mem_map_of_mem (Role.mem_leaves.2 ((within_of_mem hr').imp_right Option.isSome_of_eq_some))
  refine ⟨r'.node len, hr'.imp List.mem_map_of_mem List.mem_map_of_mem, ?_, hway.lift (node len) ?_⟩
  · rw [hrooted.cell]
    exact (h.mem_leaves _).1 hend
  · rintro a b ⟨hb, hab⟩
    show node len a ∈ net.circuit.backwardOf (node len b)
    rw [hrooted.backward, h.backward b hb]
    exact List.mem_map_of_mem hab

theorem rippleCarry_listsEvery (P : Type) (len : Nat) :
    ∃ net, rippleCarry P len = .ok net ∧ net.ListsEvery (8 * len + 2) := by
  obtain ⟨c, net, hnet, hadds, hports, hrooted⟩ := rippleCarry_eq_ok P len
  have hnodup : ((Role.leaves len).map (node len)).Nodup :=
    nodup_map_node (fun r hr => (Role.mem_leaves.1 hr).1) nodup_leaves
  have hall := hrooted.listsEvery (built_rippleCarry hnet) hports (hadds.leads hrooted) hnodup fun n => by
    rw [hadds.mem_leaves, hrooted.cell]
  rw [List.length_map, length_leaves] at hall
  exact ⟨net, hnet, hall⟩

/-! ## All of them -/

/-- No generated gate is dead or out of reach. Chains, meshes, timer rings and adders of every size compile
without diagnostics, each leaf is listed once whatever is eliminated, and the check passes. -/
theorem generated_listsEvery (P : Type) (len : Nat) :
    (0 < len → ∀ mode, ∃ net, chain P len mode = .ok net ∧ net.ListsEvery len) ∧
    (2 ≤ len → ∃ net, mesh P len = .ok net ∧ net.ListsEvery len) ∧
    (0 < len → ∀ ticks, ∃ net, timerRing P len ticks = .ok net ∧ net.ListsEvery (len + 1)) ∧
    ∃ net, rippleCarry P len = .ok net ∧ net.ListsEvery (8 * len + 2) := by
  refine ⟨fun hlen mode => ?chain, fun hlen => ?mesh, fun hlen ticks => ?ring, rippleCarry_listsEvery P len⟩
  case chain =>
    obtain ⟨net, hnet, hwired⟩ := chain_eq_ok P hlen mode
    have hall := hwired.listsEvery (leads_chain hlen hwired)
    rw [List.length_replicate] at hall
    exact ⟨net, hnet, hall⟩
  case mesh =>
    obtain ⟨net, hnet, hwired⟩ := mesh_eq_ok P hlen
    have hall := hwired.listsEvery (leads_mesh hlen hwired)
    rw [List.length_replicate] at hall
    exact ⟨net, hnet, hall⟩
  case ring =>
    obtain ⟨net, hnet, hwired⟩ := timerRing_eq_ok P hlen ticks
    have hall := hwired.listsEvery (leads_timerRing hwired)
    rw [List.length_cons, List.length_replicate] at hall
    exact ⟨net, hnet, hall⟩

theorem run_smallest :
    (do return (← (← chain Unit 1 .nand).compile ⟨5, true, true⟩).leaves : Except Failure _) = .ok [0] ∧
    (do return (← (← mesh Unit 2).compile ⟨5, true, true⟩).leaves : Except Failure _) = .ok [1, 0] ∧
    (do return (← (← timerRing Unit 1 7).compile ⟨5, true, true⟩).leaves : Except Failure _) = .ok [0, 1] ∧
    (do return (← (← rippleCarry Unit 0).compile ⟨5, true, true⟩).leaves : Except Failure _) = .ok [0, 1] := by
  have hrow : inSequence (List.range 1) = [] := rfl
  have hring : inSequence (List.range (1 + 1)) = [(0, 1)] := rfl
  refine ⟨?_, ?_, ?_, ?_⟩
  · rw [chain, chainCircuit, hrow]
    cbv
  · cbv
  · rw [timerRing, timerRingCircuit, hring]
    cbv
  · cbv

/-- The smallest networks of each kind. The chain and the mesh have no edges. -/
theorem generated_listsEvery_smallest : 0 < 1 ∧ 2 ≤ 2 ∧ ∃ row grid ring adder : Network Unit,
    chain Unit 1 .nand = .ok row ∧ row.ListsEvery 1 ∧ mesh Unit 2 = .ok grid ∧ grid.ListsEvery 2 ∧
    timerRing Unit 1 7 = .ok ring ∧ ring.ListsEvery 2 ∧ rippleCarry Unit 0 = .ok adder ∧ adder.ListsEvery 2 ∧
    (row.compile ⟨5, true, true⟩).map (·.leaves) = .ok [0] ∧
    (grid.compile ⟨5, true, true⟩).map (·.leaves) = .ok [1, 0] ∧
    (ring.compile ⟨5, true, true⟩).map (·.leaves) = .ok [0, 1] ∧
    (adder.compile ⟨5, true, true⟩).map (·.leaves) = .ok [0, 1] := by
  obtain ⟨hrow, hgrid, hring, hadder⟩ := run_smallest
  obtain ⟨hchains, -, hrings, -⟩ := generated_listsEvery Unit 1
  obtain ⟨row, hrowNet, hrowAll⟩ := hchains (by decide) .nand
  obtain ⟨grid, hgridNet, hgridAll⟩ := (generated_listsEvery Unit 2).2.1 (by decide)
  obtain ⟨ring, hringNet, hringAll⟩ := hrings (by decide) 7
  obtain ⟨adder, hadderNet, hadderAll⟩ := (generated_listsEvery Unit 0).2.2.2
  rw [hrowNet] at hrow
  rw [hgridNet] at hgrid
  rw [hringNet] at hring
  rw [hadderNet] at hadder
  exact ⟨by decide, by decide, row, grid, ring, adder, hrowNet, hrowAll, hgridNet, hgridAll, hringNet, hringAll,
    hadderNet, hadderAll, hrow, hgrid, hring, hadder⟩

end Generate

end Netlist
