/-
What the nodes of a circuit are after a change: the cells, the edges on both sides and the pins.
Ports, pins, payloads and ids may change without a change of the wiring.
-/
import Netlist.Circuit.Basic
import Netlist.Network.Compile
import Netlist.Proofs.Sequence

namespace Netlist

variable {P : Type}

/-- The cell of a leaf. -/
def Node.cell? (node : Node P) : Option Cell :=
  match node.kind with
  | .container => none
  | .leaf cell => some cell

theorem Node.isLeaf_eq (node : Node P) : node.isLeaf = node.cell?.isSome := by
  unfold isLeaf cell?
  cases node.kind <;> rfl

namespace Circuit

/-- The cell of the leaf with the given name. -/
def cell? (c : Circuit P) (n : NodeId) : Option Cell := (c.node? n).bind (·.cell?)

/-! ## Looking up -/

theorem node?_of_lt {c : Circuit P} {n : NodeId} (h : n < c.size) :
    ∃ node, c.node? n = some node :=
  ⟨_, Array.getElem?_eq_getElem h⟩

theorem lt_size_of_node? {c : Circuit P} {n : NodeId} {node : Node P} (h : c.node? n = some node) :
    n < c.size :=
  mem_ids.1 (mem_ids_of_node? h)

theorem fetch_eq_ok {c : Circuit P} {n : NodeId} {node : Node P} :
    c.fetch n = .ok node ↔ c.node? n = some node := by
  unfold fetch
  cases c.node? n <;> simp

theorem lt_size_of_cell? {c : Circuit P} {n : NodeId} (h : (c.cell? n).isSome) : n < c.size := by
  unfold cell? at h
  cases hn : c.node? n with
  | none => simp [hn] at h
  | some node => exact lt_size_of_node? hn

theorem isLeaf_eq {c : Circuit P} {n : NodeId} {node : Node P} (h : c.node? n = some node) :
    node.isLeaf = (c.cell? n).isSome := by
  rw [Node.isLeaf_eq, cell?, h, Option.bind_some]

theorem node?_modify (c : Circuit P) (n m : NodeId) (f : Node P → Node P) :
    (c.modify n f).node? m = if n = m then (c.node? m).map f else c.node? m := by
  simp [modify, node?, Array.getElem?_modify]

theorem node?_push (c : Circuit P) (node : Node P) (m : NodeId) :
    (c.push node).1.node? m = if m = c.size then some node else c.node? m :=
  Array.getElem?_push

theorem forwardOf_push (c : Circuit P) {node : Node P} (h : node.forward = #[]) (m : NodeId) :
    (c.push node).1.forwardOf m = c.forwardOf m := by
  have hnew : c.node? c.size = none := Array.getElem?_eq_none (Nat.le_refl _)
  unfold forwardOf
  rw [node?_push]
  by_cases hm : m = c.size
  · simp [hm, hnew, h]
  · rw [if_neg hm]

theorem backwardOf_push (c : Circuit P) {node : Node P} (h : node.backward = #[]) (m : NodeId) :
    (c.push node).1.backwardOf m = c.backwardOf m := by
  have hnew : c.node? c.size = none := Array.getElem?_eq_none (Nat.le_refl _)
  unfold backwardOf
  rw [node?_push]
  by_cases hm : m = c.size
  · simp [hm, hnew, h]
  · rw [if_neg hm]

/-! ## The same wiring -/

/-- Two circuits with the same leaves and edges. -/
structure SameWiring (c c' : Circuit P) : Prop where
  size : c'.size = c.size
  cell : ∀ n, c'.cell? n = c.cell? n
  forward : ∀ n, c'.forwardOf n = c.forwardOf n
  backward : ∀ n, c'.backwardOf n = c.backwardOf n

theorem SameWiring.refl (c : Circuit P) : SameWiring c c :=
  ⟨rfl, fun _ => rfl, fun _ => rfl, fun _ => rfl⟩

theorem SameWiring.trans {c c' c'' : Circuit P} (h : SameWiring c c') (h' : SameWiring c' c'') :
    SameWiring c c'' where
  size := h'.size.trans h.size
  cell n := (h'.cell n).trans (h.cell n)
  forward n := (h'.forward n).trans (h.forward n)
  backward n := (h'.backward n).trans (h.backward n)

/-- A change of one node that keeps its kind and its edges. -/
theorem SameWiring.modify (c : Circuit P) (n : NodeId) {f : Node P → Node P}
    (hkind : ∀ node, (f node).kind = node.kind) (hforward : ∀ node, (f node).forward = node.forward)
    (hbackward : ∀ node, (f node).backward = node.backward) : SameWiring c (c.modify n f) := by
  have hnode : ∀ m, (c.modify n f).node? m = c.node? m ∨
      (c.modify n f).node? m = (c.node? m).map f := fun m => by
    rw [node?_modify]
    split
    · exact Or.inr rfl
    · exact Or.inl rfl
  refine ⟨size_modify .., fun m => ?_, fun m => ?_, fun m => ?_⟩
  · unfold cell?
    rcases hnode m with h | h <;> rw [h]
    cases c.node? m <;> simp [Node.cell?, hkind]
  · unfold forwardOf
    rcases hnode m with h | h <;> rw [h]
    cases c.node? m <;> simp [hforward]
  · unfold backwardOf
    rcases hnode m with h | h <;> rw [h]
    cases c.node? m <;> simp [hbackward]

theorem SameWiring.markPinned (c : Circuit P) (n : NodeId) : SameWiring c (c.markPinned n) :=
  .modify c n (fun _ => rfl) (fun _ => rfl) (fun _ => rfl)

theorem SameWiring.foldl_markPinned : ∀ (c : Circuit P) (ns : List NodeId),
    SameWiring c (ns.foldl Circuit.markPinned c)
  | c, [] => .refl c
  | c, n :: ns => (markPinned c n).trans (foldl_markPinned (c.markPinned n) ns)

end Circuit

/-! ## Circuits without their ids -/

namespace Network

open Circuit (SameWiring)

theorem node?_withoutIds (c : Circuit P) (n : NodeId) :
    (withoutIds c).node? n = (c.node? n).map ({ · with id := none }) := by
  simp [withoutIds, Circuit.node?]

@[simp] theorem size_withoutIds (c : Circuit P) : (withoutIds c).size = c.size := by
  simp [withoutIds, Circuit.size]

@[simp] theorem cell?_withoutIds (c : Circuit P) (n : NodeId) :
    (withoutIds c).cell? n = c.cell? n := by
  unfold Circuit.cell?
  rw [node?_withoutIds]
  cases c.node? n <;> rfl

@[simp] theorem forwardOf_withoutIds (c : Circuit P) (n : NodeId) :
    (withoutIds c).forwardOf n = c.forwardOf n := by
  unfold Circuit.forwardOf
  rw [node?_withoutIds]
  cases c.node? n <;> rfl

@[simp] theorem backwardOf_withoutIds (c : Circuit P) (n : NodeId) :
    (withoutIds c).backwardOf n = c.backwardOf n := by
  unfold Circuit.backwardOf
  rw [node?_withoutIds]
  cases c.node? n <;> rfl

@[simp] theorem isPinned_withoutIds (c : Circuit P) (n : NodeId) :
    (withoutIds c).isPinned n = c.isPinned n := by
  unfold Circuit.isPinned
  rw [node?_withoutIds]
  cases c.node? n <;> rfl

@[simp] theorem withoutIds_withoutIds (c : Circuit P) : withoutIds (withoutIds c) = withoutIds c := by
  simp [withoutIds]

/-- A change of ids only. -/
theorem withoutIds_modify (c : Circuit P) (n : NodeId) (i : Option Nat) :
    withoutIds (c.modify n ({ · with id := i })) = withoutIds c := by
  unfold withoutIds Circuit.modify
  congr 1
  refine Array.ext_getElem? fun m => ?_
  rw [Array.getElem?_map, Array.getElem?_map, Array.getElem?_modify]
  split
  · cases c.nodes[m]? <;> rfl
  · rfl

theorem withoutIds_clearIds : ∀ (ns : List NodeId) (c : Circuit P),
    withoutIds (clearIds c ns) = withoutIds c
  | [], _ => rfl
  | n :: ns, c => (withoutIds_clearIds ns _).trans (withoutIds_modify c n none)

theorem withoutIds_numberLeaves (c : Circuit P) (ns : List NodeId) :
    withoutIds (numberLeaves c ns) = withoutIds c := by
  have key : ∀ (xs : List (NodeId × Nat)) (c : Circuit P),
      withoutIds (xs.foldl (fun c x => c.modify x.1 ({ · with id := some x.2 })) c) = withoutIds c := by
    intro xs
    induction xs with
    | nil => exact fun _ => rfl
    | cons x xs ih => exact fun c => (ih _).trans (withoutIds_modify c x.1 _)
  exact key _ c

theorem withoutIds_keepLeaves (net : Network P) (keep : NodeId → Bool) :
    withoutIds (net.keepLeaves keep).circuit = withoutIds net.circuit := by
  rw [keepLeaves, withoutIds_numberLeaves, withoutIds_clearIds]

theorem withoutIds_removeDeadEnds (net : Network P) :
    withoutIds net.removeDeadEnds.circuit = withoutIds net.circuit :=
  withoutIds_keepLeaves { net with wires := net.cascade.wires } _

theorem withoutIds_pruneDeadLoops (net : Network P) :
    withoutIds net.pruneDeadLoops.circuit = withoutIds net.circuit :=
  withoutIds_keepLeaves { net with wires := net.wires.detachAll _ } _

theorem withoutIds_eliminate (net : Network P) (o : CompileOptions) :
    withoutIds (net.eliminate o).circuit = withoutIds net.circuit := by
  unfold eliminate
  split
  · split
    · rw [withoutIds_pruneDeadLoops, withoutIds_removeDeadEnds]
    · rw [withoutIds_removeDeadEnds]
  · rfl

/-- The network that a survey of its circuit describes, with the edges between listed leaves. -/
def ofSurvey (circuit : Circuit P) (root : NodeId) (found : Survey) : Network P :=
  let leaves := found.leaves.toList
  let listed := NodeSet.ofList leaves
  { circuit
    root
    leaves
    containers := found.containers.toList
    diagnostics := found.diagnostics.toList
    wires := (Wires.ofCircuit circuit).restrict (listed.contains ·) }

/-- A reset keeps the root and the circuit, but for its ids, and nothing of an earlier compilation. -/
theorem reset_congr {net net' : Network P} (hroot : net'.root = net.root)
    (hcircuit : withoutIds net'.circuit = withoutIds net.circuit) : net'.reset = net.reset := by
  rw [reset, reset, hroot, hcircuit]

/-- From a reset on, a compilation is made of what the survey finds. -/
theorem compile_eq (net : Network P) (o : CompileOptions) : net.compile o =
    ((withoutIds net.circuit).survey net.root o.maxDepth).map fun found =>
      ((ofSurvey (withoutIds net.circuit) net.root found).eliminate o).assignIds := by
  unfold compile identify
  show ((withoutIds net.circuit).survey net.root o.maxDepth >>= _) >>= _ = _
  cases (withoutIds net.circuit).survey net.root o.maxDepth <;> rfl

theorem compile_eq_ok_iff {net net' : Network P} {o : CompileOptions} : net.compile o = .ok net' ↔
    ∃ found, (withoutIds net.circuit).survey net.root o.maxDepth = .ok found ∧
      ((ofSurvey (withoutIds net.circuit) net.root found).eliminate o).assignIds = net' := by
  rw [compile_eq]
  cases (withoutIds net.circuit).survey net.root o.maxDepth <;> simp [Except.map]

/-- Compiling changes nothing of a circuit but its ids. -/
theorem withoutIds_compile {net net' : Network P} {o : CompileOptions} (h : net.compile o = .ok net') :
    withoutIds net'.circuit = withoutIds net.circuit := by
  obtain ⟨found, -, h⟩ := compile_eq_ok_iff.1 h
  cases h
  rw [assignIds, withoutIds_numberLeaves, withoutIds_eliminate]
  exact withoutIds_withoutIds _

/-- Circuits that differ in their ids only have the same wiring. -/
theorem sameWiring_of_withoutIds {c c' : Circuit P} (h : withoutIds c' = withoutIds c) :
    SameWiring c c' where
  size := by rw [← size_withoutIds, h, size_withoutIds]
  cell n := by rw [← cell?_withoutIds, h, cell?_withoutIds]
  forward n := by rw [← forwardOf_withoutIds, h, forwardOf_withoutIds]
  backward n := by rw [← backwardOf_withoutIds, h, backwardOf_withoutIds]

theorem isPinned_of_withoutIds {c c' : Circuit P} (h : withoutIds c' = withoutIds c) (n : NodeId) :
    c'.isPinned n = c.isPinned n := by
  rw [← isPinned_withoutIds, h, isPinned_withoutIds]

end Network

end Netlist
