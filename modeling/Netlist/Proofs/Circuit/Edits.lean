/-
Building a circuit call by call. A call that is refused leaves the circuit as it was, and a
connection that ends early leaves the edges that it has recorded. After any calls, every edge joins
two leaves and is recorded as often on its source as on its target, containers have no edges, and
a leaf is its own only port.
-/
import Netlist.Proofs.Circuit.Ports
import Netlist.Proofs.Generate.Built
import Netlist.Proofs.Network.Check

namespace Netlist

variable {P : Type}

/-- A network that a generator makes. -/
inductive Template where
  | chain (len : Nat) (mode : Mode)
  | mesh (len : Nat)
  | timerRing (len ticks : Nat)
  | rippleCarry (len : Nat)
  | random (len maxFanin : Nat) (seed : UInt64)
  deriving DecidableEq, Repr

/-- The network of a template, if the generator takes its parameters. -/
def Template.network (P : Type) : Template → Except Failure (Network P)
  | chain len mode => Generate.chain P len mode
  | mesh len => Generate.mesh P len
  | timerRing len ticks => Generate.timerRing P len ticks
  | rippleCarry len => Generate.rippleCarry P len
  | random len maxFanin seed => Generate.random P len maxFanin seed

theorem Template.built {t : Template} {net : Network P} (h : t.network P = .ok net) : net.circuit.Built := by
  cases t with
  | chain => exact Generate.built_chain h
  | mesh => exact Generate.built_mesh h
  | timerRing => exact Generate.built_timerRing h
  | rippleCarry => exact Generate.built_rippleCarry h
  | random => exact Generate.built_random h

/-- A call that changes a circuit. Ports may name nodes that do not exist. -/
inductive Edit (P : Type) where
  | addGate (mode : Mode)
  | addTimer (ticks seconds : Nat)
  | addContainer (inputs outputs : List Port)
  | setSlots (side : Side) (n : NodeId) (ports : List Port)
  | pin (n : NodeId)
  | pinPorts (n : NodeId)
  | setPayload (n : NodeId) (payload : P)
  | connect (sender receiver : NodeId) (lenient : Bool)
  | fullAdder
  /-- Start over with the circuit of a generated network. -/
  | generate (t : Template)
  deriving DecidableEq, Repr

namespace Circuit

/-- The circuit after a call. -/
def edit (c : Circuit P) : Edit P → Circuit P
  | .addGate mode => (c.addGate mode).1
  | .addTimer ticks seconds => (c.addTimer ticks seconds).1
  | .addContainer inputs outputs => (c.addContainer inputs outputs).1
  | .setSlots side n ports => (c.setSlots side n ports).toOption.getD c
  | .pin n => (c.pin n).toOption.getD c
  | .pinPorts n => (c.pinPorts n).toOption.getD c
  | .setPayload n payload => (c.setPayload n payload).toOption.getD c
  | .connect sender receiver lenient => (c.connect sender receiver lenient).circuit
  | .fullAdder => (Generate.fullAdder c).1
  | .generate t => ((t.network P).map (·.circuit)).toOption.getD c

/-- The circuit after some calls, first one first. -/
def editAll (c : Circuit P) (edits : List (Edit P)) : Circuit P := edits.foldl edit c

/-! ## Built by calls -/

/-- A call that may be refused. -/
theorem Built.getD {c : Circuit P} (hc : c.Built) {result : Except Failure (Circuit P)}
    (h : ∀ c', result = .ok c' → c'.Built) : (result.toOption.getD c).Built := by
  cases result with
  | error e => exact hc
  | ok c' => exact h c' rfl

/-- The circuit of a network, if there is one. -/
theorem Built.circuit_getD {c : Circuit P} (hc : c.Built) {result : Except Failure (Network P)}
    (h : ∀ net, result = .ok net → net.circuit.Built) :
    ((result.map (·.circuit)).toOption.getD c).Built := by
  cases result with
  | error e => exact hc
  | ok net => exact h net rfl

theorem Built.edit {c : Circuit P} (hc : c.Built) (e : Edit P) : (c.edit e).Built := by
  cases e with
  | addGate mode => exact hc.addLeaf _
  | addTimer ticks seconds => exact hc.addLeaf _
  | addContainer inputs outputs => exact hc.addContainer inputs outputs
  | setSlots side n ports => exact hc.getD fun _ h => hc.setSlots h
  | pin n => exact hc.getD fun _ h => hc.pin h
  | pinPorts n => exact hc.getD fun _ h => hc.pinPorts h
  | setPayload n payload => exact hc.getD fun _ h => hc.setPayload h
  | connect sender receiver lenient => exact hc.connect sender receiver lenient
  | fullAdder => exact Generate.built_fullAdder hc
  | generate t => exact hc.circuit_getD fun _ h => t.built h

theorem Built.editAll : ∀ {c : Circuit P}, c.Built → ∀ edits : List (Edit P), (c.editAll edits).Built
  | _, hc, [] => hc
  | _, hc, e :: edits => (hc.edit e).editAll edits

/-! ## Edges and ports -/

/-- An edge joins leaves, so a node that is none has no edges. -/
theorem WellWired.edges_of_not_leaf {c : Circuit P} (hc : c.WellWired) {n : NodeId} {node : Node P}
    (hnode : c.node? n = some node) (h : node.isLeaf = false) : node.forward = #[] ∧ node.backward = #[] := by
  have hcell : ¬ (c.cell? n).isSome = true := by simp [← isLeaf_eq hnode, h]
  have hforward : c.forwardOf n = node.forward.toList := by simp [forwardOf, hnode]
  have hbackward : c.backwardOf n = node.backward.toList := by simp [backwardOf, hnode]
  constructor
  · rw [← Array.toList_eq_nil_iff, ← hforward, List.eq_nil_iff_forall_not_mem]
    exact fun m hm => hcell (hc.joins n m hm).1
  · rw [← Array.toList_eq_nil_iff, ← hbackward, List.eq_nil_iff_forall_not_mem]
    exact fun m hm => hcell (hc.joins m n (hc.mem_backwardOf.1 hm)).2

/-- A circuit whose edges look alike from both ends. -/
structure Symmetric (c : Circuit P) : Prop where
  /-- An edge has the same multiplicity on its source and on its target. -/
  mirror : ∀ a b, (c.forwardOf a).count b = (c.backwardOf b).count a
  /-- An edge, on whichever end it is recorded, joins two leaves that exist. -/
  joins : ∀ a b, b ∈ c.forwardOf a ∨ a ∈ c.backwardOf b → ∃ source target, c.node? a = some source ∧
    source.isLeaf = true ∧ c.node? b = some target ∧ target.isLeaf = true
  container : ∀ n node, c.node? n = some node → node.isLeaf = false →
    node.forward = #[] ∧ node.backward = #[]
  leaf : ∀ n node, c.node? n = some node → node.isLeaf = true →
    node.inputs = [.single n] ∧ node.outputs = [.single n]
  check : c.check = .ok ()

/-- The circuit is symmetric after any calls, refused ones and connections that end early among
them. -/
theorem symmetric_editAll (edits : List (Edit P)) : ((Circuit.mk #[]).editAll edits).Symmetric := by
  have hbuilt := Built.empty.editAll edits
  have hwired := hbuilt.wellWired
  refine ⟨hwired.mirror, fun a b h => ?_, fun n node => hwired.edges_of_not_leaf, hbuilt.ownPorts,
    check_eq_ok hwired⟩
  obtain ⟨ha, hb⟩ := hwired.joins a b (h.elim id hwired.mem_backwardOf.1)
  obtain ⟨source, hsource⟩ := node?_of_lt (lt_size_of_cell? ha)
  obtain ⟨target, htarget⟩ := node?_of_lt (lt_size_of_cell? hb)
  exact ⟨source, target, hsource, isLeaf_eq hsource ▸ ha, htarget, isLeaf_eq htarget ▸ hb⟩

/-- A connection that meets a container without slots below an edge that it has recorded. -/
example : ((Circuit.mk #[] : Circuit Unit).editAll [.addGate .or, .addTimer 1 0, .addContainer [] [],
    .addContainer [.single 1, .single 2] [.single 0, .single 0], .connect 3 3 false]).forwardOf 0 = [1] := by
  cbv

end Circuit

end Netlist
