/-
The generated networks carry no data of an exporter: no step of a generator attaches any, and neither
does a compilation.
-/
import Netlist.Proofs.Circuit.Each
import Netlist.Proofs.Generate.Built

namespace Netlist

variable {P : Type}

namespace Circuit

/-- A circuit whose nodes have no payload. -/
def Plain (c : Circuit P) : Prop := ∀ n node, c.node? n = some node → node.payload = none

namespace Plain

variable {c : Circuit P}

theorem empty : Plain (⟨#[]⟩ : Circuit P) := Each.empty

theorem addContainer (hc : c.Plain) (inputs outputs : List Port) : (c.addContainer inputs outputs).1.Plain :=
  Each.push hc rfl

theorem addLeaves (hc : c.Plain) (cells : List Cell) : (c.addLeaves cells).Plain :=
  Each.addLeaves (fun _ _ => rfl) hc cells

theorem linkAll (hc : c.Plain) (edges : List (NodeId × NodeId)) : (c.linkAll edges).Plain :=
  Each.linkAll (fun _ _ _ hnode => hnode) hc edges

theorem link (hc : c.Plain) (a b : NodeId) : (c.link a b).Plain := hc.linkAll [(a, b)]

theorem connect (hc : c.Plain) (sender receiver : NodeId) (lenient : Bool) :
    (c.connect sender receiver lenient).circuit.Plain :=
  hc.linkAll _

theorem foldl_markPinned (hc : c.Plain) (ns : List NodeId) : (ns.foldl markPinned c).Plain :=
  Each.foldl_markPinned (fun _ hnode => hnode) hc ns

/-- The payloads of a circuit do not depend on its ids. -/
theorem of_withoutIds {c' : Circuit P} (hc : c.Plain) (h : Network.withoutIds c' = Network.withoutIds c) :
    c'.Plain := by
  intro n node hn
  have hsame := congrArg (node? · n) h
  simp only [Network.node?_withoutIds, hn, Option.map_some] at hsame
  obtain ⟨other, hother, heq⟩ := Option.map_eq_some_iff.1 hsame.symm
  exact (congrArg Node.payload heq).symm.trans (hc n other hother)

end Plain

end Circuit

namespace Generate

open Circuit

theorem plain_leaves (cells : List Cell) : (leaves P cells).Plain := Plain.empty.addLeaves cells

theorem plain_addRoot {c : Circuit P} (hc : c.Plain) {inputs outputs : List NodeId} {rooted : Circuit P × NodeId}
    (h : addRoot c inputs outputs = .ok rooted) : rooted.1.Plain := by
  obtain ⟨pinned, hpinned, h⟩ := bind_eq_ok.1 h
  simp only [pinPorts, bind_eq_ok] at hpinned
  obtain ⟨node, -, ins, -, outs, -, hpinned⟩ := hpinned
  cases h
  cases hpinned
  exact (hc.addContainer _ _).foldl_markPinned _

theorem plain_withRoot {c : Circuit P} (hc : c.Plain) {inputs outputs : List NodeId} {net : Network P}
    (h : withRoot c inputs outputs = .ok net) : net.circuit.Plain := by
  obtain ⟨rooted, hrooted, hcircuit⟩ := exists_addRoot h
  rw [hcircuit]
  exact plain_addRoot hc hrooted

theorem plain_chain {len : Nat} {mode : Mode} {net : Network P} (h : chain P len mode = .ok net) :
    net.circuit.Plain := by
  obtain ⟨_, -, h⟩ := bind_eq_ok.1 h
  exact plain_withRoot ((plain_leaves _).linkAll _) h

theorem plain_mesh {len : Nat} {net : Network P} (h : mesh P len = .ok net) : net.circuit.Plain := by
  obtain ⟨_, -, h⟩ := bind_eq_ok.1 h
  exact plain_withRoot ((plain_leaves _).linkAll _) h

theorem plain_random {len maxFanin : Nat} {seed : UInt64} {net : Network P}
    (h : random P len maxFanin seed = .ok net) : net.circuit.Plain := by
  obtain ⟨_, -, h⟩ := bind_eq_ok.1 h
  refine plain_withRoot ?_ h
  rw [fst_drawCircuit]
  exact (plain_leaves _).linkAll _

theorem plain_fullAdder {c : Circuit P} (hc : c.Plain) : (fullAdder c).1.Plain :=
  ((hc.addLeaves _).linkAll _).addContainer _ _

theorem plain_addBit {r r' : Ripple P} (hr : r.circuit.Plain) {a b s : NodeId} (h : r.addBit a b s = .ok r') :
    r'.circuit.Plain := by
  obtain ⟨adder, operands, sink, hcircuit, -⟩ := addBit_cases h
  rw [hcircuit]
  exact ((((plain_fullAdder hr).addContainer _ _).connect _ _ _).addContainer _ _).connect _ _ _

theorem plain_rippleCarry {len : Nat} {net : Network P} (h : rippleCarry P len = .ok net) : net.circuit.Plain := by
  obtain ⟨r, inputs, outputs, rooted, hr, hrooted, hcircuit⟩ := rippleCarry_cases h
  have hend : r.circuit.Plain :=
    foldlM_keeps (fun _ _ _ hr hbit => plain_addBit hr hbit) (plain_leaves _) hr
  rw [hcircuit]
  exact plain_addRoot (hend.link _ _) hrooted

end Generate

end Netlist
