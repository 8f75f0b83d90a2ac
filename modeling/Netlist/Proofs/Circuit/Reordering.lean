/-
Circuits that differ in the order of their edges only. The edges that a connection records depend on
kinds and ports, which no connection changes, so calls that are made in another order record the
same edges in another order. A node has the same neighbours all the same.
-/
import Netlist.Proofs.Circuit.Branches
import Netlist.Proofs.Circuit.Ports

namespace Netlist

variable {P : Type}

namespace Circuit

theorem PortsExist.same {c c' : Circuit P} (hc : c.PortsExist) (h : SamePorts c c') : c'.PortsExist := by
  intro node' hnode' m hm
  obtain ⟨n, hn⟩ := Array.mem_iff_getElem?.1 hnode'
  obtain ⟨node, hnode, hface⟩ := h.symm.exists_node hn
  obtain ⟨-, hinputs, houtputs⟩ := Node.face_eq_iff.1 hface
  rw [h.size_eq]
  refine hc node (Array.mem_of_getElem? hnode) m ?_
  rw [Node.exposed, Node.exposed, Node.slots, Node.slots, hinputs, houtputs]
  exact hm

/-- Two circuits with the same nodes, whose edges are the same up to their order on each node. -/
structure Reorders (c c' : Circuit P) : Prop where
  ports : SamePorts c c'
  pinned : ∀ n, c'.isPinned n = c.isPinned n
  forward : ∀ n, (c'.forwardOf n).Perm (c.forwardOf n)
  backward : ∀ n, (c'.backwardOf n).Perm (c.backwardOf n)

namespace Reorders

variable {c c' : Circuit P}

theorem symm (h : Reorders c c') : Reorders c' c where
  ports := h.ports.symm
  pinned n := (h.pinned n).symm
  forward n := (h.forward n).symm
  backward n := (h.backward n).symm

theorem adjacent (h : Reorders c c') {n m : NodeId} (hm : c.Adjacent n m) : c'.Adjacent n m := by
  obtain ⟨node, hnode, hm⟩ := hm
  obtain ⟨node', hnode', hface⟩ := h.ports.exists_node hnode
  obtain ⟨-, hinputs, houtputs⟩ := Node.face_eq_iff.1 hface
  refine ⟨node', hnode', ?_⟩
  have hforward : m ∈ node'.forward.toList ↔ m ∈ node.forward.toList := by
    simpa [forwardOf, hnode, hnode'] using (h.forward n).mem_iff
  have hbackward : m ∈ node'.backward.toList ↔ m ∈ node.backward.toList := by
    simpa [backwardOf, hnode, hnode'] using (h.backward n).mem_iff
  simp only [Node.neighbours, Node.exposed, Node.slots, hinputs, houtputs, List.mem_append, hforward,
    hbackward] at hm ⊢
  exact hm

theorem reachable_iff (h : Reorders c c') {root n : NodeId} :
    Relation.ReflTransGen c'.Adjacent root n ↔ Relation.ReflTransGen c.Adjacent root n :=
  ⟨Relation.ReflTransGen.mono (fun _ _ hm => h.symm.adjacent hm) _ _,
    Relation.ReflTransGen.mono (fun _ _ hm => h.adjacent hm) _ _⟩

theorem portsExist (h : Reorders c c') (hports : c.PortsExist) : c'.PortsExist :=
  hports.same h.ports

end Reorders

/-! ## Recorded edges -/

/-- The targets of the edges of a list that start at a node. -/
def targetsIn (edges : List (NodeId × NodeId)) (n : NodeId) : List NodeId :=
  edges.filterMap fun e => if e.1 = n then some e.2 else none

/-- The sources of the edges of a list that end at a node. -/
def sourcesIn (edges : List (NodeId × NodeId)) (n : NodeId) : List NodeId :=
  edges.filterMap fun e => if e.2 = n then some e.1 else none

theorem node?_link (c : Circuit P) (a b n : NodeId) : (c.link a b).node? n = (c.node? n).map fun node =>
    { node with
      forward := if a = n then node.forward.push b else node.forward
      backward := if b = n then node.backward.push a else node.backward } := by
  rw [link, node?_modify, node?_modify]
  by_cases ha : a = n <;> by_cases hb : b = n <;> cases c.node? n <;> simp [ha, hb]

theorem node?_linkAll (n : NodeId) : ∀ (edges : List (NodeId × NodeId)) (c : Circuit P),
    (c.linkAll edges).node? n = (c.node? n).map fun node =>
      { node with
        forward := node.forward ++ targetsIn edges n
        backward := node.backward ++ sourcesIn edges n }
  | [], c => by simp [linkAll, targetsIn, sourcesIn]
  | e :: edges, c => by
    have hrest := node?_linkAll n edges (c.link e.1 e.2)
    rw [node?_link, Option.map_map] at hrest
    refine hrest.trans (congrArg (Option.map · _) (funext fun node => ?_))
    by_cases ha : e.1 = n <;> by_cases hb : e.2 = n <;> simp [targetsIn, sourcesIn, ha, hb]

/-- The order in which edges are recorded shows in the lists of their ends only. -/
theorem reorders_linkAll (c : Circuit P) {edges edges' : List (NodeId × NodeId)} (h : edges'.Perm edges) :
    Reorders (c.linkAll edges) (c.linkAll edges') := by
  refine ⟨(SamePorts.linkAll c edges).symm.trans (.linkAll c edges'), fun n => ?_, fun n => ?_, fun n => ?_⟩
  · rw [isPinned, isPinned, node?_linkAll, node?_linkAll]
    cases c.node? n <;> rfl
  · rw [forwardOf, forwardOf, node?_linkAll, node?_linkAll]
    cases c.node? n with
    | none => exact .refl _
    | some node => simpa [targetsIn] using (h.filterMap _).append_left _
  · rw [backwardOf, backwardOf, node?_linkAll, node?_linkAll]
    cases c.node? n with
    | none => exact .refl _
    | some node => simpa [sourcesIn] using (h.filterMap _).append_left _

/-! ## Connections -/

/-- A call that connects two nodes. -/
structure Connection where
  sender : NodeId
  receiver : NodeId
  lenient : Bool
  deriving DecidableEq, Repr

/-- The edges that a call records. -/
def edgesOf (c : Circuit P) (call : Connection) : List (NodeId × NodeId) :=
  (c.plan call.sender call.receiver call.lenient).edges.toList

/-- The circuit after some calls, first one first, however they end. -/
def connectAll (c : Circuit P) (calls : List Connection) : Circuit P :=
  calls.foldl (fun c call => (c.connect call.sender call.receiver call.lenient).circuit) c

/-- No call changes what another one records. -/
theorem connectAll_eq : ∀ (calls : List Connection) (c : Circuit P),
    c.connectAll calls = c.linkAll (calls.flatMap c.edgesOf)
  | [], _ => rfl
  | call :: calls, c => by
    have hrest := connectAll_eq calls (c.linkAll (c.edgesOf call))
    have hedges : (c.linkAll (c.edgesOf call)).edgesOf = c.edgesOf :=
      funext fun other => congrArg (·.edges.toList) ((SamePorts.linkAll c _).plan_eq ..)
    rw [hedges] at hrest
    rw [List.flatMap_cons, linkAll, List.foldl_append]
    exact hrest

/-- The same calls in another order. -/
theorem reorders_connectAll (c : Circuit P) {calls calls' : List Connection} (h : calls'.Perm calls) :
    Reorders (c.connectAll calls) (c.connectAll calls') := by
  rw [connectAll_eq, connectAll_eq]
  exact reorders_linkAll c (h.flatMap_right _)

theorem Built.connectAll : ∀ {calls : List Connection} {c : Circuit P}, c.Built → (c.connectAll calls).Built
  | [], _, hc => hc
  | _ :: _, _, hc => (hc.connect ..).connectAll

end Circuit

end Netlist
