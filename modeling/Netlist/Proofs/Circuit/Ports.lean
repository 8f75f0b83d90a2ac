/-
What a connection looks at in a circuit: the kinds and the ports of its nodes. Edges, pins, payloads
and ids change without a change of either, so the work of a connection is the same before and after.
In every circuit that the public operations build, a leaf is its own only port on both sides.
-/
import Netlist.Proofs.Circuit.Built

namespace Netlist

variable {P : Type}

/-- The kind and the ports of a node. -/
def Node.face (node : Node P) : Kind × List Port × List Port := (node.kind, node.inputs, node.outputs)

theorem Node.face_eq_iff {node node' : Node P} : node'.face = node.face ↔
    node'.kind = node.kind ∧ node'.inputs = node.inputs ∧ node'.outputs = node.outputs := by
  simp [face]

theorem Node.isLeaf_of_face {node node' : Node P} (h : node'.face = node.face) :
    node'.isLeaf = node.isLeaf := by
  unfold isLeaf
  rw [(face_eq_iff.1 h).1]

namespace Circuit

/-! ## One step of a plan -/

section Step

variable {c : Circuit P} {lenient : Bool} {met : PairSet} {done : Plan} {s r : NodeId} {rest : List Task}

theorem planFrom_join_of_met (hmet : met.contains (s, r) = true) :
    c.planFrom lenient met done (.join s r :: rest) = c.planFrom lenient met done rest := by
  rw [planFrom, dif_pos hmet]

theorem planFrom_join_of_error (hmet : ¬ met.contains (s, r) = true) {e : Failure}
    (h : c.contract lenient s r = .error e) : c.planFrom lenient met done (.join s r :: rest) =
      { done with visited := done.visited.push (s, r), failure := some e } := by
  rw [planFrom, dif_neg hmet]
  split
  · next e' he' => rw [Except.error.inj (he'.symm.trans h)]
  · next tasks htasks => cases htasks.symm.trans h

theorem planFrom_join_of_ok (hmet : ¬ met.contains (s, r) = true) {tasks : List Task}
    (h : c.contract lenient s r = .ok tasks) : c.planFrom lenient met done (.join s r :: rest) =
      c.planFrom lenient (met.insert (s, r)) { done with visited := done.visited.push (s, r) } (tasks ++ rest) := by
  rw [planFrom, dif_neg hmet]
  split
  · next e he => cases he.symm.trans h
  · next tasks' htasks' => rw [Except.ok.inj (htasks'.symm.trans h)]

end Step

/-! ## The same ports -/

/-- Two circuits whose nodes have the same kinds and ports. -/
structure SamePorts (c c' : Circuit P) : Prop where
  face : ∀ n, (c'.node? n).map Node.face = (c.node? n).map Node.face

namespace SamePorts

variable {c c' c'' : Circuit P}

theorem refl (c : Circuit P) : SamePorts c c := ⟨fun _ => rfl⟩

theorem symm (h : SamePorts c c') : SamePorts c' c := ⟨fun n => (h.face n).symm⟩

theorem trans (h : SamePorts c c') (h' : SamePorts c' c'') : SamePorts c c'' :=
  ⟨fun n => (h'.face n).trans (h.face n)⟩

theorem exists_node (h : SamePorts c c') {n : NodeId} {node : Node P} (hn : c.node? n = some node) :
    ∃ node', c'.node? n = some node' ∧ node'.face = node.face := by
  have hface := h.face n
  rw [hn] at hface
  exact Option.map_eq_some_iff.1 hface

theorem size_le (h : SamePorts c c') : c.size ≤ c'.size := by
  by_contra hlt
  obtain ⟨node, hnode⟩ := node?_of_lt (Nat.lt_of_not_le hlt)
  obtain ⟨node', hnode', -⟩ := h.exists_node hnode
  exact absurd (lt_size_of_node? hnode') (Nat.lt_irrefl _)

theorem size_eq (h : SamePorts c c') : c'.size = c.size :=
  Nat.le_antisymm h.symm.size_le h.size_le

theorem cell?_eq (h : SamePorts c c') (n : NodeId) : c'.cell? n = c.cell? n := by
  unfold cell?
  cases hn : c.node? n with
  | none =>
    have hnone := h.face n
    rw [hn, Option.map_none, Option.map_eq_none_iff] at hnone
    rw [hnone]
  | some node =>
    obtain ⟨node', hnode', hface⟩ := h.exists_node hn
    rw [hnode', Option.bind_some, Option.bind_some, Node.cell?, Node.cell?, (Node.face_eq_iff.1 hface).1]

/-- A change of one node that keeps its kind and its ports. -/
theorem modify (c : Circuit P) (n : NodeId) {f : Node P → Node P} (hf : ∀ node, (f node).face = node.face) :
    SamePorts c (c.modify n f) := by
  refine ⟨fun m => ?_⟩
  rw [node?_modify]
  split
  · cases c.node? m <;> simp [hf]
  · rfl

theorem link (c : Circuit P) (a b : NodeId) : SamePorts c (c.link a b) := by
  have hsource : SamePorts c (c.modify a fun node => { node with forward := node.forward.push b }) :=
    modify c a fun _ => rfl
  exact hsource.trans (modify _ b fun _ => rfl)

theorem linkAll : ∀ (c : Circuit P) (edges : List (NodeId × NodeId)), SamePorts c (c.linkAll edges)
  | c, [] => refl c
  | c, e :: edges => (link c e.1 e.2).trans (linkAll (c.link e.1 e.2) edges)

theorem connect (c : Circuit P) (sender receiver : NodeId) (lenient : Bool) :
    SamePorts c (c.connect sender receiver lenient).circuit :=
  linkAll c _

theorem markPinned (c : Circuit P) (n : NodeId) : SamePorts c (c.markPinned n) :=
  modify c n fun _ => rfl

theorem foldl_markPinned : ∀ (c : Circuit P) (ns : List NodeId),
    SamePorts c (ns.foldl Circuit.markPinned c)
  | c, [] => refl c
  | c, n :: ns => (markPinned c n).trans (foldl_markPinned (c.markPinned n) ns)

theorem of_withoutIds (h : Network.withoutIds c' = Network.withoutIds c) : SamePorts c c' := by
  have hface : ∀ (c : Circuit P) n, ((Network.withoutIds c).node? n).map Node.face = (c.node? n).map Node.face := by
    intro c n
    rw [Network.node?_withoutIds, Option.map_map]
    rfl
  refine ⟨fun n => ?_⟩
  rw [← hface, h, hface]

/-! ## The work of a connection -/

theorem bind_fetch (h : SamePorts c c') {β : Type} (n : NodeId) {k k' : Node P → Except Failure β}
    (hk : ∀ node node', node'.face = node.face → k' node' = k node) :
    (c'.fetch n >>= k') = (c.fetch n >>= k) := by
  unfold fetch
  cases hn : c.node? n with
  | none =>
    have hnone := h.face n
    rw [hn, Option.map_none, Option.map_eq_none_iff] at hnone
    rw [hnone, h.size_eq]
    rfl
  | some node =>
    obtain ⟨node', hnode', hface⟩ := h.exists_node hn
    rw [hnode']
    exact hk node node' hface

theorem taskOf_eq (h : SamePorts c c') (parent pair : NodeId × NodeId) :
    c'.taskOf parent pair = c.taskOf parent pair := by
  refine h.bind_fetch pair.1 fun a a' ha => ?_
  rw [Node.isLeaf_of_face ha]
  by_cases hleaf : a.isLeaf = true
  · simp only [if_pos hleaf]
    refine h.bind_fetch pair.2 fun b b' hb => ?_
    rw [Node.isLeaf_of_face hb]
  · simp only [if_neg hleaf]

theorem contract_eq (h : SamePorts c c') (lenient : Bool) (sender receiver : NodeId) :
    c'.contract lenient sender receiver = c.contract lenient sender receiver := by
  have htask : c'.taskOf (sender, receiver) = c.taskOf (sender, receiver) :=
    funext fun pair => h.taskOf_eq _ pair
  refine h.bind_fetch sender fun s s' hs => h.bind_fetch receiver fun r r' hr => ?_
  rw [(Node.face_eq_iff.1 hs).2.2, (Node.face_eq_iff.1 hr).2.1, htask]

theorem planFrom_eq (h : SamePorts c c') (lenient : Bool) (met : PairSet) (done : Plan) (pending : List Task) :
    c'.planFrom lenient met done pending = c.planFrom lenient met done pending := by
  -- the tasks of a contract do not change, so the same work is pending in both circuits throughout
  fun_induction planFrom c lenient met done pending with
  | case1 => rw [planFrom]
  | case2 met done a b rest ih => rw [planFrom, ih]
  | case3 met done s r rest hmet ih => rw [planFrom_join_of_met hmet, ih]
  | case4 met done s r rest hmet e he =>
    rw [planFrom_join_of_error hmet ((h.contract_eq lenient s r).trans he)]
  | case5 met done s r rest hmet tasks htasks ih =>
    rw [planFrom_join_of_ok hmet ((h.contract_eq lenient s r).trans htasks), ih]

/-- The work of a connection depends on kinds and ports only. -/
theorem plan_eq (h : SamePorts c c') (sender receiver : NodeId) (lenient : Bool) :
    c'.plan sender receiver lenient = c.plan sender receiver lenient :=
  h.planFrom_eq lenient {} {} _

end SamePorts

/-! ## Own ports -/

/-- Every leaf is its own only port on both sides. -/
def OwnPorts (c : Circuit P) : Prop := ∀ n node, c.node? n = some node → node.isLeaf = true →
  node.inputs = [.single n] ∧ node.outputs = [.single n]

namespace OwnPorts

variable {c c' : Circuit P}

theorem same (hc : c.OwnPorts) (h : SamePorts c c') : c'.OwnPorts := by
  intro n node hnode hleaf
  obtain ⟨old, hold, hface⟩ := h.symm.exists_node hnode
  obtain ⟨-, hinputs, houtputs⟩ := Node.face_eq_iff.1 hface
  rw [← hinputs, ← houtputs]
  exact hc n old hold (Node.isLeaf_of_face hface ▸ hleaf)

theorem push (hc : c.OwnPorts) {node : Node P}
    (h : node.isLeaf = true → node.inputs = [.single c.size] ∧ node.outputs = [.single c.size]) :
    (c.push node).1.OwnPorts := by
  intro n found hfound hleaf
  rw [node?_push] at hfound
  split at hfound
  · next hn =>
    cases hfound
    rw [hn]
    exact h hleaf
  · exact hc n found hfound hleaf

/-- Only containers are given other slots. -/
theorem setSlots (hc : c.OwnPorts) {side : Side} {n : NodeId} {ports : List Port}
    (h : c.setSlots side n ports = .ok c') : c'.OwnPorts := by
  simp only [Circuit.setSlots, bind_eq_ok, fetch_eq_ok] at h
  obtain ⟨node, hnode, h⟩ := h
  split at h
  · cases h
  next hcontainer =>
    have key : ∀ f : Node P → Node P, (∀ node, (f node).isLeaf = node.isLeaf) → (c.modify n f).OwnPorts := by
      intro f hf m found hfound hleaf
      rw [node?_modify] at hfound
      split at hfound
      · next hm =>
        rw [← hm, hnode] at hfound
        cases hfound
        rw [hf] at hleaf
        exact absurd hleaf hcontainer
      · exact hc m found hfound hleaf
    split at h <;> cases h <;> exact key _ fun _ => rfl

end OwnPorts

/-- No operation gives a leaf other ports than itself. -/
theorem Built.ownPorts {c : Circuit P} (h : c.Built) : c.OwnPorts := by
  induction h with
  | empty =>
    intro n node hnode
    simp [node?] at hnode
  | addLeaf _ cell ih => exact ih.push fun _ => ⟨rfl, rfl⟩
  | addContainer _ inputs outputs ih => exact ih.push fun hleaf => by cases hleaf
  | setSlots _ h' ih => exact ih.setSlots h'
  | pin _ h' ih =>
    obtain ⟨node, -, h'⟩ := bind_eq_ok.1 h'
    cases h'
    exact ih.same (.markPinned ..)
  | pinPorts _ h' ih =>
    simp only [Circuit.pinPorts, bind_eq_ok] at h'
    obtain ⟨node, -, inputs, -, outputs, -, h'⟩ := h'
    cases h'
    exact ih.same (.foldl_markPinned ..)
  | setPayload _ h' ih =>
    obtain ⟨node, -, h'⟩ := bind_eq_ok.1 h'
    cases h'
    exact ih.same (.modify _ _ fun _ => rfl)
  | connect _ sender receiver lenient ih => exact ih.same (.connect ..)
  | link _ h' ih => exact ih.same (.link ..)
  | compile _ h' ih => exact ih.same (.of_withoutIds (Network.withoutIds_compile h'))
  | removeDeadEnds _ ih => exact ih.same (.of_withoutIds (Network.withoutIds_removeDeadEnds _))
  | pruneDeadLoops _ ih => exact ih.same (.of_withoutIds (Network.withoutIds_pruneDeadLoops _))

end Circuit

end Netlist
