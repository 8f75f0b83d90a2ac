/-
Circuits that are built by the public operations. All of their edges join two leaves and are
recorded alike on both ends, whatever ports were given and however a connection ended.
-/
import Netlist.Circuit.Leaves
import Netlist.Circuit.Wiring
import Netlist.Proofs.Circuit.Cells
import Netlist.Proofs.Sequence

namespace Netlist

variable {P : Type}

namespace Circuit

/-- An edge that joins two leaves. -/
def JoinsLeaves (c : Circuit P) (e : NodeId × NodeId) : Prop :=
  (c.cell? e.1).isSome ∧ (c.cell? e.2).isSome

/-- All edges have the same multiplicity on both ends. -/
def Mirrored (c : Circuit P) : Prop := ∀ a b, (c.forwardOf a).count b = (c.backwardOf b).count a

theorem Mirrored.mem_backwardOf {c : Circuit P} (hc : c.Mirrored) {a b : NodeId} :
    a ∈ c.backwardOf b ↔ b ∈ c.forwardOf a := by
  rw [← List.count_pos_iff, ← List.count_pos_iff, hc]

/-- All edges join leaves and have the same multiplicity on both ends. -/
structure WellWired (c : Circuit P) : Prop where
  joins : ∀ a b, b ∈ c.forwardOf a → c.JoinsLeaves (a, b)
  mirror : ∀ a b, (c.forwardOf a).count b = (c.backwardOf b).count a

namespace WellWired

theorem mirrored {c : Circuit P} (hc : c.WellWired) : c.Mirrored := hc.mirror

theorem mem_backwardOf {c : Circuit P} (hc : c.WellWired) {a b : NodeId} :
    a ∈ c.backwardOf b ↔ b ∈ c.forwardOf a :=
  hc.mirrored.mem_backwardOf

/-! ## Changes that keep the wiring -/

theorem same {c c' : Circuit P} (hc : c.WellWired) (h : SameWiring c c') : c'.WellWired := by
  constructor
  · intro a b hb
    rw [JoinsLeaves, h.cell, h.cell]
    exact hc.joins a b (h.forward a ▸ hb)
  · intro a b
    rw [h.forward, h.backward]
    exact hc.mirror a b

theorem of_withoutIds {c c' : Circuit P} (hc : c.WellWired)
    (h : Network.withoutIds c' = Network.withoutIds c) : c'.WellWired :=
  hc.same (Network.sameWiring_of_withoutIds h)

/-- A new node has no edges. -/
theorem push {c : Circuit P} (hc : c.WellWired) {node : Node P} (hforward : node.forward = #[])
    (hbackward : node.backward = #[]) : (c.push node).1.WellWired := by
  have hcell : ∀ m, (c.cell? m).isSome → ((c.push node).1.cell? m).isSome := by
    intro m hm
    have hne : m ≠ c.size := Nat.ne_of_lt (lt_size_of_cell? hm)
    unfold cell? at hm ⊢
    rwa [node?_push, if_neg hne]
  constructor
  · intro a b hab
    rw [forwardOf_push c hforward] at hab
    obtain ⟨ha, hb⟩ := hc.joins a b hab
    exact ⟨hcell a ha, hcell b hb⟩
  · intro a b
    rw [forwardOf_push c hforward, backwardOf_push c hbackward]
    exact hc.mirror a b

end WellWired

/-! ## Edges -/

@[simp] theorem cell?_link (c : Circuit P) (a b m : NodeId) : (c.link a b).cell? m = c.cell? m := by
  unfold cell? link
  rw [node?_modify, node?_modify]
  cases c.node? m <;> split <;> split <;> rfl

theorem forwardOf_link {c : Circuit P} {a : NodeId} (ha : a < c.size) (b m : NodeId) :
    (c.link a b).forwardOf m = if m = a then c.forwardOf m ++ [b] else c.forwardOf m := by
  obtain ⟨node, hnode⟩ := node?_of_lt ha
  unfold forwardOf link
  rw [node?_modify, node?_modify]
  by_cases hm : m = a
  · subst hm
    by_cases hb : b = m <;> simp [hnode, hb]
  · by_cases hb : b = m <;> cases c.node? m <;> simp [hm, Ne.symm hm, hb]

theorem backwardOf_link {c : Circuit P} {b : NodeId} (hb : b < c.size) (a m : NodeId) :
    (c.link a b).backwardOf m = if m = b then c.backwardOf m ++ [a] else c.backwardOf m := by
  obtain ⟨node, hnode⟩ := node?_of_lt hb
  unfold backwardOf link
  rw [node?_modify, node?_modify]
  by_cases hm : m = b
  · subst hm
    by_cases ha : a = m <;> simp [hnode, ha]
  · by_cases ha : a = m <;> cases c.node? m <;> simp [hm, Ne.symm hm, ha]

namespace WellWired

theorem link {c : Circuit P} (hc : c.WellWired) {a b : NodeId} (h : c.JoinsLeaves (a, b)) :
    (c.link a b).WellWired := by
  have ha := lt_size_of_cell? h.1
  have hb := lt_size_of_cell? h.2
  constructor
  · intro x y hy
    rw [JoinsLeaves, cell?_link, cell?_link]
    rw [forwardOf_link ha] at hy
    split at hy
    · next hx =>
      rcases List.mem_append.1 hy with hy | hy
      · exact hc.joins x y hy
      · rw [hx, List.mem_singleton.1 hy]
        exact h
    · exact hc.joins x y hy
  · intro x y
    have hmirror := hc.mirror x y
    rw [forwardOf_link ha, backwardOf_link hb]
    -- both counts grow by one for the edge itself, and by nothing for any other pair
    by_cases hx : x = a <;> by_cases hy : y = b
    · subst hx hy
      simp [hmirror]
    · subst hx
      simpa [hy, List.count_singleton, Ne.symm hy] using hmirror
    · subst hy
      simpa [hx, List.count_singleton, Ne.symm hx] using hmirror
    · simpa [hx, hy] using hmirror

theorem linkAll : ∀ {edges : List (NodeId × NodeId)} {c : Circuit P}, c.WellWired →
    (∀ e ∈ edges, c.JoinsLeaves e) → (c.linkAll edges).WellWired
  | [], _, hc, _ => hc
  | e :: edges, c, hc, h => by
    have hrest : ∀ e' ∈ edges, (c.link e.1 e.2).JoinsLeaves e' := fun e' he' => by
      rw [JoinsLeaves, cell?_link, cell?_link]
      exact h e' (List.mem_cons_of_mem _ he')
    change ((c.link e.1 e.2).linkAll edges).WellWired
    exact linkAll (hc.link (h e (List.mem_cons_self ..))) hrest

end WellWired

/-! ## The plan of a connection -/

theorem joinsLeaves_of_taskOf {c : Circuit P} {parent pair : NodeId × NodeId} {a b : NodeId}
    (h : c.taskOf parent pair = .ok (some (.link a b))) : c.JoinsLeaves (a, b) := by
  simp only [taskOf, bind_eq_ok, fetch_eq_ok] at h
  obtain ⟨s, hs, h⟩ := h
  split at h
  · next hsleaf =>
    simp only [bind_eq_ok, fetch_eq_ok] at h
    obtain ⟨r, hr, h⟩ := h
    split at h
    · next hrleaf =>
      cases h
      exact ⟨isLeaf_eq hs ▸ hsleaf, isLeaf_eq hr ▸ hrleaf⟩
    · split at h <;> cases h
  · split at h <;> cases h

theorem joinsLeaves_of_contract {c : Circuit P} {lenient : Bool} {s r : NodeId} {tasks : List Task}
    (h : c.contract lenient s r = .ok tasks) {a b : NodeId} (hab : .link a b ∈ tasks) :
    c.JoinsLeaves (a, b) := by
  simp only [contract, bind_eq_ok] at h
  obtain ⟨sender, -, receiver, -, h⟩ := h
  split at h
  · cases h
  split at h
  · cases h
  split at h
  · cases h
  obtain ⟨found, hfound, heq⟩ := bind_eq_ok.1 h
  cases heq
  obtain ⟨task, htask, hlink⟩ := List.mem_filterMap.1 hab
  obtain ⟨pair, -, hpair⟩ := exists_of_mem_mapM hfound task htask
  rw [show task = some (.link a b) from hlink] at hpair
  exact joinsLeaves_of_taskOf hpair

theorem joinsLeaves_of_planFrom {c : Circuit P} {lenient : Bool} {met : PairSet} {done : Plan}
    {pending : List Task} (hdone : ∀ e ∈ done.edges, c.JoinsLeaves e)
    (hpending : ∀ a b, .link a b ∈ pending → c.JoinsLeaves (a, b)) :
    ∀ e ∈ (c.planFrom lenient met done pending).edges, c.JoinsLeaves e := by
  fun_induction planFrom c lenient met done pending with
  | case1 => exact hdone
  | case2 met done a b rest ih =>
    -- a pending edge joins leaves because a contract has looked at both of its ends
    refine ih (fun e he => ?_) fun x y hxy => hpending x y (List.mem_cons_of_mem _ hxy)
    rcases Array.mem_push.1 he with he | rfl
    · exact hdone e he
    · exact hpending a b (List.mem_cons_self ..)
  | case3 met done s r rest _ ih =>
    exact ih hdone fun x y hxy => hpending x y (List.mem_cons_of_mem _ hxy)
  | case4 => exact hdone
  | case5 met done s r rest _ tasks htasks ih =>
    refine ih hdone fun x y hxy => ?_
    rcases List.mem_append.1 hxy with hxy | hxy
    · exact joinsLeaves_of_contract htasks hxy
    · exact hpending x y (List.mem_cons_of_mem _ hxy)

/-- However it ends, a connection records edges between leaves only. -/
theorem WellWired.connect {c : Circuit P} (hc : c.WellWired) (sender receiver : NodeId)
    (lenient : Bool) : (c.connect sender receiver lenient).circuit.WellWired :=
  hc.linkAll fun e he => joinsLeaves_of_planFrom (by simp) (by simp) e (Array.mem_def.2 he)

/-! ## Built circuits -/

/-- The circuits that the public operations build. A connection may end early, and a circuit that
a network gives back holds the ids of its last compilation. -/
inductive Built : Circuit P → Prop where
  | empty : Built ⟨#[]⟩
  | addLeaf {c : Circuit P} (h : c.Built) (cell : Cell) : Built (c.addLeaf cell).1
  | addContainer {c : Circuit P} (h : c.Built) (inputs outputs : List Port) :
      Built (c.addContainer inputs outputs).1
  | setSlots {c c' : Circuit P} (h : c.Built) {side : Side} {n : NodeId} {ports : List Port}
      (h' : c.setSlots side n ports = .ok c') : Built c'
  | pin {c c' : Circuit P} (h : c.Built) {n : NodeId} (h' : c.pin n = .ok c') : Built c'
  | pinPorts {c c' : Circuit P} (h : c.Built) {n : NodeId} (h' : c.pinPorts n = .ok c') : Built c'
  | setPayload {c c' : Circuit P} (h : c.Built) {n : NodeId} {payload : P}
      (h' : c.setPayload n payload = .ok c') : Built c'
  | connect {c : Circuit P} (h : c.Built) (sender receiver : NodeId) (lenient : Bool) :
      Built (c.connect sender receiver lenient).circuit
  /-- The generators record edges between leaves directly. -/
  | link {c : Circuit P} (h : c.Built) {a b : NodeId} (h' : c.JoinsLeaves (a, b)) :
      Built (c.link a b)
  | compile {net net' : Network P} (h : net.circuit.Built) {o : CompileOptions}
      (h' : net.compile o = .ok net') : Built net'.circuit
  | removeDeadEnds {net : Network P} (h : net.circuit.Built) : Built net.removeDeadEnds.circuit
  | pruneDeadLoops {net : Network P} (h : net.circuit.Built) : Built net.pruneDeadLoops.circuit

/-- No operation breaks the wiring. -/
theorem Built.wellWired {c : Circuit P} (h : c.Built) : c.WellWired := by
  induction h with
  | empty =>
    constructor
    · intro a b hb
      simp [forwardOf, node?] at hb
    · intro a b
      simp [forwardOf, backwardOf, node?]
  | addLeaf _ cell ih => exact ih.push rfl rfl
  | addContainer _ inputs outputs ih => exact ih.push rfl rfl
  | setSlots _ h' ih =>
    simp only [Circuit.setSlots, bind_eq_ok] at h'
    obtain ⟨node, -, h'⟩ := h'
    split at h'
    · cases h'
    split at h' <;> cases h' <;> exact ih.same (.modify _ _ (fun _ => rfl) (fun _ => rfl) fun _ => rfl)
  | pin _ h' ih =>
    obtain ⟨node, -, h'⟩ := bind_eq_ok.1 h'
    cases h'
    exact ih.same (.markPinned ..)
  | pinPorts _ h' ih =>
    simp only [Circuit.pinPorts, bind_eq_ok] at h'
    obtain ⟨node, -, inputs, -, outputs, -, h'⟩ := h'
    cases h'
    exact ih.same (.foldl_markPinned ..)
  | setPayload _ h' ih =>
    obtain ⟨node, -, h'⟩ := bind_eq_ok.1 h'
    cases h'
    exact ih.same (.modify _ _ (fun _ => rfl) (fun _ => rfl) fun _ => rfl)
  | connect _ sender receiver lenient ih => exact ih.connect sender receiver lenient
  | link _ h' ih => exact ih.link h'
  | compile _ h' ih => exact ih.of_withoutIds (Network.withoutIds_compile h')
  | removeDeadEnds _ ih => exact ih.of_withoutIds (Network.withoutIds_removeDeadEnds _)
  | pruneDeadLoops _ ih => exact ih.of_withoutIds (Network.withoutIds_pruneDeadLoops _)

end Circuit

end Netlist
