/-
The leaves behind ports in order. A recursive walk enters nodes from left to right, each with everything
that it opens before the next one. The marks are shared by all branches, so no node is entered twice,
also where containers are shared or hold each other. Working off a list of pending nodes is this walk,
since what a node opens stands in front of its siblings: so the leaves behind a slot are listed in
preorder, each once, and all of them.
-/
import Netlist.Proofs.Circuit.Nesting

namespace Netlist

variable {P : Type}

/-- What a node opens on one side: a container the nodes behind its slots, a leaf nothing. -/
def Node.opened (node : Node P) (side : Side) : List NodeId := if node.isLeaf then [] else node.exposed side

namespace Circuit

/-! ## The recursive walk -/

/-- The nodes that a walk has entered, and the leaves among them in the order of entry. -/
structure Entered where
  seen : NodeSet := {}
  leaves : Array NodeId := #[]

/-- Enters a node. -/
def Entered.enter (w : Entered) (n : NodeId) (node : Node P) : Entered :=
  ⟨w.seen.insert n, if node.isLeaf then w.leaves.push n else w.leaves⟩

/-- Enters some nodes, each with everything below it before the next one. No more nodes are left than
before, so the walk over the siblings of a node ends as well. -/
def enterAll (c : Circuit P) (side : Side) (w : Entered) (ns : List NodeId) :
    Except Failure { w' : Entered // unvisited c.ids w'.seen ≤ unvisited c.ids w.seen } :=
  match ns with
  | [] => .ok ⟨w, Nat.le_refl _⟩
  | n :: siblings =>
    if hseen : w.seen.contains n then enterAll c side w siblings
    else
      match hnode : c.fetch n with
      | .error e => .error e
      | .ok node => do
        have hlt : unvisited c.ids (w.enter n node).seen < unvisited c.ids w.seen :=
          unvisited_insert_lt (mem_ids_of_fetch hnode) (by simpa using hseen)
        let ⟨below, hbelow⟩ ← enterAll c side (w.enter n node) (node.opened side)
        let ⟨after, hafter⟩ ← enterAll c side below siblings
        return ⟨after, Nat.le_trans hafter (Nat.le_trans hbelow (Nat.le_of_lt hlt))⟩
termination_by (unvisited c.ids w.seen, ns.length)
decreasing_by
  · exact Prod.Lex.right _ (Nat.lt_succ_self _)
  · exact Prod.Lex.left _ _ hlt
  · exact Prod.Lex.left _ _ (Nat.lt_of_le_of_lt hbelow hlt)

/-- The walk over some nodes in preorder. -/
def preorder (c : Circuit P) (side : Side) (w : Entered) (ns : List NodeId) : Except Failure Entered :=
  (c.enterAll side w ns).map Subtype.val

variable {c : Circuit P} {side : Side} {w w' : Entered} {n : NodeId} {ns : List NodeId}

theorem unvisited_preorder_le (h : c.preorder side w ns = .ok w') :
    unvisited c.ids w'.seen ≤ unvisited c.ids w.seen := by
  unfold preorder at h
  cases hall : c.enterAll side w ns with
  | error e =>
    rw [hall] at h
    cases h
  | ok found =>
    rw [hall] at h
    cases h
    exact found.2

theorem preorder_nil : c.preorder side w [] = .ok w := by
  rw [preorder, enterAll]
  rfl

theorem preorder_of_seen (hseen : w.seen.contains n = true) :
    c.preorder side w (n :: ns) = c.preorder side w ns := by
  rw [preorder, enterAll, dif_pos hseen, preorder]

theorem preorder_of_error (hseen : ¬ w.seen.contains n = true) {e : Failure} (h : c.fetch n = .error e) :
    c.preorder side w (n :: ns) = .error e := by
  rw [preorder, enterAll, dif_neg hseen]
  split
  · next e' he' =>
    cases h.symm.trans he'
    rfl
  · next node hnode => cases h.symm.trans hnode

/-- A fresh node is entered, then all that it opens, and then its siblings. -/
theorem preorder_of_fresh (hseen : ¬ w.seen.contains n = true) {node : Node P} (h : c.fetch n = .ok node) :
    c.preorder side w (n :: ns) =
      c.preorder side (w.enter n node) (node.opened side) >>= (c.preorder side · ns) := by
  rw [preorder, enterAll, dif_neg hseen]
  split
  · next e he => cases h.symm.trans he
  · next node' hnode =>
    cases h.symm.trans hnode
    unfold preorder
    cases c.enterAll side (w.enter n node) (node.opened side) with
    | error e => rfl
    | ok below =>
      simp only [bind, Except.bind, Except.map]
      cases c.enterAll side below.1 ns <;> rfl

/-- A walk over two lists is a walk over the first one and then over the second. -/
theorem preorder_append (w : Entered) (ns ms : List NodeId) :
    c.preorder side w (ns ++ ms) = c.preorder side w ns >>= (c.preorder side · ms) := by
  match ns with
  | [] =>
    rw [preorder_nil]
    rfl
  | n :: ns =>
    by_cases hseen : w.seen.contains n = true
    · rw [List.cons_append, preorder_of_seen hseen, preorder_of_seen hseen, preorder_append w ns ms]
    cases hnode : c.fetch n with
    | error e =>
      rw [List.cons_append, preorder_of_error hseen hnode, preorder_of_error hseen hnode]
      rfl
    | ok node =>
      have hlt : unvisited c.ids (w.enter n node).seen < unvisited c.ids w.seen :=
        unvisited_insert_lt (mem_ids_of_fetch hnode) (by simpa using hseen)
      rw [List.cons_append, preorder_of_fresh hseen hnode, preorder_of_fresh hseen hnode, bind_assoc]
      cases hbelow : c.preorder side (w.enter n node) (node.opened side) with
      | error e => rfl
      | ok below =>
        have hle := unvisited_preorder_le hbelow
        exact preorder_append below ns ms
termination_by (unvisited c.ids w.seen, ns.length)
decreasing_by
  · exact Prod.Lex.right _ (Nat.lt_succ_self _)
  · exact Prod.Lex.left _ _ (Nat.lt_of_le_of_lt hle hlt)

/-! ## Working off a list -/

/-- Working off what is pending is the walk over it: what a node opens stands in front of its siblings. -/
theorem leavesFrom_eq_preorder (c : Circuit P) (side : Side) (seen : NodeSet) (found : Array NodeId)
    (pending : List NodeId) : c.leavesFrom side seen found pending =
      (c.preorder side ⟨seen, found⟩ pending).map (·.leaves.toList) := by
  fun_induction leavesFrom c side seen found pending with
  | case1 seen found =>
    rw [preorder_nil]
    rfl
  | case2 seen found n rest hseen ih => rw [ih, preorder_of_seen hseen]
  | case3 seen found n rest hseen e he =>
    rw [preorder_of_error hseen he]
    rfl
  | case4 seen found n rest hseen node hnode hleaf ih =>
    have henter : Entered.enter ⟨seen, found⟩ n node = ⟨seen.insert n, found.push n⟩ := by
      rw [Entered.enter, if_pos hleaf]
    rw [ih, preorder_of_fresh hseen hnode, Node.opened, if_pos hleaf, preorder_nil, henter]
    rfl
  | case5 seen found n rest hseen node hnode hleaf ih =>
    have henter : Entered.enter ⟨seen, found⟩ n node = ⟨seen.insert n, found⟩ := by
      rw [Entered.enter, if_neg hleaf]
    rw [ih, preorder_append, preorder_of_fresh hseen hnode, Node.opened, if_neg hleaf, henter]

/-- No leaf is found twice, because a leaf that was found is marked. -/
theorem nodup_leavesFrom {seen : NodeSet} {found : Array NodeId} {pending leaves : List NodeId}
    (hfound : found.toList.Nodup) (hmarked : ∀ l ∈ found, seen.contains l = true)
    (h : c.leavesFrom side seen found pending = .ok leaves) : leaves.Nodup := by
  fun_induction leavesFrom c side seen found pending with
  | case1 =>
    cases h
    exact hfound
  | case2 seen found n rest _ ih => exact ih hfound hmarked h
  | case3 => cases h
  | case4 seen found n rest hseen node _ _ ih =>
    refine ih (nodup_push hfound fun hmem => hseen (hmarked n hmem)) (fun l hl => ?_) h
    rw [NodeSet.contains_insert, Bool.or_eq_true, beq_iff_eq]
    rcases Array.mem_push.1 hl with hl | rfl
    · exact Or.inr (hmarked l hl)
    · exact Or.inl rfl
  | case5 seen found n rest _ node _ _ ih =>
    refine ih hfound (fun l hl => ?_) h
    rw [NodeSet.contains_insert, hmarked l hl, Bool.or_true]

/-! ## Leaves behind slots -/

/-- The leaves behind some nodes: in the order of the recursive walk, each once, and all of them. -/
structure Expands (c : Circuit P) (side : Side) (nodes leaves : List NodeId) : Prop where
  order : (c.preorder side {} nodes).map (·.leaves.toList) = .ok leaves
  nodup : leaves.Nodup
  mem : ∀ l, l ∈ leaves ↔ ∃ n ∈ nodes, c.Behind side n l

theorem expands_of_leavesBehind {nodes leaves : List NodeId} (h : c.leavesBehind side nodes = .ok leaves) :
    c.Expands side nodes leaves where
  order := by
    rw [← leavesFrom_eq_preorder]
    exact h
  nodup := nodup_leavesFrom List.nodup_nil (by simp) h
  mem l := by
    obtain ⟨seen, found, hall, rfl⟩ := gathering_leavesFrom (gathering_start c side nodes) h
    exact Array.mem_def.symm.trans hall.mem_found

theorem expands_of_slotLeaves {node : Node P} {lists : List (List NodeId)} (hn : c.node? n = some node)
    (h : c.slotLeaves side n = .ok lists) :
    List.Forall₂ (fun (port : Port) leaves => c.Expands side port.nodes leaves) (node.slots side) lists := by
  obtain ⟨node', hnode, hlists⟩ := bind_eq_ok.1 h
  cases hn.symm.trans (fetch_eq_ok.1 hnode)
  exact (mapM_eq_ok.1 hlists).imp fun _ _ => expands_of_leavesBehind

/-- All slots of a side together have the leaves behind all nodes of that side. -/
theorem mem_flatten_iff {ports : List Port} {lists : List (List NodeId)}
    (h : List.Forall₂ (fun (port : Port) leaves => c.Expands side port.nodes leaves) ports lists) {l : NodeId} :
    l ∈ lists.flatten ↔ ∃ m ∈ ports.flatMap Port.nodes, c.Behind side m l := by
  induction h with
  | nil => simp
  | cons hport _ ih => simp only [List.flatten_cons, List.flatMap_cons, List.mem_append, hport.mem, ih, or_and_right,
      exists_or]

/-! ## Pins -/

theorem node?_foldl_markPinned : ∀ (ns : List NodeId) (c : Circuit P) (m : NodeId),
    (ns.foldl markPinned c).node? m =
      (c.node? m).map fun node => { node with pinned := node.pinned || decide (m ∈ ns) }
  | [], c, m => by
    rw [List.foldl_nil]
    cases c.node? m <;> simp
  | n :: ns, c, m => by
    rw [List.foldl_cons, node?_foldl_markPinned ns, markPinned, node?_modify]
    by_cases hm : n = m
    · subst hm
      cases c.node? n <;> simp
    · cases c.node? m <;> simp [hm, Ne.symm hm]

/-- The leaves behind each slot of a node are listed as the recursive walk finds them, without repetition
and completely. Pinning the ports of the node pins all these leaves of both sides, and changes nothing
else. -/
theorem ports_expand (hports : c.PortsExist) {node : Node P} (hn : c.node? n = some node) :
    ∃ inputs outputs, c.slotLeaves .input n = .ok inputs ∧ c.slotLeaves .output n = .ok outputs ∧
      List.Forall₂ (fun (port : Port) leaves => c.Expands .input port.nodes leaves) node.inputs inputs ∧
      List.Forall₂ (fun (port : Port) leaves => c.Expands .output port.nodes leaves) node.outputs outputs ∧
      ∃ c', c.pinPorts n = .ok c' ∧ ∀ m, c'.node? m = (c.node? m).map fun found =>
        { found with pinned := found.pinned || decide (m ∈ inputs.flatten ++ outputs.flatten) } := by
  obtain ⟨inputs, hinputs, -⟩ := slotLeaves_eq_ok hports .input hn
  obtain ⟨outputs, houtputs, -⟩ := slotLeaves_eq_ok hports .output hn
  have hexposed : ∀ side, ∀ m ∈ node.exposed side, m < c.size := fun side m hm => hports.lt_size hn hm
  obtain ⟨front, hfront, hmem₁⟩ := leavesBehind_eq_ok hports .input (hexposed .input)
  obtain ⟨back, hback, hmem₂⟩ := leavesBehind_eq_ok hports .output (hexposed .output)
  have hall₁ := expands_of_slotLeaves hn hinputs
  have hall₂ := expands_of_slotLeaves hn houtputs
  have hpin : c.pinPorts n = .ok ((front ++ back).foldl markPinned c) := by
    rw [pinPorts, fetch_eq_ok.2 hn]
    simp only [bind, Except.bind, hfront, hback]
    rfl
  have hunion : ∀ m, m ∈ front ++ back ↔ m ∈ inputs.flatten ++ outputs.flatten := fun m => by
    rw [List.mem_append, List.mem_append, hmem₁, hmem₂, mem_flatten_iff hall₁, mem_flatten_iff hall₂]
    rfl
  refine ⟨inputs, outputs, hinputs, houtputs, hall₁, hall₂, _, hpin, fun m => ?_⟩
  rw [node?_foldl_markPinned]
  simp only [hunion]

/-- Two containers that hold each other, shared by a third one with repeated and empty buses. The last
gate is behind no port. -/
def warren : Circuit Unit :=
  let c := (Circuit.mk #[]).addLeaves [.gate .or, .gate .or, .gate .or, .gate .or]
  let c := (c.addContainer [.bus [5, 0]] [.single 2]).1
  let c := (c.addContainer [.single 1, .bus [4, 0]] [.single 2]).1
  (c.addContainer [.bus [4, 1], .single 5, .bus []] [.bus [5, 5, 2]]).1

theorem ports_expand_warren : warren.PortsExist ∧ (∃ node, warren.node? 6 = some node) ∧
    warren.slotLeaves .input 6 = .ok [[1, 0], [1, 0], []] ∧ warren.slotLeaves .output 6 = .ok [[2]] ∧
    warren.Expands .input [4, 1] [1, 0] ∧ warren.Expands .output [5, 5, 2] [2] ∧
    ∃ c', warren.pinPorts 6 = .ok c' ∧ c'.isPinned 0 = true ∧ c'.isPinned 3 = false ∧
      c'.node? 5 = warren.node? 5 := by
  have hports : warren.PortsExist := of_decide_eq_true (by cbv)
  have hnode : warren.node? 6 = some
      { kind := .container, inputs := [.bus [4, 1], .single 5, .bus []], outputs := [.bus [5, 5, 2]] } := by cbv
  have hinputs : warren.slotLeaves .input 6 = .ok [[1, 0], [1, 0], []] := by cbv
  have houtputs : warren.slotLeaves .output 6 = .ok [[2]] := by cbv
  obtain ⟨inputs, outputs, hinputs', houtputs', hall₁, hall₂, c', hpin, hnodes⟩ := ports_expand hports hnode
  cases hinputs.symm.trans hinputs'
  cases houtputs.symm.trans houtputs'
  obtain ⟨hfirst, -⟩ := List.forall₂_cons.1 hall₁
  obtain ⟨hout, -⟩ := List.forall₂_cons.1 hall₂
  refine ⟨hports, ⟨_, hnode⟩, hinputs, houtputs, hfirst, hout, c', hpin, ?_, ?_, ?_⟩
  · rw [isPinned, hnodes]
    cbv
  · rw [isPinned, hnodes]
    cbv
  · rw [hnodes]
    cbv

end Circuit

end Netlist
