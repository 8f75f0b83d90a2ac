/-
The leaves behind the ports of a node. A container opens the nodes behind its slots and a leaf opens
nothing, so a leaf is behind a port if it is reached by opening containers on that side. The walk
over nested containers finds exactly these leaves, also if containers are shared or hold themselves.
-/
import Mathlib.Logic.Relation
import Netlist.Circuit.Leaves
import Netlist.Proofs.Circuit.Ports
import Netlist.Proofs.Circuit.Survey

namespace Netlist

open Relation (ReflTransGen TransGen)

variable {P : Type}

namespace Circuit

/-! ## Opening containers -/

/-- A container that holds a node behind its slots. -/
def Opens (c : Circuit P) (side : Side) (n m : NodeId) : Prop :=
  ∃ node, c.node? n = some node ∧ node.isLeaf = false ∧ m ∈ node.exposed side

/-- A leaf that is reached from a node by opening containers on one side. -/
def Behind (c : Circuit P) (side : Side) (n l : NodeId) : Prop :=
  (c.cell? l).isSome ∧ ReflTransGen (c.Opens side) n l

variable {c : Circuit P} {side : Side}

theorem PortsExist.lt_size (hports : c.PortsExist) {n m : NodeId} {node : Node P} (hn : c.node? n = some node)
    (hm : m ∈ node.exposed side) : m < c.size := by
  refine hports node (Array.mem_of_getElem? hn) m ?_
  cases side with
  | input => exact List.mem_append_left _ hm
  | output => exact List.mem_append_right _ hm

theorem not_opens_of_leaf {n m : NodeId} (hn : (c.cell? n).isSome) : ¬ c.Opens side n m := by
  rintro ⟨node, hnode, hcontainer, -⟩
  rw [isLeaf_eq hnode, hn] at hcontainer
  cases hcontainer

theorem eq_of_leaf_leads {n m : NodeId} (hn : (c.cell? n).isSome) (h : ReflTransGen (c.Opens side) n m) :
    m = n := by
  rcases ReflTransGen.cases_head h with heq | ⟨k, hk, -⟩
  · exact heq.symm
  · exact absurd hk (not_opens_of_leaf hn)

theorem OwnPorts.slots_eq (hown : c.OwnPorts) {n : NodeId} {node : Node P} (hn : c.node? n = some node)
    (hleaf : node.isLeaf = true) : node.slots side = [.single n] := by
  obtain ⟨hinputs, houtputs⟩ := hown n node hn hleaf
  cases side with
  | input => exact hinputs
  | output => exact houtputs

/-- What stands behind the slots of a node is reached from it: a leaf holds only itself. -/
theorem OwnPorts.leads (hown : c.OwnPorts) {n m : NodeId} {node : Node P} (hn : c.node? n = some node)
    (hm : m ∈ node.exposed side) : ReflTransGen (c.Opens side) n m := by
  cases hleaf : node.isLeaf with
  | false => exact .single ⟨node, hn, hleaf, hm⟩
  | true =>
    rw [Node.exposed, hown.slots_eq hn hleaf] at hm
    obtain rfl : m = n := by simpa [Port.nodes] using hm
    exact .refl

/-! ## The walk over containers -/

/-- What holds while the leaves behind `start` are gathered: nothing is entered that `start` does not
lead to, and what an entered container opens is entered too or still pending. -/
structure Gathering (c : Circuit P) (side : Side) (start : List NodeId) (seen : NodeSet)
    (found : Array NodeId) (pending : List NodeId) : Prop where
  found : ∀ l, l ∈ found ↔ seen.contains l = true ∧ (c.cell? l).isSome
  led : ∀ n, seen.contains n = true ∨ n ∈ pending → ∃ s ∈ start, ReflTransGen (c.Opens side) s n
  start : ∀ s ∈ start, seen.contains s = true ∨ s ∈ pending
  next : ∀ n m, seen.contains n = true → c.Opens side n m → seen.contains m = true ∨ m ∈ pending

namespace Gathering

variable {start rest : List NodeId} {seen : NodeSet} {found : Array NodeId} {n : NodeId}

theorem skip (h : Gathering c side start seen found (n :: rest)) (hn : seen.contains n = true) :
    Gathering c side start seen found rest := by
  have hkeep : ∀ m, seen.contains m = true ∨ m ∈ n :: rest → seen.contains m = true ∨ m ∈ rest := by
    rintro m (hm | hm)
    · exact Or.inl hm
    · rcases List.mem_cons.1 hm with rfl | hm
      · exact Or.inl hn
      · exact Or.inr hm
  refine ⟨h.found, fun m hm => h.led m ?_, fun s hs => hkeep s (h.start s hs),
    fun m k hm hk => hkeep k (h.next m k hm hk)⟩
  exact hm.imp_right (List.mem_cons_of_mem _)

/-- A node is entered: it is noted if it is a leaf, and what it opens is pending. -/
theorem enter (h : Gathering c side start seen found (n :: rest)) {found' : Array NodeId} {opened : List NodeId}
    (hfound : ∀ l, l ∈ found' ↔ l ∈ found ∨ (l = n ∧ (c.cell? l).isSome))
    (hopened : ∀ m, m ∈ opened ↔ c.Opens side n m) :
    Gathering c side start (seen.insert n) found' (opened ++ rest) := by
  have hseen : ∀ m, (seen.insert n).contains m = true ↔ m = n ∨ seen.contains m = true := by simp
  obtain ⟨s, hs, hlead⟩ := h.led n (Or.inr (List.mem_cons_self ..))
  have hkeep : ∀ m, seen.contains m = true ∨ m ∈ n :: rest →
      (seen.insert n).contains m = true ∨ m ∈ opened ++ rest := by
    simp only [hseen, List.mem_cons, List.mem_append]
    tauto
  refine ⟨fun l => ?_, fun m hm => ?_, fun m hm => hkeep m (h.start m hm), fun m k hm hk => ?_⟩
  · rw [hfound, hseen, h.found]
    tauto
  · rw [hseen, List.mem_append, hopened] at hm
    rcases hm with (rfl | hm) | hm | hm
    · exact ⟨s, hs, hlead⟩
    · exact h.led m (Or.inl hm)
    · exact ⟨s, hs, hlead.tail hm⟩
    · exact h.led m (Or.inr (List.mem_cons_of_mem _ hm))
  · rcases (hseen m).1 hm with rfl | hm
    · exact Or.inr (List.mem_append_left _ ((hopened k).2 hk))
    · exact hkeep k (h.next m k hm hk)

/-- When nothing is pending, exactly the leaves behind `start` have been found. -/
theorem mem_found (h : Gathering c side start seen found []) {l : NodeId} :
    l ∈ found ↔ ∃ s ∈ start, c.Behind side s l := by
  have hclosed : ∀ s, seen.contains s = true → ∀ m, ReflTransGen (c.Opens side) s m → seen.contains m = true := by
    intro s hs m hm
    induction hm with
    | refl => exact hs
    | tail _ hk ih => simpa using h.next _ _ ih hk
  constructor
  · intro hl
    obtain ⟨hseen, hleaf⟩ := (h.found l).1 hl
    obtain ⟨s, hs, hlead⟩ := h.led l (Or.inl hseen)
    exact ⟨s, hs, hleaf, hlead⟩
  · rintro ⟨s, hs, hleaf, hlead⟩
    have hseen : seen.contains s = true := by simpa using h.start s hs
    exact (h.found l).2 ⟨hclosed s hseen l hlead, hleaf⟩

end Gathering

theorem gathering_start (c : Circuit P) (side : Side) (start : List NodeId) :
    Gathering c side start {} #[] start :=
  ⟨by simp, fun n hn => ⟨n, by simpa using hn, .refl⟩, fun _ hs => Or.inr hs, fun n m hn => by simp at hn⟩

/-- The invariant holds to the end of the walk. -/
theorem gathering_leavesFrom {start pending : List NodeId} {seen : NodeSet} {found : Array NodeId}
    {leaves : List NodeId} (h : Gathering c side start seen found pending)
    (h' : c.leavesFrom side seen found pending = .ok leaves) :
    ∃ seen' found', Gathering c side start seen' found' [] ∧ found'.toList = leaves := by
  fun_induction leavesFrom c side seen found pending with
  | case1 seen found =>
    cases h'
    exact ⟨seen, found, h, rfl⟩
  | case2 seen found n rest hn ih => exact ih (h.skip hn) h'
  | case3 => cases h'
  | case4 seen found n rest hn node hnode hleaf ih =>
    have hnode := fetch_eq_ok.1 hnode
    have hcell : (c.cell? n).isSome := isLeaf_eq hnode ▸ hleaf
    have hopened : ∀ m, m ∈ ([] : List NodeId) ↔ c.Opens side n m := by simpa using fun m => not_opens_of_leaf hcell
    refine ih (h.enter (fun l => ?_) hopened) h'
    rw [Array.mem_push]
    constructor
    · exact Or.imp_right fun hl => ⟨hl, hl ▸ hcell⟩
    · exact Or.imp_right And.left
  | case5 seen found n rest hn node hnode hleaf ih =>
    have hnode := fetch_eq_ok.1 hnode
    have hcontainer : node.isLeaf = false := Bool.eq_false_iff.2 hleaf
    refine ih (h.enter (fun l => ?_) fun m => ?_) h'
    · constructor
      · exact Or.inl
      · rintro (hl | ⟨rfl, hl⟩)
        · exact hl
        · rw [← isLeaf_eq hnode, hcontainer] at hl
          cases hl
    · constructor
      · exact fun hm => ⟨node, hnode, hcontainer, hm⟩
      · rintro ⟨other, hother, -, hm⟩
        cases hnode.symm.trans hother
        exact hm

/-- The walk fails only at a node that does not exist. -/
theorem leavesFrom_eq_ok (hports : c.PortsExist) (side : Side) (seen : NodeSet) (found : Array NodeId)
    (pending : List NodeId) (hpending : ∀ n ∈ pending, n < c.size) :
    ∃ leaves, c.leavesFrom side seen found pending = .ok leaves := by
  fun_induction leavesFrom c side seen found pending with
  | case1 seen found => exact ⟨_, rfl⟩
  | case2 seen found n rest _ ih => exact ih fun m hm => hpending m (List.mem_cons_of_mem _ hm)
  | case3 seen found n rest _ e he =>
    obtain ⟨node, hnode⟩ := node?_of_lt (hpending n (List.mem_cons_self ..))
    rw [fetch_eq_ok.2 hnode] at he
    cases he
  | case4 seen found n rest _ node _ _ ih => exact ih fun m hm => hpending m (List.mem_cons_of_mem _ hm)
  | case5 seen found n rest _ node hnode _ ih =>
    refine ih fun m hm => ?_
    rcases List.mem_append.1 hm with hm | hm
    · exact hports.lt_size (fetch_eq_ok.1 hnode) hm
    · exact hpending m (List.mem_cons_of_mem _ hm)

/-! ## Leaves behind ports -/

/-- If the ports exist, the leaves behind some nodes are found, and all of them. -/
theorem leavesBehind_eq_ok (hports : c.PortsExist) (side : Side) {nodes : List NodeId}
    (hnodes : ∀ n ∈ nodes, n < c.size) : ∃ leaves, c.leavesBehind side nodes = .ok leaves ∧
      ∀ l, l ∈ leaves ↔ ∃ n ∈ nodes, c.Behind side n l := by
  obtain ⟨leaves, hleaves⟩ := leavesFrom_eq_ok hports side {} #[] nodes hnodes
  obtain ⟨seen, found, h, rfl⟩ := gathering_leavesFrom (gathering_start c side nodes) hleaves
  exact ⟨_, hleaves, fun l => Array.mem_def.symm.trans h.mem_found⟩

theorem isSome_cell?_of_mem_leavesBehind {nodes leaves : List NodeId} (h : c.leavesBehind side nodes = .ok leaves)
    {l : NodeId} (hl : l ∈ leaves) : (c.cell? l).isSome := by
  obtain ⟨seen, found, hall, rfl⟩ := gathering_leavesFrom (gathering_start c side nodes) h
  exact ((hall.found l).1 (Array.mem_def.2 hl)).2

/-- Nothing but leaves is behind slots. -/
theorem isSome_cell?_of_mem_slotLeaves {n : NodeId} {lists : List (List NodeId)}
    (h : c.slotLeaves side n = .ok lists) {leaves : List NodeId} (hleaves : leaves ∈ lists) {l : NodeId}
    (hl : l ∈ leaves) : (c.cell? l).isSome := by
  obtain ⟨node, -, h⟩ := bind_eq_ok.1 h
  obtain ⟨port, -, hport⟩ := exists_of_mem_mapM h _ hleaves
  exact isSome_cell?_of_mem_leavesBehind hport hl

/-- One list for each slot, with the leaves behind it. -/
theorem slotLeaves_eq_ok (hports : c.PortsExist) (side : Side) {n : NodeId} {node : Node P}
    (hn : c.node? n = some node) : ∃ lists, c.slotLeaves side n = .ok lists ∧
      List.Forall₂ (fun (port : Port) leaves => ∀ l, l ∈ leaves ↔ ∃ m ∈ port.nodes, c.Behind side m l)
        (node.slots side) lists := by
  obtain ⟨lists, hlists, hall⟩ := exists_mapM_eq_ok fun port hport => leavesBehind_eq_ok hports side
    fun m hm => hports.lt_size hn (List.mem_flatMap.2 ⟨port, hport, hm⟩)
  exact ⟨lists, bind_eq_ok.2 ⟨node, fetch_eq_ok.2 hn, hlists⟩, hall⟩

end Circuit

end Netlist
