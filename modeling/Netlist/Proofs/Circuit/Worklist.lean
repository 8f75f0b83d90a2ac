/-
The loop of a connection, pass by pass. A pass takes the next task off the list of what is pending, and
the contract of a fresh pair puts its own tasks in front. Containers may hold themselves or each other,
so the list can grow in any pass; but a pair is fresh only once, and its contract asks for no more tasks
than there are pairs behind matching slots. So the loop ends, with no more passes than such pairs of all
contracts that were evaluated, and one for the connection itself.
-/
import Mathlib.Algebra.BigOperators.Group.List.Lemmas
import Mathlib.Algebra.Order.Ring.Nat
import Netlist.Proofs.Circuit.Joining

namespace Netlist

variable {P : Type}

namespace Circuit

/-! ## Passes -/

/-- A connection under way: the pairs that were met, what is done, and what is pending, next task first. -/
structure Progress where
  met : PairSet := {}
  done : Plan := {}
  pending : List Task

/-- Takes off the next task: records its edge, or passes its pair by if that was met before, or evaluates
the contract of the pair. A contract that is refused leaves nothing to do. -/
def pass (c : Circuit P) (lenient : Bool) (now : Progress) : Progress :=
  match now.pending with
  | [] => now
  | .link a b :: rest => { now with done.edges := now.done.edges.push (a, b), pending := rest }
  | .join s r :: rest =>
    if now.met.contains (s, r) then { now with pending := rest }
    else
      let done := { now.done with visited := now.done.visited.push (s, r) }
      match c.contract lenient s r with
      | .error e => ⟨now.met, { done with failure := some e }, []⟩
      | .ok tasks => ⟨now.met.insert (s, r), done, tasks ++ rest⟩

section Pass

variable {c : Circuit P} {lenient : Bool} {met : PairSet} {done : Plan} {s r : NodeId} {rest : List Task}

theorem pass_link {a b : NodeId} : c.pass lenient ⟨met, done, .link a b :: rest⟩ =
    ⟨met, { done with edges := done.edges.push (a, b) }, rest⟩ :=
  rfl

theorem pass_of_met (hmet : met.contains (s, r) = true) :
    c.pass lenient ⟨met, done, .join s r :: rest⟩ = ⟨met, done, rest⟩ :=
  if_pos hmet

theorem pass_of_error (hmet : ¬ met.contains (s, r) = true) {e : Failure}
    (h : c.contract lenient s r = .error e) : c.pass lenient ⟨met, done, .join s r :: rest⟩ =
      ⟨met, { done with visited := done.visited.push (s, r), failure := some e }, []⟩ := by
  simp only [pass, if_neg hmet, h]

theorem pass_of_ok (hmet : ¬ met.contains (s, r) = true) {tasks : List Task}
    (h : c.contract lenient s r = .ok tasks) : c.pass lenient ⟨met, done, .join s r :: rest⟩ =
      ⟨met.insert (s, r), { done with visited := done.visited.push (s, r) }, tasks ++ rest⟩ := by
  simp only [pass, if_neg hmet, h]

end Pass

/-! ## The work of contracts -/

/-- The sizes of the slots of a sender and a receiver, multiplied position by position and added up. -/
def slotProducts (c : Circuit P) (p : NodeId × NodeId) : Nat :=
  match c.node? p.1, c.node? p.2 with
  | some s, some r =>
    (List.zipWith (fun output input => output.nodes.length * input.nodes.length) s.outputs r.inputs).sum
  | _, _ => 0

/-- The slot products of some pairs, added up. -/
def work (c : Circuit P) (visited : Array (NodeId × NodeId)) : Nat := (visited.toList.map c.slotProducts).sum

variable {c : Circuit P} {lenient : Bool} {met : PairSet} {done : Plan} {s r : NodeId} {pending : List Task}

theorem work_push (visited : Array (NodeId × NodeId)) (p : NodeId × NodeId) :
    c.work (visited.push p) = c.work visited + c.slotProducts p := by
  simp [work]

theorem length_matchedPairs (outputs inputs : List Port) : (matchedPairs outputs inputs).length =
    (List.zipWith (fun output input => output.nodes.length * input.nodes.length) outputs inputs).sum := by
  rw [matchedPairs, List.length_flatMap, ← List.map_uncurry_zip_eq_zipWith]
  congr 1
  refine List.map_congr_left fun slots _ => ?_
  simp [slotPairs, List.length_flatMap, Function.uncurry]

/-- A contract asks for at most one task for each pair behind matching slots. -/
theorem length_tasks_le (hports : c.PortsExist) {tasks : List Task} (h : c.contract lenient s r = .ok tasks) :
    tasks.length ≤ c.slotProducts (s, r) := by
  have hpair := mem_pairs.1 (mem_pairs_of_contract h)
  obtain ⟨sender, hs⟩ := node?_of_lt (mem_ids.1 hpair.1)
  obtain ⟨receiver, hr⟩ := node?_of_lt (mem_ids.1 hpair.2)
  obtain ⟨-, -, -, rfl⟩ := (contract_eq_ok hports hs hr).1 h
  have hle := List.length_filterMap_le (c.taskFor (s, r)) (matchedPairs sender.outputs receiver.inputs)
  rw [length_matchedPairs] at hle
  simpa only [slotProducts, hs, hr] using hle

/-! ## The end of the loop -/

/-- The passes end with the plan. There are as many as tasks are pending, and at most one more for each
pair behind matching slots of the contracts that are evaluated from here on. -/
theorem exists_passes (hports : c.PortsExist) (lenient : Bool) (met : PairSet) (done : Plan)
    (pending : List Task) : ∃ k met',
      (c.pass lenient)^[k] ⟨met, done, pending⟩ = ⟨met', c.planFrom lenient met done pending, []⟩ ∧
      k + c.work done.visited ≤ pending.length + c.work (c.planFrom lenient met done pending).visited := by
  fun_induction planFrom c lenient met done pending with
  | case1 met done => exact ⟨0, met, rfl, by simp⟩
  | case2 met done a b rest ih =>
    obtain ⟨k, met', hk, hle⟩ := ih
    refine ⟨k + 1, met', ?_, ?_⟩
    · rw [Function.iterate_succ_apply, pass_link, hk]
    · simp only [List.length_cons] at hle ⊢
      omega
  | case3 met done s r rest hmet ih =>
    obtain ⟨k, met', hk, hle⟩ := ih
    refine ⟨k + 1, met', ?_, ?_⟩
    · rw [Function.iterate_succ_apply, pass_of_met hmet, hk]
    · rw [List.length_cons]
      omega
  | case4 met done s r rest hmet e he =>
    refine ⟨1, met, pass_of_error hmet he, ?_⟩
    rw [List.length_cons, work_push]
    omega
  | case5 met done s r rest hmet tasks htasks ih =>
    obtain ⟨k, met', hk, hle⟩ := ih
    have htasks' := length_tasks_le hports htasks
    refine ⟨k + 1, met', ?_, ?_⟩
    · rw [Function.iterate_succ_apply, pass_of_ok hmet htasks, hk]
    · rw [work_push, List.length_append] at hle
      rw [List.length_cons]
      omega

/-- Whether a task records an edge. -/
def Task.isLink : Task → Bool
  | .join .. => false
  | .link .. => true

/-- Every edge is pending at first, or a contract asks for it that is evaluated on the way. -/
theorem size_edges_planFrom (hports : c.PortsExist) (lenient : Bool) (met : PairSet) (done : Plan)
    (pending : List Task) :
    (c.planFrom lenient met done pending).edges.size + c.work done.visited ≤
      done.edges.size + pending.countP Task.isLink + c.work (c.planFrom lenient met done pending).visited := by
  fun_induction planFrom c lenient met done pending with
  | case1 => simp
  | case2 met done a b rest ih =>
    simp only [Array.size_push] at ih
    rw [List.countP_cons_of_pos rfl]
    omega
  | case3 met done s r rest _ ih => rwa [List.countP_cons_of_neg (by simp [Task.isLink])]
  | case4 met done s r rest _ e _ =>
    simp only [work_push]
    omega
  | case5 met done s r rest _ tasks htasks ih =>
    have hlinks := (List.countP_le_length (p := Task.isLink)).trans (length_tasks_le hports htasks)
    simp only [work_push, List.countP_append] at ih
    rw [List.countP_cons_of_neg (by simp [Task.isLink])]
    omega

/-! ## The contracts that are evaluated -/

/-- What holds of the pairs that a plan has visited so far: they are pairs of nodes, all met and none of
them twice. Whatever is pending is about two nodes too. -/
structure Visiting (c : Circuit P) (met : PairSet) (visited : Array (NodeId × NodeId)) (pending : List Task) :
    Prop where
  nodup : visited.toList.Nodup
  met : ∀ p ∈ visited, met.contains p = true
  exist : ∀ p ∈ visited, p ∈ c.pairs
  pending : ∀ task ∈ pending, task.pair ∈ c.pairs

namespace Visiting

variable {visited : Array (NodeId × NodeId)} {task : Task} {rest : List Task}

theorem next (h : Visiting c met visited (task :: rest)) : Visiting c met visited rest :=
  { h with pending := fun task' htask => h.pending task' (List.mem_cons_of_mem _ htask) }

/-- A fresh pair is visited, whatever comes of it. -/
theorem visit (h : Visiting c met visited (.join s r :: rest)) (hmet : ¬ met.contains (s, r) = true) :
    (visited.push (s, r)).toList.Nodup ∧ ∀ p ∈ visited.push (s, r), p ∈ c.pairs := by
  refine ⟨nodup_push h.nodup fun hmem => hmet (h.met _ hmem), fun p hp => ?_⟩
  rcases Array.mem_push.1 hp with hp | rfl
  · exact h.exist p hp
  · exact h.pending _ (List.mem_cons_self ..)

theorem meet (hports : c.PortsExist) (h : Visiting c met visited (.join s r :: rest))
    (hmet : ¬ met.contains (s, r) = true) {tasks : List Task} (htasks : c.contract lenient s r = .ok tasks) :
    Visiting c (met.insert (s, r)) (visited.push (s, r)) (tasks ++ rest) := by
  obtain ⟨hnodup, hexist⟩ := h.visit hmet
  refine ⟨hnodup, fun p hp => ?_, hexist, fun task htask => ?_⟩
  · rw [PairSet.contains_insert, Bool.or_eq_true, beq_iff_eq]
    rcases Array.mem_push.1 hp with hp | rfl
    · exact Or.inr (h.met p hp)
    · exact Or.inl rfl
  · rcases List.mem_append.1 htask with htask | htask
    · obtain ⟨h₁, h₂⟩ := ((contracted_of_contract hports htasks).matched task htask).lt_size hports
      exact mem_pairs.2 ⟨mem_ids.2 h₁, mem_ids.2 h₂⟩
    · exact h.next.pending task htask

end Visiting

/-- No pair is visited twice, and every pair that is visited consists of two nodes. -/
theorem nodup_visited (hports : c.PortsExist) (h : Visiting c met done.visited pending) :
    (c.planFrom lenient met done pending).visited.toList.Nodup ∧
      ∀ p ∈ (c.planFrom lenient met done pending).visited, p ∈ c.pairs := by
  fun_induction planFrom c lenient met done pending with
  | case1 => exact ⟨h.nodup, h.exist⟩
  | case2 met done a b rest ih => exact ih h.next
  | case3 met done s r rest _ ih => exact ih h.next
  | case4 met done s r rest hmet e _ => exact h.visit hmet
  | case5 met done s r rest hmet tasks htasks ih => exact ih (h.meet hports hmet htasks)

theorem length_pairs (c : Circuit P) : c.pairs.length = c.size * c.size := by
  simp [pairs, ids, List.length_flatMap]

/-! ## The edges that are added -/

/-- A change of one entry that adds `d` to its length adds `d` to the whole. -/
theorem length_flatMap_modify {α β : Type} {g : α → List β} {f : α → α} {d : Nat}
    (hf : ∀ a, (g (f a)).length = (g a).length + d) : ∀ {l : List α} {n : Nat}, n < l.length →
      ((l.modify n f).flatMap g).length = (l.flatMap g).length + d
  | a :: l, 0, _ => by
    simp only [List.modify_zero_cons, List.flatMap_cons, List.length_append, hf]
    omega
  | a :: l, n + 1, hn => by
    have ih := length_flatMap_modify (g := g) hf (Nat.lt_of_succ_lt_succ hn)
    simp only [List.modify_succ_cons, List.flatMap_cons, List.length_append, ih]
    omega

theorem edgeCount_modify {n : NodeId} (hn : n < c.size) {f : Node P → Node P} {d : Nat}
    (hf : ∀ node, (f node).forward.toList.length = node.forward.toList.length + d) :
    (c.modify n f).edgeCount = c.edgeCount + d := by
  unfold edgeCount modify
  rw [Array.toList_modify]
  exact length_flatMap_modify hf (by simpa [size] using hn)

theorem edgeCount_link {a b : NodeId} (ha : a < c.size) (hb : b < c.size) :
    (c.link a b).edgeCount = c.edgeCount + 1 := by
  calc (c.link a b).edgeCount
      = (c.modify a fun node => { node with forward := node.forward.push b }).edgeCount + 0 :=
        edgeCount_modify (by simpa using hb) fun _ => rfl
    _ = c.edgeCount + 1 := edgeCount_modify ha fun node => by simp

theorem edgeCount_linkAll : ∀ {edges : List (NodeId × NodeId)} {c : Circuit P},
    (∀ e ∈ edges, e.1 < c.size ∧ e.2 < c.size) → (c.linkAll edges).edgeCount = c.edgeCount + edges.length
  | [], _, _ => rfl
  | e :: edges, c, h => by
    obtain ⟨ha, hb⟩ := h e (List.mem_cons_self ..)
    have hsize : (c.link e.1 e.2).size = c.size := by simp [link]
    have ih : ((c.link e.1 e.2).linkAll edges).edgeCount = (c.link e.1 e.2).edgeCount + edges.length :=
      edgeCount_linkAll fun e' he' => hsize ▸ h e' (List.mem_cons_of_mem _ he')
    show ((c.link e.1 e.2).linkAll edges).edgeCount = _
    rw [ih, edgeCount_link ha hb, List.length_cons]
    omega

/-- A connection adds one edge for each one of its plan. -/
theorem edgeCount_connect : (c.connect s r lenient).circuit.edgeCount =
    c.edgeCount + (c.plan s r lenient).edges.size := by
  refine edgeCount_linkAll fun e he => ?_
  have hjoins : c.JoinsLeaves e := joinsLeaves_of_planFrom (by simp) (by simp) e (Array.mem_def.2 he)
  exact ⟨lt_size_of_cell? hjoins.1, lt_size_of_cell? hjoins.2⟩

/-! ## Connections -/

/-- The loop of a connection ends with its plan, however containers hold themselves or each other. It
evaluates no contract twice, so there are at most as many evaluations as pairs of nodes; the slot products
of the pairs whose contract was evaluated bound the edges that are added, and the passes but one. -/
theorem connect_ends (hports : c.PortsExist) (hs : s < c.size) (hr : r < c.size) (lenient : Bool) :
    (∃ k ≤ c.work (c.plan s r lenient).visited + 1, ∃ met,
      (c.pass lenient)^[k] ⟨{}, {}, [.join s r]⟩ = ⟨met, c.plan s r lenient, []⟩) ∧
    (c.plan s r lenient).visited.toList.Nodup ∧ (c.plan s r lenient).visited.size ≤ c.size * c.size ∧
    ∃ added, (c.connect s r lenient).circuit.edgeCount = c.edgeCount + added ∧
      added ≤ c.work (c.plan s r lenient).visited := by
  have hstart : Visiting c {} ({} : Plan).visited [.join s r] := by
    refine ⟨by simp, by simp, by simp, fun task htask => ?_⟩
    rw [List.mem_singleton.1 htask]
    exact mem_pairs.2 ⟨mem_ids.2 hs, mem_ids.2 hr⟩
  obtain ⟨hnodup, hexist⟩ : (c.plan s r lenient).visited.toList.Nodup ∧
      ∀ p ∈ (c.plan s r lenient).visited, p ∈ c.pairs := nodup_visited hports hstart
  obtain ⟨k, met, hk, hle⟩ := exists_passes hports lenient {} {} [.join s r]
  have hedges := size_edges_planFrom hports lenient {} {} [.join s r]
  refine ⟨⟨k, ?_, met, hk⟩, hnodup, ?_, _, edgeCount_connect, ?_⟩
  · rw [Nat.add_comm]
    exact hle
  · rw [← length_pairs]
    exact (hnodup.subperm fun p hp => hexist p (Array.mem_def.2 hp)).length_le
  · rw [← Nat.zero_add (c.work _)]
    exact hedges

/-- Two containers that hold each other on the output side, and one that holds itself on the input side. -/
def mirrors : Circuit Unit :=
  let c := (Circuit.mk #[]).addLeaves [.gate .or, .gate .or]
  let c := (c.addContainer [] [.bus [0, 3]]).1
  let c := (c.addContainer [] [.bus [2, 0]]).1
  (c.addContainer [.bus [1, 4]] []).1

theorem connect_ends_mirrors : mirrors.PortsExist ∧ 2 < mirrors.size ∧ 4 < mirrors.size ∧
    mirrors.plan 2 4 false = { edges := #[(0, 1), (0, 1), (0, 1), (0, 1), (0, 1)],
                               visited := #[(2, 4), (0, 4), (3, 1), (2, 1), (3, 4)] } ∧
    (∃ k ≤ 15, ∃ met,
      (mirrors.pass false)^[k] ⟨{}, {}, [.join 2 4]⟩ = ⟨met, mirrors.plan 2 4 false, []⟩) ∧
    [(2, 4), (0, 4), (3, 1), (2, 1), (3, 4)].Nodup ∧ 5 ≤ mirrors.size * mirrors.size ∧
    ∃ added, (mirrors.connect 2 4 false).circuit.edgeCount = mirrors.edgeCount + added ∧ added ≤ 14 := by
  have hports : mirrors.PortsExist := of_decide_eq_true (by cbv)
  have hsender : 2 < mirrors.size := of_decide_eq_true (by cbv)
  have hreceiver : 4 < mirrors.size := of_decide_eq_true (by cbv)
  have hplan : mirrors.plan 2 4 false = { edges := #[(0, 1), (0, 1), (0, 1), (0, 1), (0, 1)],
                                          visited := #[(2, 4), (0, 4), (3, 1), (2, 1), (3, 4)] } := by cbv
  have hwork : mirrors.work (mirrors.plan 2 4 false).visited = 14 := by
    rw [hplan]
    cbv
  obtain ⟨hloop, hnodup, hsize, hadded⟩ := connect_ends hports hsender hreceiver false
  rw [hwork] at hloop hadded
  rw [hplan] at hnodup hsize
  exact ⟨hports, hsender, hreceiver, hplan, hloop, hnodup, hsize, hadded⟩

end Circuit

end Netlist
