/-
The contract of a connection taken apart with no memory of the pairs that were met: a pair behind
matching slots is an edge or has the same contract in turn, each time it is met. Where no container
holds itself, directly or further in, every pair comes to an end in exactly one way, and no pair is
met on the way down from itself.
-/
import Netlist.Proofs.Circuit.Joining
import Netlist.Proofs.Sequence

namespace Netlist

open Relation (ReflTransGen TransGen)

variable {P : Type}

namespace Circuit

/-! ## The plain contract -/

/-- What a contract comes to: the edges in order, the pairs whose contract is looked at, each as often
as it is, and the failure that ends it. -/
structure Unfolding where
  edges : List (NodeId × NodeId) := []
  visited : List (NodeId × NodeId) := []
  failure : Option Failure := none

/-- An edge for two leaves, and the contract for any other pair. -/
def plainTask (c : Circuit P) (pair : NodeId × NodeId) : Task :=
  if (c.cell? pair.1).isSome && (c.cell? pair.2).isSome then .link pair.1 pair.2 else .join pair.1 pair.2

/-- What is asked for slot by slot, with the sender's nodes in the outer loop. -/
def plainTasks (c : Circuit P) (sender receiver : Node P) : List Task :=
  (matchedPairs sender.outputs receiver.inputs).map c.plainTask

/-- Some tasks, one after the other, come to an unfolding. The first failure ends them. -/
inductive Unfolds (c : Circuit P) (lenient : Bool) : List Task → Unfolding → Prop where
  | done : Unfolds c lenient [] {}
  | link {a b : NodeId} {rest : List Task} {next : Unfolding} (hrest : Unfolds c lenient rest next) :
      Unfolds c lenient (.link a b :: rest) { next with edges := (a, b) :: next.edges }
  | refuse {s r : NodeId} {sender receiver : Node P} {rest : List Task} {failure : Failure}
      (hs : c.node? s = some sender) (hr : c.node? r = some receiver)
      (hrefused : refusal? lenient s r sender receiver = some failure) :
      Unfolds c lenient (.join s r :: rest) { visited := [(s, r)], failure := some failure }
  | stop {s r : NodeId} {sender receiver : Node P} {rest : List Task} {inner : Unfolding}
      (hs : c.node? s = some sender) (hr : c.node? r = some receiver)
      (hmet : refusal? lenient s r sender receiver = none)
      (hinner : Unfolds c lenient (c.plainTasks sender receiver) inner) (hfailed : inner.failure ≠ none) :
      Unfolds c lenient (.join s r :: rest) { inner with visited := (s, r) :: inner.visited }
  | join {s r : NodeId} {sender receiver : Node P} {rest : List Task} {inner next : Unfolding}
      (hs : c.node? s = some sender) (hr : c.node? r = some receiver)
      (hmet : refusal? lenient s r sender receiver = none)
      (hinner : Unfolds c lenient (c.plainTasks sender receiver) inner) (hsucceeded : inner.failure = none)
      (hrest : Unfolds c lenient rest next) :
      Unfolds c lenient (.join s r :: rest)
        ⟨inner.edges ++ next.edges, (s, r) :: inner.visited ++ next.visited, next.failure⟩

variable {c : Circuit P} {lenient : Bool} {s r : NodeId} {sender receiver : Node P} {tasks rest : List Task}
  {run run' inner : Unfolding}

/-- How a contract can end: it is refused, it fails further in, or the tasks behind it are done. -/
theorem Unfolds.join_cases (h : c.Unfolds lenient (.join s r :: rest) run) (hs : c.node? s = some sender)
    (hr : c.node? r = some receiver) :
    (∃ failure, refusal? lenient s r sender receiver = some failure ∧
      run = { visited := [(s, r)], failure := some failure }) ∨
    refusal? lenient s r sender receiver = none ∧
      ∃ inner, c.Unfolds lenient (c.plainTasks sender receiver) inner ∧
        (inner.failure ≠ none ∧ run = { inner with visited := (s, r) :: inner.visited } ∨
          inner.failure = none ∧ ∃ next, c.Unfolds lenient rest next ∧
            run = ⟨inner.edges ++ next.edges, (s, r) :: inner.visited ++ next.visited, next.failure⟩) := by
  cases h with
  | refuse hs' hr' hrefused =>
    cases hs.symm.trans hs'
    cases hr.symm.trans hr'
    exact Or.inl ⟨_, hrefused, rfl⟩
  | stop hs' hr' hmet hinner hfailed =>
    cases hs.symm.trans hs'
    cases hr.symm.trans hr'
    exact Or.inr ⟨hmet, _, hinner, Or.inl ⟨hfailed, rfl⟩⟩
  | join hs' hr' hmet hinner hsucceeded hrest =>
    cases hs.symm.trans hs'
    cases hr.symm.trans hr'
    exact Or.inr ⟨hmet, _, hinner, Or.inr ⟨hsucceeded, _, hrest, rfl⟩⟩

/-- The contract ends in one way only. -/
theorem Unfolds.unique (h : c.Unfolds lenient tasks run) (h' : c.Unfolds lenient tasks run') : run = run' := by
  induction h generalizing run' with
  | done =>
    cases h'
    rfl
  | link _ ih =>
    cases h' with
    | link hrest' => rw [ih hrest']
  | refuse hs hr hrefused =>
    obtain ⟨failure, hrefused', rfl⟩ | ⟨hmet, -⟩ := h'.join_cases hs hr
    · rw [Option.some.inj (hrefused.symm.trans hrefused')]
    · cases hrefused.symm.trans hmet
  | stop hs hr hmet _ hfailed ih =>
    obtain ⟨failure, hrefused, -⟩ | ⟨-, inner, hinner, ⟨-, rfl⟩ | ⟨hsucceeded, -⟩⟩ := h'.join_cases hs hr
    · cases hmet.symm.trans hrefused
    · rw [ih hinner]
    · exact absurd (ih hinner ▸ hsucceeded) hfailed
  | join hs hr hmet _ hsucceeded _ ih ihrest =>
    obtain ⟨failure, hrefused, -⟩ | ⟨-, inner, hinner, ⟨hfailed, -⟩ | ⟨-, next, hnext, rfl⟩⟩ := h'.join_cases hs hr
    · cases hmet.symm.trans hrefused
    · exact absurd (ih hinner ▸ hsucceeded) hfailed
    · rw [ih hinner, ihrest hnext]

/-! ## Containers that do not hold themselves -/

/-- No container holds itself, directly or further in, by ports of either side. -/
def Unlooped (c : Circuit P) : Prop := ∀ n, ¬ TransGen (fun n m => ∃ side, c.Opens side n m) n n

/-- A pair behind matching slots of another one, whose contract is looked at in turn. -/
def Descends (c : Circuit P) (p e : NodeId × NodeId) : Prop := c.Matched p.1 p.2 e ∧ ¬ c.JoinsLeaves e

/-- A circuit in which each container only holds nodes that are older has no loop. -/
theorem unlooped_of_lt (h : ∀ n ∈ c.ids, ∀ node ∈ c.node? n, node.isLeaf = false →
    ∀ m ∈ node.exposed .input ++ node.exposed .output, m < n) : c.Unlooped := by
  have hlt : ∀ n m, TransGen (fun n m => ∃ side, c.Opens side n m) n m → m < n := by
    intro n m hnm
    have hstep : ∀ n m, (∃ side, c.Opens side n m) → m < n := by
      rintro n m ⟨side, node, hnode, hcontainer, hm⟩
      refine h n (mem_ids_of_node? hnode) node hnode hcontainer m ?_
      cases side with
      | input => exact List.mem_append_left _ hm
      | output => exact List.mem_append_right _ hm
    induction hnm with
    | single hstep' => exact hstep _ _ hstep'
    | tail _ hstep' ih => exact Nat.lt_trans (hstep _ _ hstep') ih
  exact fun n hn => Nat.lt_irrefl n (hlt n n hn)

theorem Unlooped.wellFounded (hloops : c.Unlooped) (hports : c.PortsExist) (side : Side) :
    WellFounded fun m n => c.Opens side n m := by
  have hall : ∀ m n, c.Opens side n m → m ∈ c.ids := by
    rintro m n ⟨node, hnode, -, hm⟩
    exact mem_ids.2 (hports.lt_size hnode hm)
  refine wellFounded_of_acyclic hall fun n hn => hloops n ?_
  exact TransGen.mono (fun _ _ hopens => ⟨side, hopens⟩) n n (Relation.transGen_swap.1 hn)

/-- On the way down the sender is opened, or it is a leaf that stays and the receiver is opened. -/
theorem wellFounded_descends (hown : c.OwnPorts) (hports : c.PortsExist) (hloops : c.Unlooped) :
    WellFounded fun e p => c.Descends p e := by
  have hwf := (hloops.wellFounded hports .output).prod_lex (hloops.wellFounded hports .input)
  refine Subrelation.wf (fun {e p} h => ?_) hwf
  obtain ⟨hmatched, hjoins⟩ := h
  obtain ⟨⟨sender, hsender, ha⟩, receiver, hreceiver, hb⟩ := hmatched.exposed
  cases hleaf : sender.isLeaf with
  | false => exact Prod.Lex.left _ _ ⟨sender, hsender, hleaf, ha⟩
  | true =>
    have hcell := isLeaf_eq hsender ▸ hleaf
    have heq : e.1 = p.1 := eq_of_leaf_leads hcell (hown.leads hsender ha)
    have hcontainer : receiver.isLeaf = false := by
      rw [Bool.eq_false_iff]
      intro hleaf'
      have hcell' := isLeaf_eq hreceiver ▸ hleaf'
      have heq' : e.2 = p.2 := eq_of_leaf_leads hcell' (hown.leads hreceiver hb)
      exact hjoins ⟨heq ▸ hcell, heq' ▸ hcell'⟩
    rw [← Prod.mk.eta (p := e), heq]
    exact Prod.Lex.right _ ⟨receiver, hreceiver, hcontainer, hb⟩

theorem not_descends_self (hown : c.OwnPorts) (hports : c.PortsExist) (hloops : c.Unlooped) (p : NodeId × NodeId) :
    ¬ TransGen c.Descends p p := by
  intro h
  have hwf := (wellFounded_descends hown hports hloops).transGen
  exact hwf.irrefl.irrefl p (Relation.transGen_swap.2 h)

/-! ## Tasks of a contract -/

theorem join_mem_plainTasks {a b : NodeId} : .join a b ∈ c.plainTasks sender receiver ↔
    (a, b) ∈ matchedPairs sender.outputs receiver.inputs ∧ ¬ c.JoinsLeaves (a, b) := by
  simp only [plainTasks, plainTask, List.mem_map, JoinsLeaves, ← Bool.and_eq_true]
  constructor
  · rintro ⟨e, he, heq⟩
    split at heq
    · cases heq
    · next hjoins =>
      cases heq
      exact ⟨he, hjoins⟩
  · rintro ⟨he, hjoins⟩
    exact ⟨(a, b), he, if_neg hjoins⟩

theorem descends_of_mem (hs : c.node? s = some sender) (hr : c.node? r = some receiver) {a b : NodeId}
    (h : .join a b ∈ c.plainTasks sender receiver) : c.Descends (s, r) (a, b) := by
  obtain ⟨hmem, hjoins⟩ := join_mem_plainTasks.1 h
  exact ⟨⟨sender, receiver, hs, hr, hmem⟩, hjoins⟩

/-- Where a pair is not below itself, a connection asks for the same as the plain contract. -/
theorem contract_eq_plainTasks (hports : c.PortsExist) (hs : c.node? s = some sender)
    (hr : c.node? r = some receiver) (hmet : refusal? lenient s r sender receiver = none)
    (hself : ¬ TransGen c.Descends (s, r) (s, r)) :
    c.contract lenient s r = .ok (c.plainTasks sender receiver) := by
  have htasks : (matchedPairs sender.outputs receiver.inputs).filterMap (c.taskFor (s, r)) =
      c.plainTasks sender receiver := by
    rw [plainTasks, ← List.filterMap_eq_map]
    refine List.filterMap_congr fun e he => ?_
    unfold taskFor
    simp only [Function.comp_apply, plainTask]
    split
    · rfl
    · next hjoins =>
      refine if_neg ?_
      rintro rfl
      exact hself (.single ⟨⟨sender, receiver, hs, hr, he⟩, by simpa [JoinsLeaves] using hjoins⟩)
  obtain ⟨houtputs, hinputs, hlength⟩ := refusal?_eq_none.1 hmet
  exact (contract_eq_ok hports hs hr).2 ⟨houtputs, hinputs, hlength, htasks.symm⟩

/-! ## All contracts come to an end -/

/-- The contract of one pair that is not refused comes to what its tasks come to. -/
theorem Unfolds.single (hinner : c.Unfolds lenient (c.plainTasks sender receiver) inner)
    (hs : c.node? s = some sender) (hr : c.node? r = some receiver)
    (hmet : refusal? lenient s r sender receiver = none) :
    c.Unfolds lenient [.join s r] { inner with visited := (s, r) :: inner.visited } := by
  by_cases hsucceeded : inner.failure = none
  · simpa [hsucceeded] using Unfolds.join hs hr hmet hinner hsucceeded .done
  · exact .stop hs hr hmet hinner hsucceeded

/-- Tasks come to an end if the contracts among them do. -/
theorem exists_unfolds_of_forall : ∀ tasks : List Task,
    (∀ a b, .join a b ∈ tasks → ∃ run, c.Unfolds lenient [.join a b] run) → ∃ run, c.Unfolds lenient tasks run
  | [], _ => ⟨_, .done⟩
  | .link a b :: rest, h => by
    obtain ⟨next, hnext⟩ := exists_unfolds_of_forall rest fun x y hxy => h x y (List.mem_cons_of_mem _ hxy)
    exact ⟨_, .link hnext⟩
  | .join s r :: rest, h => by
    obtain ⟨next, hnext⟩ := exists_unfolds_of_forall rest fun x y hxy => h x y (List.mem_cons_of_mem _ hxy)
    obtain ⟨run, hrun⟩ := h s r (List.mem_cons_self ..)
    cases hrun with
    | refuse hs hr hrefused => exact ⟨_, .refuse hs hr hrefused⟩
    | stop hs hr hmet hinner hfailed => exact ⟨_, .stop hs hr hmet hinner hfailed⟩
    | join hs hr hmet hinner hsucceeded _ => exact ⟨_, .join hs hr hmet hinner hsucceeded hnext⟩

/-- Every contract between nodes that exist comes to an end. -/
theorem exists_unfolds (hown : c.OwnPorts) (hports : c.PortsExist) (hloops : c.Unlooped) (lenient : Bool)
    (p : NodeId × NodeId) (hs : p.1 < c.size) (hr : p.2 < c.size) :
    ∃ run, c.Unfolds lenient [.join p.1 p.2] run := by
  induction p using (wellFounded_descends hown hports hloops).induction with
  | _ p ih =>
    obtain ⟨sender, hsender⟩ := node?_of_lt hs
    obtain ⟨receiver, hreceiver⟩ := node?_of_lt hr
    cases hmet : refusal? lenient p.1 p.2 sender receiver with
    | some failure => exact ⟨_, .refuse hsender hreceiver hmet⟩
    | none =>
      have hall : ∃ inner, c.Unfolds lenient (c.plainTasks sender receiver) inner := by
        refine exists_unfolds_of_forall _ fun a b hab => ?_
        have hdescends := descends_of_mem hsender hreceiver hab
        obtain ⟨ha, hb⟩ := hdescends.1.lt_size hports
        exact ih (a, b) hdescends ha hb
      obtain ⟨inner, hinner⟩ := hall
      exact ⟨_, hinner.single hsender hreceiver hmet⟩

/-! ## The pairs on the way -/

/-- The pairs that are met are below the tasks. -/
theorem Unfolds.exists_join_of_mem_visited (h : c.Unfolds lenient tasks run) {q : NodeId × NodeId}
    (hq : q ∈ run.visited) : ∃ a b, .join a b ∈ tasks ∧ ReflTransGen c.Descends (a, b) q := by
  induction h with
  | done => cases hq
  | link _ ih =>
    obtain ⟨x, y, hxy, hlead⟩ := ih hq
    exact ⟨x, y, List.mem_cons_of_mem _ hxy, hlead⟩
  | @refuse s r =>
    obtain rfl := List.mem_singleton.1 hq
    exact ⟨s, r, List.mem_cons_self .., .refl⟩
  | @stop s r _ _ _ _ hs hr _ _ _ ih =>
    refine ⟨s, r, List.mem_cons_self .., ?_⟩
    rcases List.mem_cons.1 hq with rfl | hq
    · exact .refl
    · obtain ⟨x, y, hxy, hlead⟩ := ih hq
      exact .head (descends_of_mem hs hr hxy) hlead
  | @join s r _ _ _ _ _ hs hr _ _ _ _ ih ihrest =>
    rcases List.mem_append.1 hq with hq | hq
    · refine ⟨s, r, List.mem_cons_self .., ?_⟩
      rcases List.mem_cons.1 hq with rfl | hq
      · exact .refl
      · obtain ⟨x, y, hxy, hlead⟩ := ih hq
        exact .head (descends_of_mem hs hr hxy) hlead
    · obtain ⟨x, y, hxy, hlead⟩ := ihrest hq
      exact ⟨x, y, List.mem_cons_of_mem _ hxy, hlead⟩

/-- A pair is not met again on the way down from it. -/
theorem Unfolds.not_mem_visited (hinner : c.Unfolds lenient (c.plainTasks sender receiver) inner)
    (hs : c.node? s = some sender) (hr : c.node? r = some receiver)
    (hself : ¬ TransGen c.Descends (s, r) (s, r)) : (s, r) ∉ inner.visited := by
  intro hmem
  obtain ⟨a, b, hab, hlead⟩ := hinner.exists_join_of_mem_visited hmem
  exact hself (.head' (descends_of_mem hs hr hab) hlead)

theorem Unfolds.mem_visited (h : c.Unfolds lenient [.join s r] run) : (s, r) ∈ run.visited := by
  cases h <;> simp

/-- When nothing fails, each pair that is met comes to a part of the whole. -/
theorem Unfolds.exists_part (h : c.Unfolds lenient tasks run) (hrun : run.failure = none) {q : NodeId × NodeId}
    (hq : q ∈ run.visited) : ∃ part, c.Unfolds lenient [.join q.1 q.2] part ∧ part.failure = none ∧
      part.edges ⊆ run.edges ∧ part.visited ⊆ run.visited := by
  induction h with
  | done => cases hq
  | link _ ih =>
    obtain ⟨part, hpart, hsucceeded, hedges, hvisited⟩ := ih hrun hq
    exact ⟨part, hpart, hsucceeded, List.subset_cons_of_subset _ hedges, hvisited⟩
  | refuse => cases hrun
  | stop _ _ _ _ hfailed => exact absurd hrun hfailed
  | @join s r _ _ _ inner next hs hr hmet hinner hsucceeded _ ih ihrest =>
    rcases List.mem_append.1 hq with hq | hq
    · rcases List.mem_cons.1 hq with rfl | hq
      · exact ⟨_, hinner.single hs hr hmet, hsucceeded, List.subset_append_left _ _, List.subset_append_left _ _⟩
      · obtain ⟨part, hpart, hpartSucceeded, hedges, hvisited⟩ := ih hsucceeded hq
        exact ⟨part, hpart, hpartSucceeded, List.subset_append_of_subset_left _ hedges,
          List.subset_append_of_subset_left _ (List.subset_cons_of_subset _ hvisited)⟩
    · obtain ⟨part, hpart, hpartSucceeded, hedges, hvisited⟩ := ihrest hrun hq
      exact ⟨part, hpart, hpartSucceeded, List.subset_append_of_subset_right _ hedges,
        List.subset_append_of_subset_right _ hvisited⟩

end Circuit

end Netlist
