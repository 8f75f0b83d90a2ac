/-
Strict and lenient connections. The two tell themselves apart only at a contract between unequal
numbers of slots, where the strict one stops and the lenient one goes on; up to there they do the
same work. So a strict connection that is complete or that lacks ports is the lenient one, and one
that stops at a mismatch has recorded the first edges of the lenient one.
-/
import Netlist.Proofs.Circuit.Joining

namespace Netlist

variable {P : Type}

namespace Circuit

variable {c : Circuit P} {s r : NodeId} {lenient : Bool}

/-! ## One contract -/

/-- A mismatch is all that a strict contract minds more than a lenient one. -/
theorem contract_strict (c : Circuit P) (s r : NodeId) :
    c.contract true s r = c.contract false s r ∨
      ∃ outputs inputs, c.contract false s r = .error (.arityMismatch s r outputs inputs) := by
  unfold contract
  simp only [bind, Except.bind]
  cases c.fetch s with
  | error e => exact Or.inl rfl
  | ok sender =>
    cases c.fetch r with
    | error e => exact Or.inl rfl
    | ok receiver =>
      by_cases houtputs : sender.outputs.isEmpty = true
      · exact Or.inl (by simp [houtputs, throw, throwThe, MonadExceptOf.throw])
      by_cases hinputs : receiver.inputs.isEmpty = true
      · exact Or.inl (by simp [houtputs, hinputs, throw, throwThe, MonadExceptOf.throw])
      by_cases hlength : sender.outputs.length = receiver.inputs.length
      · exact Or.inl (by simp [hlength])
      · refine Or.inr ⟨sender.outputs.length, receiver.inputs.length, ?_⟩
        simp [houtputs, hinputs, hlength, throw, throwThe, MonadExceptOf.throw]

/-- When the ports exist, a contract is refused for nothing but missing ports or a mismatch. -/
theorem cases_of_contract_eq_error (hports : c.PortsExist) (hs : s < c.size) (hr : r < c.size) {failure : Failure}
    (h : c.contract lenient s r = .error failure) :
    (∃ n, failure = .noPorts n) ∨ lenient = false ∧ ∃ outputs inputs, failure = .arityMismatch s r outputs inputs := by
  obtain ⟨sender, hsender⟩ := node?_of_lt hs
  obtain ⟨receiver, hreceiver⟩ := node?_of_lt hr
  rw [contract_eq_error hports hsender hreceiver, refusal?] at h
  split at h
  · exact Or.inl ⟨s, (Option.some.inj h).symm⟩
  · split at h
    · exact Or.inl ⟨r, (Option.some.inj h).symm⟩
    · split at h
      · next harity => exact Or.inr ⟨harity.2, _, _, (Option.some.inj h).symm⟩
      · cases h

/-! ## Two plans side by side -/

/-- A plan only adds edges behind those that are recorded. -/
theorem prefix_planFrom (c : Circuit P) (lenient : Bool) (met : PairSet) (done : Plan) (pending : List Task) :
    done.edges.toList <+: (c.planFrom lenient met done pending).edges.toList := by
  fun_induction planFrom c lenient met done pending with
  | case1 => exact List.prefix_refl _
  | case2 met done a b rest ih =>
    rw [Array.toList_push] at ih
    exact (List.prefix_append _ _).trans ih
  | case3 met done s r rest _ ih => exact ih
  | case4 => exact List.prefix_refl _
  | case5 met done s r rest _ tasks _ ih => exact ih

/-- The plans are the same, or the strict one has stopped at a mismatch on the way of the lenient one. -/
theorem planFrom_strict (c : Circuit P) (met : PairSet) (done : Plan) (pending : List Task) :
    c.planFrom true met done pending = c.planFrom false met done pending ∨
      (∃ a b outputs inputs,
        (c.planFrom false met done pending).failure = some (.arityMismatch a b outputs inputs)) ∧
      (c.planFrom false met done pending).edges.toList <+: (c.planFrom true met done pending).edges.toList := by
  -- the strict plan leads, and as long as its contracts are met the lenient one has the same work
  fun_induction planFrom c false met done pending with
  | case1 met done =>
    left
    rw [planFrom]
  | case2 met done a b rest ih =>
    rw [planFrom]
    exact ih
  | case3 met done s r rest hmet ih =>
    rw [planFrom_join_of_met hmet]
    exact ih
  | case4 met done s r rest hmet e he =>
    rcases contract_strict c s r with hsame | ⟨outputs, inputs, hmismatch⟩
    · left
      rw [planFrom_join_of_error hmet (hsame.trans he)]
    · right
      cases he.symm.trans hmismatch
      exact ⟨⟨s, r, outputs, inputs, rfl⟩, prefix_planFrom c true met done (.join s r :: rest)⟩
  | case5 met done s r rest hmet tasks htasks ih =>
    have hsame : c.contract true s r = .ok tasks := by
      rcases contract_strict c s r with hsame | ⟨outputs, inputs, hmismatch⟩
      · exact hsame.trans htasks
      · cases htasks.symm.trans hmismatch
    rw [planFrom_join_of_ok hmet hsame]
    exact ih

/-! ## Longer lists of edges -/

/-- Every node keeps its edges, in order, and may have more behind them. -/
structure Lengthens (c c' : Circuit P) : Prop where
  forward : ∀ n, c.forwardOf n <+: c'.forwardOf n
  backward : ∀ n, c.backwardOf n <+: c'.backwardOf n

/-- More edges are recorded behind the same first ones. -/
theorem lengthens_linkAll (c : Circuit P) {edges edges' : List (NodeId × NodeId)} (h : edges <+: edges') :
    Lengthens (c.linkAll edges) (c.linkAll edges') := by
  refine ⟨fun n => ?_, fun n => ?_⟩
  · rw [forwardOf, forwardOf, node?_linkAll, node?_linkAll]
    cases c.node? n with
    | none => exact List.prefix_refl _
    | some node => simpa [targetsIn] using h.filterMap _
  · rw [backwardOf, backwardOf, node?_linkAll, node?_linkAll]
    cases c.node? n with
    | none => exact List.prefix_refl _
    | some node => simpa [sourcesIn] using h.filterMap _

/-- A connection, however it ends, leaves all edges in place. -/
theorem lengthens_connect (c : Circuit P) (s r : NodeId) (lenient : Bool) :
    Lengthens c (c.connect s r lenient).circuit :=
  lengthens_linkAll c (List.nil_prefix (l := (c.plan s r lenient).edges.toList))

/-! ## Connections -/

/-- A connection whose first contract is refused changes nothing. -/
theorem connect_of_contract_eq_error {failure : Failure} (h : c.contract lenient s r = .error failure) :
    c.connect s r lenient = ⟨c, some failure⟩ := by
  have hplan : c.plan s r lenient = ⟨#[], #[(s, r)], some failure⟩ := planFrom_join_of_error (by simp) h
  rw [connect, hplan]
  rfl

theorem failure_connect (hports : c.PortsExist) (hs : s < c.size) (hr : r < c.size) {failure : Failure}
    (h : (c.connect s r lenient).failure = some failure) :
    (∃ n, failure = .noPorts n) ∨
      lenient = false ∧ ∃ a b outputs inputs, failure = .arityMismatch a b outputs inputs := by
  -- all pairs that are met below the first one exist as well
  have hstart : ∀ task ∈ [Task.join s r], task.pair.1 < c.size ∧ task.pair.2 < c.size := fun task htask => by
    rw [List.mem_singleton.1 htask]
    exact ⟨hs, hr⟩
  obtain ⟨⟨a, b⟩, ⟨ha, hb⟩, hrefused⟩ := exists_refused_of_planFrom (fun p => p.1 < c.size ∧ p.2 < c.size)
    hports (fun p e _ he => he.lt_size hports) rfl hstart h
  rcases cases_of_contract_eq_error hports ha hb hrefused with hnone | ⟨hstrict, outputs, inputs, hmismatch⟩
  · exact Or.inl hnone
  · exact Or.inr ⟨hstrict, a, b, outputs, inputs, hmismatch⟩

/-- How a strict and a lenient connection of the same nodes compare. A contract that is refused at the
first pair leaves the circuit as it was. The strict connection fails for nothing but missing ports or a
mismatch, and unless it stops at a mismatch the lenient one does and says the same. Where it stops at
a mismatch, all edge lists are extended by the strict connection, and further by the lenient one. -/
theorem connect_strict_lenient (hports : c.PortsExist) {sender receiver : Node P} (hs : c.node? s = some sender)
    (hr : c.node? r = some receiver) :
    (∀ lenient, sender.outputs = [] → c.connect s r lenient = ⟨c, some (.noPorts s)⟩) ∧
    (∀ lenient, sender.outputs ≠ [] → receiver.inputs = [] →
      c.connect s r lenient = ⟨c, some (.noPorts r)⟩) ∧
    (sender.outputs ≠ [] → receiver.inputs ≠ [] → sender.outputs.length ≠ receiver.inputs.length →
      c.connect s r false =
        ⟨c, some (.arityMismatch s r sender.outputs.length receiver.inputs.length)⟩) ∧
    ((c.connect s r false).failure = none → c.connect s r true = c.connect s r false) ∧
    (∀ n, (c.connect s r false).failure = some (.noPorts n) → c.connect s r true = c.connect s r false) ∧
    (∀ a b outputs inputs, (c.connect s r false).failure = some (.arityMismatch a b outputs inputs) →
      Lengthens c (c.connect s r false).circuit ∧
        Lengthens (c.connect s r false).circuit (c.connect s r true).circuit) ∧
    ((c.connect s r false).failure = none ∨ (∃ n, (c.connect s r false).failure = some (.noPorts n)) ∨
      ∃ a b outputs inputs, (c.connect s r false).failure = some (.arityMismatch a b outputs inputs)) := by
  have hrefused : ∀ {lenient failure}, refusal? lenient s r sender receiver = some failure →
      c.connect s r lenient = ⟨c, some failure⟩ := fun h =>
    connect_of_contract_eq_error ((contract_eq_error hports hs hr).2 h)
  have hsame : (∀ a b outputs inputs, (c.connect s r false).failure ≠ some (.arityMismatch a b outputs inputs)) →
      c.connect s r true = c.connect s r false := by
    intro h
    rcases planFrom_strict c {} {} [.join s r] with heq | ⟨⟨a, b, outputs, inputs, hmismatch⟩, -⟩
    · rw [connect, connect, plan, plan, heq]
    · exact absurd hmismatch (h a b outputs inputs)
  refine ⟨fun lenient houtputs => hrefused ?_, fun lenient houtputs hinputs => hrefused ?_,
    fun houtputs hinputs hlength => hrefused ?_, fun h => hsame ?_, fun n h => hsame ?_,
    fun a b outputs inputs _ => ⟨lengthens_connect c s r false, ?_⟩, ?_⟩
  · rw [refusal?, if_pos houtputs]
  · rw [refusal?, if_neg houtputs, if_pos hinputs]
  · rw [refusal?, if_neg houtputs, if_neg hinputs, if_pos ⟨hlength, rfl⟩]
  · simp [h]
  · simp [h]
  · rcases planFrom_strict c {} {} [.join s r] with heq | ⟨-, hprefix⟩
    · exact lengthens_linkAll c (by rw [plan, plan, heq])
    · exact lengthens_linkAll c hprefix
  · cases hfailure : (c.connect s r false).failure with
    | none => exact Or.inl rfl
    | some failure =>
      rcases failure_connect hports (lt_size_of_node? hs) (lt_size_of_node? hr) hfailure with
        ⟨n, rfl⟩ | ⟨-, a, b, outputs, inputs, rfl⟩
      · exact Or.inr (Or.inl ⟨n, rfl⟩)
      · exact Or.inr (Or.inr ⟨a, b, outputs, inputs, rfl⟩)

/-- A gate, and a bus on which another gate, a container with two slots and one without any wait for it. -/
def annex : Circuit Unit :=
  let c := (Circuit.mk #[]).addLeaves [.gate .or, .gate .or, .gate .or, .gate .or]
  let c := (c.addContainer [.single 2, .single 3] []).1
  let c := (c.addContainer [] []).1
  (c.addContainer [.bus [1, 4, 5]] []).1

/-- Both connections fail here, and the lenient one gets further. -/
theorem connect_strict_lenient_annex : annex.PortsExist ∧ (∃ sender, annex.node? 0 = some sender) ∧
    (∃ receiver, annex.node? 6 = some receiver) ∧
    (annex.connect 0 6 false).failure = some (.arityMismatch 0 4 1 2) ∧
    (annex.connect 0 6 true).failure = some (.noPorts 5) ∧
    (annex.connect 0 6 false).circuit.forwardOf 0 = [1] ∧
    (annex.connect 0 6 true).circuit.forwardOf 0 = [1, 2] ∧
    Lengthens annex (annex.connect 0 6 false).circuit ∧
    Lengthens (annex.connect 0 6 false).circuit (annex.connect 0 6 true).circuit := by
  have hports : annex.PortsExist := of_decide_eq_true (by cbv)
  have hsender : annex.node? 0 = some
      { kind := .leaf (.gate .or), inputs := [.single 0], outputs := [.single 0] } := by cbv
  have hreceiver : annex.node? 6 = some { kind := .container, inputs := [.bus [1, 4, 5]] } := by cbv
  have hstrict : (annex.connect 0 6 false).failure = some (.arityMismatch 0 4 1 2) := by cbv
  have hlenient : (annex.connect 0 6 true).failure = some (.noPorts 5) := by cbv
  obtain ⟨-, -, -, -, -, hmismatch, -⟩ := connect_strict_lenient hports hsender hreceiver
  obtain ⟨hfirst, hsecond⟩ := hmismatch 0 4 1 2 hstrict
  exact ⟨hports, ⟨_, hsender⟩, ⟨_, hreceiver⟩, hstrict, hlenient, by cbv, by cbv, hfirst, hsecond⟩

end Circuit

end Netlist
