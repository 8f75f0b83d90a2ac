/-
What a connection joins. Every pair of nodes that it meets is reached by opening the same slot on
both sides, so it only joins leaves behind matching slots. Where each container below the two nodes
has a single slot it joins all of them: two ways down of different lengths are taken side by side,
and the one that is at its leaf waits there, since a leaf is its own port.
-/
import Netlist.Proofs.Circuit.Nesting
import Netlist.Proofs.Circuit.Reordering

namespace Netlist

open Relation (ReflTransGen TransGen)

variable {P : Type}

namespace Circuit

/-! ## Matching slots -/

/-- Two leaves in lists at the same position. -/
def Matches (outputs inputs : List (List NodeId)) (a b : NodeId) : Prop :=
  ∃ (i : Nat) (as bs : List NodeId), outputs[i]? = some as ∧ inputs[i]? = some bs ∧ a ∈ as ∧ b ∈ bs

/-- More edges lead from `a` to `b` than before. -/
def Gains (c c' : Circuit P) (a b : NodeId) : Prop := (c.forwardOf a).count b < (c'.forwardOf a).count b

/-- A pair of nodes behind matching slots of a sender and a receiver. -/
def Matched (c : Circuit P) (s r : NodeId) (e : NodeId × NodeId) : Prop :=
  ∃ sender receiver, c.node? s = some sender ∧ c.node? r = some receiver ∧
    e ∈ matchedPairs sender.outputs receiver.inputs

theorem mem_matchedPairs {outputs inputs : List Port} {e : NodeId × NodeId} :
    e ∈ matchedPairs outputs inputs ↔ ∃ (i : Nat) (output input : Port), outputs[i]? = some output ∧
      inputs[i]? = some input ∧ e.1 ∈ output.nodes ∧ e.2 ∈ input.nodes := by
  obtain ⟨a, b⟩ := e
  simp only [matchedPairs, List.mem_flatMap, slotPairs, List.mem_map, Prod.mk.injEq]
  constructor
  · rintro ⟨⟨output, input⟩, hslots, x, hx, y, hy, rfl, rfl⟩
    obtain ⟨i, hi⟩ := List.mem_iff_getElem?.1 hslots
    obtain ⟨houtput, hinput⟩ := List.getElem?_zip_eq_some.1 hi
    exact ⟨i, output, input, houtput, hinput, hx, hy⟩
  · rintro ⟨i, output, input, houtput, hinput, ha, hb⟩
    have hslots : (output, input) ∈ outputs.zip inputs :=
      List.mem_iff_getElem?.2 ⟨i, List.getElem?_zip_eq_some.2 ⟨houtput, hinput⟩⟩
    exact ⟨(output, input), hslots, a, ha, b, hb, rfl, rfl⟩

variable {c : Circuit P} {s r : NodeId}

theorem Matched.exposed {e : NodeId × NodeId} (h : c.Matched s r e) :
    (∃ sender, c.node? s = some sender ∧ e.1 ∈ sender.exposed .output) ∧
      ∃ receiver, c.node? r = some receiver ∧ e.2 ∈ receiver.exposed .input := by
  obtain ⟨sender, receiver, hsender, hreceiver, he⟩ := h
  obtain ⟨i, output, input, houtput, hinput, ha, hb⟩ := mem_matchedPairs.1 he
  exact ⟨⟨sender, hsender, List.mem_flatMap.2 ⟨output, List.mem_of_getElem? houtput, ha⟩⟩,
    ⟨receiver, hreceiver, List.mem_flatMap.2 ⟨input, List.mem_of_getElem? hinput, hb⟩⟩⟩

/-! ## The tasks of a contract -/

/-- What a contract asks for a pair behind matching slots. -/
def taskFor (c : Circuit P) (parent pair : NodeId × NodeId) : Option Task :=
  if (c.cell? pair.1).isSome && (c.cell? pair.2).isSome then some (.link pair.1 pair.2)
  else if pair = parent then none
  else some (.join pair.1 pair.2)

theorem taskFor_eq_link {parent pair : NodeId × NodeId} {a b : NodeId} :
    c.taskFor parent pair = some (.link a b) ↔ c.JoinsLeaves pair ∧ pair = (a, b) := by
  obtain ⟨x, y⟩ := pair
  simp only [taskFor, JoinsLeaves, ← Bool.and_eq_true]
  split
  · next hjoins => simp [hjoins]
  · next hjoins => split <;> simp [hjoins]

theorem taskFor_eq_join {parent pair : NodeId × NodeId} {a b : NodeId} :
    c.taskFor parent pair = some (.join a b) ↔ ¬ c.JoinsLeaves pair ∧ pair ≠ parent ∧ pair = (a, b) := by
  obtain ⟨x, y⟩ := pair
  simp only [taskFor, JoinsLeaves, ← Bool.and_eq_true]
  split
  · next hjoins => simp [hjoins]
  · next hjoins => split <;> simp [*]

theorem taskOf_eq_ok (parent : NodeId × NodeId) {pair : NodeId × NodeId} (h₁ : pair.1 < c.size)
    (h₂ : pair.2 < c.size) : c.taskOf parent pair = .ok (c.taskFor parent pair) := by
  obtain ⟨a, ha⟩ := node?_of_lt h₁
  obtain ⟨b, hb⟩ := node?_of_lt h₂
  rw [taskOf, taskFor, fetch_eq_ok.2 ha, fetch_eq_ok.2 hb, ← isLeaf_eq ha, ← isLeaf_eq hb]
  simp only [bind, Except.bind]
  cases a.isLeaf <;> cases b.isLeaf <;> simp [pure, Except.pure]

section Contract

variable {lenient : Bool} {sender receiver : Node P}

theorem Matched.lt_size (hports : c.PortsExist) {e : NodeId × NodeId} (h : c.Matched s r e) :
    e.1 < c.size ∧ e.2 < c.size := by
  obtain ⟨⟨sender, hsender, ha⟩, receiver, hreceiver, hb⟩ := h.exposed
  exact ⟨hports.lt_size hsender ha, hports.lt_size hreceiver hb⟩

theorem mapM_taskOf (hports : c.PortsExist) (hs : c.node? s = some sender) (hr : c.node? r = some receiver) :
    (matchedPairs sender.outputs receiver.inputs).mapM (c.taskOf (s, r)) =
      .ok ((matchedPairs sender.outputs receiver.inputs).map (c.taskFor (s, r))) := by
  refine mapM_eq_pure fun e he => ?_
  obtain ⟨ha, hb⟩ := Matched.lt_size hports ⟨sender, receiver, hs, hr, he⟩
  exact taskOf_eq_ok _ ha hb

/-- Why a contract is refused: a side without slots, or numbers of slots that differ without leave. -/
def refusal? (lenient : Bool) (s r : NodeId) (sender receiver : Node P) : Option Failure :=
  if sender.outputs = [] then some (.noPorts s)
  else if receiver.inputs = [] then some (.noPorts r)
  else if sender.outputs.length ≠ receiver.inputs.length ∧ lenient = false then
    some (.arityMismatch s r sender.outputs.length receiver.inputs.length)
  else none

theorem refusal?_eq_none : refusal? lenient s r sender receiver = none ↔
    sender.outputs ≠ [] ∧ receiver.inputs ≠ [] ∧
      (sender.outputs.length = receiver.inputs.length ∨ lenient = true) := by
  unfold refusal?
  split
  · next hempty => simp [hempty]
  · next houtputs =>
    split
    · next hempty => simp [hempty]
    · next hinputs =>
      split
      · next harity => simp [harity]
      · next harity =>
        have hlength : sender.outputs.length = receiver.inputs.length ∨ lenient = true := by
          by_contra hne
          exact harity (by simpa using hne)
        exact ⟨fun _ => ⟨houtputs, hinputs, hlength⟩, fun _ => rfl⟩

/-- A contract is refused, or it asks for something for each matched pair. -/
theorem contract_eq (hports : c.PortsExist) (hs : c.node? s = some sender) (hr : c.node? r = some receiver) :
    c.contract lenient s r = match refusal? lenient s r sender receiver with
      | some failure => .error failure
      | none => .ok ((matchedPairs sender.outputs receiver.inputs).filterMap (c.taskFor (s, r))) := by
  rw [contract, fetch_eq_ok.2 hs, fetch_eq_ok.2 hr, refusal?]
  simp only [bind, Except.bind, List.isEmpty_iff, mapM_taskOf hports hs hr, pure, Except.pure, throw, throwThe,
    MonadExceptOf.throw, List.filterMap_map, Function.id_comp]
  split
  · rfl
  · split
    · rfl
    · split <;> rfl

/-- A contract is met if both sides have slots, as many as each other or with leave to differ. -/
theorem contract_eq_ok (hports : c.PortsExist) (hs : c.node? s = some sender) (hr : c.node? r = some receiver)
    {tasks : List Task} : c.contract lenient s r = .ok tasks ↔
      sender.outputs ≠ [] ∧ receiver.inputs ≠ [] ∧
        (sender.outputs.length = receiver.inputs.length ∨ lenient = true) ∧
        tasks = (matchedPairs sender.outputs receiver.inputs).filterMap (c.taskFor (s, r)) := by
  rw [contract_eq hports hs hr]
  cases hrefusal : refusal? lenient s r sender receiver with
  | some failure =>
    have hrefused : ¬ refusal? lenient s r sender receiver = none := by simp [hrefusal]
    rw [refusal?_eq_none] at hrefused
    exact ⟨nofun, fun ⟨houtputs, hinputs, hlength, _⟩ => absurd ⟨houtputs, hinputs, hlength⟩ hrefused⟩
  | none =>
    obtain ⟨houtputs, hinputs, hlength⟩ := refusal?_eq_none.1 hrefusal
    exact ⟨fun h => ⟨houtputs, hinputs, hlength, (Except.ok.inj h).symm⟩, fun h => congrArg Except.ok h.2.2.2.symm⟩

theorem contract_eq_error (hports : c.PortsExist) (hs : c.node? s = some sender)
    (hr : c.node? r = some receiver) {failure : Failure} : c.contract lenient s r = .error failure ↔
      refusal? lenient s r sender receiver = some failure := by
  rw [contract_eq hports hs hr]
  cases refusal? lenient s r sender receiver <;> simp

/-- The work of a contract that is met: an edge for each matched pair of leaves, and the contract of
every other matched pair but its own. -/
structure Contracted (c : Circuit P) (s r : NodeId) (tasks : List Task) : Prop where
  link : ∀ a b, .link a b ∈ tasks ↔ c.Matched s r (a, b) ∧ c.JoinsLeaves (a, b)
  join : ∀ a b, .join a b ∈ tasks ↔ c.Matched s r (a, b) ∧ ¬ c.JoinsLeaves (a, b) ∧ (a, b) ≠ (s, r)

theorem contracted_of_contract (hports : c.PortsExist) {tasks : List Task}
    (h : c.contract lenient s r = .ok tasks) : c.Contracted s r tasks := by
  have hpair := mem_pairs.1 (mem_pairs_of_contract h)
  obtain ⟨sender, hs⟩ := node?_of_lt (mem_ids.1 hpair.1)
  obtain ⟨receiver, hr⟩ := node?_of_lt (mem_ids.1 hpair.2)
  obtain ⟨-, -, -, rfl⟩ := (contract_eq_ok hports hs hr).1 h
  have hmatched : ∀ e, c.Matched s r e ↔ e ∈ matchedPairs sender.outputs receiver.inputs := by
    refine fun e => ⟨?_, fun he => ⟨sender, receiver, hs, hr, he⟩⟩
    rintro ⟨sender', receiver', hs', hr', he⟩
    cases hs.symm.trans hs'
    cases hr.symm.trans hr'
    exact he
  constructor
  · intro a b
    simp only [List.mem_filterMap, taskFor_eq_link, hmatched]
    constructor
    · rintro ⟨e, he, hjoins, rfl⟩
      exact ⟨he, hjoins⟩
    · rintro ⟨he, hjoins⟩
      exact ⟨_, he, hjoins, rfl⟩
  · intro a b
    simp only [List.mem_filterMap, taskFor_eq_join, hmatched]
    constructor
    · rintro ⟨e, he, hjoins, hparent, rfl⟩
      exact ⟨he, hjoins, hparent⟩
    · rintro ⟨he, hjoins, hparent⟩
      exact ⟨_, he, hjoins, hparent, rfl⟩

end Contract

/-! ## The pairs that a plan meets -/

/-- The two nodes of a task. -/
def Task.pair : Task → NodeId × NodeId
  | .join s r => (s, r)
  | .link a b => (a, b)

theorem Contracted.matched {tasks : List Task} (h : c.Contracted s r tasks) : ∀ task ∈ tasks,
    c.Matched s r task.pair := by
  rintro (⟨a, b⟩ | ⟨a, b⟩) htask
  · exact ((h.join a b).1 htask).1
  · exact ((h.link a b).1 htask).1

section Plan

variable {lenient : Bool} {met : PairSet} {done : Plan} {pending : List Task} {Good : NodeId × NodeId → Prop}

/-- What a contract hands down to its matched pairs holds of every recorded edge. -/
theorem planFrom_keeps (hports : c.PortsExist) (hgood : ∀ p e, Good p → c.Matched p.1 p.2 e → Good e)
    (hdone : ∀ e ∈ done.edges, Good e) (hpending : ∀ task ∈ pending, Good task.pair) :
    ∀ e ∈ (c.planFrom lenient met done pending).edges, Good e := by
  fun_induction planFrom c lenient met done pending with
  | case1 => exact hdone
  | case2 met done a b rest ih =>
    refine ih (fun e he => ?_) fun task htask => hpending task (List.mem_cons_of_mem _ htask)
    rcases Array.mem_push.1 he with he | rfl
    · exact hdone e he
    · exact hpending _ (List.mem_cons_self ..)
  | case3 met done s r rest _ ih => exact ih hdone fun task htask => hpending task (List.mem_cons_of_mem _ htask)
  | case4 => exact hdone
  | case5 met done s r rest _ tasks htasks ih =>
    have hmatched := (contracted_of_contract hports htasks).matched
    refine ih hdone fun task htask => ?_
    rcases List.mem_append.1 htask with htask | htask
    · exact hgood (s, r) task.pair (hpending _ (List.mem_cons_self ..)) (hmatched task htask)
    · exact hpending task (List.mem_cons_of_mem _ htask)

/-- A plan that ends early met a contract that is refused. -/
theorem exists_refused_of_planFrom (Good : NodeId × NodeId → Prop) (hports : c.PortsExist)
    (hgood : ∀ p e, Good p → c.Matched p.1 p.2 e → Good e) (hdone : done.failure = none)
    (hpending : ∀ task ∈ pending, Good task.pair) {failure : Failure}
    (h : (c.planFrom lenient met done pending).failure = some failure) :
    ∃ p, Good p ∧ c.contract lenient p.1 p.2 = .error failure := by
  fun_induction planFrom c lenient met done pending with
  | case1 =>
    rw [hdone] at h
    cases h
  | case2 met done a b rest ih =>
    exact ih hdone (fun task htask => hpending task (List.mem_cons_of_mem _ htask)) h
  | case3 met done s r rest _ ih =>
    exact ih hdone (fun task htask => hpending task (List.mem_cons_of_mem _ htask)) h
  | case4 met done s r rest _ e he =>
    cases h
    exact ⟨(s, r), hpending _ (List.mem_cons_self ..), he⟩
  | case5 met done s r rest _ tasks htasks ih =>
    have hmatched := (contracted_of_contract hports htasks).matched
    refine ih hdone (fun task htask => ?_) h
    rcases List.mem_append.1 htask with htask | htask
    · exact hgood (s, r) task.pair (hpending _ (List.mem_cons_self ..)) (hmatched task htask)
    · exact hpending task (List.mem_cons_of_mem _ htask)

/-- If every contract that is met hands this down, the plan does not end early. -/
theorem planFrom_succeeds (hports : c.PortsExist) (hgood : ∀ p e, Good p → c.Matched p.1 p.2 e → Good e)
    (hmet : ∀ p, Good p → ∃ tasks, c.contract lenient p.1 p.2 = .ok tasks) (hdone : done.failure = none)
    (hpending : ∀ task ∈ pending, Good task.pair) : (c.planFrom lenient met done pending).failure = none := by
  rw [Option.eq_none_iff_forall_ne_some]
  intro failure hfailure
  obtain ⟨p, hp, hrefused⟩ := exists_refused_of_planFrom Good hports hgood hdone hpending hfailure
  obtain ⟨tasks, htasks⟩ := hmet p hp
  cases hrefused.symm.trans htasks

end Plan

/-! ## All pairs are met -/

/-- What holds of a plan that works off a first pair: the pair is met, and all that the contract of a
pair that is met asks for is done or still pending. -/
structure Joining (c : Circuit P) (start : NodeId × NodeId) (met : PairSet) (done : Plan)
    (pending : List Task) : Prop where
  start : met.contains start = true ∨ .join start.1 start.2 ∈ pending
  link : ∀ p e, met.contains p = true → c.Matched p.1 p.2 e → c.JoinsLeaves e →
    e ∈ done.edges ∨ .link e.1 e.2 ∈ pending
  join : ∀ p e, met.contains p = true → c.Matched p.1 p.2 e → ¬ c.JoinsLeaves e →
    met.contains e = true ∨ .join e.1 e.2 ∈ pending

namespace Joining

variable {start : NodeId × NodeId} {met : PairSet} {done : Plan} {rest : List Task} {a b : NodeId}

theorem record (h : c.Joining start met done (.link a b :: rest)) :
    c.Joining start met { done with edges := done.edges.push (a, b) } rest := by
  constructor
  · simpa using h.start
  · intro p e hp he hjoins
    rcases h.link p e hp he hjoins with he | he
    · exact Or.inl (Array.mem_push.2 (Or.inl he))
    · rcases List.mem_cons.1 he with heq | he
      · cases heq
        exact Or.inl (Array.mem_push.2 (Or.inr rfl))
      · exact Or.inr he
  · exact fun p e hp he hjoins => by simpa using h.join p e hp he hjoins

theorem skip (h : c.Joining start met done (.join s r :: rest)) (hmet : met.contains (s, r) = true) :
    c.Joining start met done rest := by
  have hkeep : ∀ e : NodeId × NodeId, met.contains e = true ∨ .join e.1 e.2 ∈ Task.join s r :: rest →
      met.contains e = true ∨ .join e.1 e.2 ∈ rest := by
    rintro e (he | he)
    · exact Or.inl he
    · rcases List.mem_cons.1 he with heq | he
      · cases heq
        exact Or.inl hmet
      · exact Or.inr he
  refine ⟨hkeep start h.start, fun p e hp he hjoins => ?_,
    fun p e hp he hjoins => hkeep e (h.join p e hp he hjoins)⟩
  simpa using h.link p e hp he hjoins

/-- A contract that is met for the first time: what it asks for is pending now. -/
theorem meet (h : c.Joining start met done (.join s r :: rest)) {tasks : List Task}
    (htasks : c.Contracted s r tasks) : c.Joining start (met.insert (s, r))
      { done with visited := done.visited.push (s, r) } (tasks ++ rest) := by
  have hmet : ∀ p, (met.insert (s, r)).contains p = true ↔ p = (s, r) ∨ met.contains p = true := by simp
  have hkeep : ∀ e : NodeId × NodeId, met.contains e = true ∨ .join e.1 e.2 ∈ Task.join s r :: rest →
      (met.insert (s, r)).contains e = true ∨ .join e.1 e.2 ∈ tasks ++ rest := by
    rintro e (he | he)
    · exact Or.inl ((hmet e).2 (Or.inr he))
    · rcases List.mem_cons.1 he with heq | he
      · cases heq
        exact Or.inl ((hmet e).2 (Or.inl rfl))
      · exact Or.inr (List.mem_append_right _ he)
  refine ⟨hkeep start h.start, fun p e hp he hjoins => ?_, fun p e hp he hjoins => ?_⟩
  · rcases (hmet p).1 hp with rfl | hp
    · exact Or.inr (List.mem_append_left _ ((htasks.link e.1 e.2).2 ⟨he, hjoins⟩))
    · rcases h.link p e hp he hjoins with he | he
      · exact Or.inl he
      · exact Or.inr (List.mem_append_right _ (by simpa using he))
  · rcases (hmet p).1 hp with rfl | hp
    · by_cases hparent : e = (s, r)
      · exact Or.inl ((hmet e).2 (Or.inl hparent))
      · exact Or.inr (List.mem_append_left _ ((htasks.join e.1 e.2).2 ⟨he, hjoins, hparent⟩))
    · exact hkeep e (h.join p e hp he hjoins)

end Joining

theorem joining_planFrom (hports : c.PortsExist) {start : NodeId × NodeId} {lenient : Bool} {met : PairSet}
    {done : Plan} {pending : List Task} (h : c.Joining start met done pending)
    (h' : (c.planFrom lenient met done pending).failure = none) :
    ∃ met', c.Joining start met' (c.planFrom lenient met done pending) [] := by
  fun_induction planFrom c lenient met done pending with
  | case1 met done => exact ⟨met, h⟩
  | case2 met done a b rest ih => exact ih h.record h'
  | case3 met done s r rest hmet ih => exact ih (h.skip hmet) h'
  | case4 => cases h'
  | case5 met done s r rest _ tasks htasks ih => exact ih (h.meet (contracted_of_contract hports htasks)) h'

/-! ## Containers with a single slot -/

/-- On one side, this node and all that are reached from it have a single slot. -/
def Flat (c : Circuit P) (side : Side) (n : NodeId) : Prop :=
  ∀ m, ReflTransGen (c.Opens side) n m → ∃ node port, c.node? m = some node ∧ node.slots side = [port]

section Flat

variable {side : Side} {n m : NodeId} {node : Node P}

theorem Flat.exposed (h : c.Flat side n) (hown : c.OwnPorts) (hn : c.node? n = some node)
    (hm : m ∈ node.exposed side) : c.Flat side m :=
  fun k hk => h k ((hown.leads hn hm).trans hk)

/-- Leaves have a single slot, so only the containers below a node count. -/
theorem flat_of_exposed (hown : c.OwnPorts) (hports : c.PortsExist)
    (hsingle : ∀ k node, TransGen (c.Opens side) n k → c.node? k = some node → node.isLeaf = false →
      (node.slots side).length = 1) (hn : c.node? n = some node) (hm : m ∈ node.exposed side) :
    c.Flat side m := by
  have hsize : ∀ k, ReflTransGen (c.Opens side) m k → k < c.size := by
    intro k hk
    induction hk with
    | refl => exact hports.lt_size hn hm
    | tail _ hopens _ =>
      obtain ⟨other, hother, -, hk⟩ := hopens
      exact hports.lt_size hother hk
  intro k hk
  obtain ⟨found, hfound⟩ := node?_of_lt (hsize k hk)
  cases hleaf : found.isLeaf with
  | true => exact ⟨found, _, hfound, hown.slots_eq hfound hleaf⟩
  | false =>
    have hbelow : TransGen (c.Opens side) n k := by
      cases hnleaf : node.isLeaf with
      | false => exact .head' ⟨node, hn, hnleaf, hm⟩ hk
      | true =>
        -- a leaf leads nowhere else, and `k` is a container
        have hcell := isLeaf_eq hn ▸ hnleaf
        have heq := eq_of_leaf_leads hcell ((hown.leads hn hm).trans hk)
        subst heq
        cases hn.symm.trans hfound
        cases hleaf.symm.trans hnleaf
    obtain ⟨port, hport⟩ := List.length_eq_one_iff.1 (hsingle k found hbelow hfound hleaf)
    exact ⟨found, port, hfound, hport⟩

theorem OwnPorts.mem_exposed (hown : c.OwnPorts) (hl : (c.cell? n).isSome) (hn : c.node? n = some node) :
    n ∈ node.exposed side := by
  simp [Node.exposed, hown.slots_eq hn ((isLeaf_eq hn).trans hl), Port.nodes]

/-- On the way to a leaf there is a next node behind the ports; at the leaf it is the leaf itself. -/
theorem OwnPorts.exists_next (hown : c.OwnPorts) {l : NodeId} (hl : (c.cell? l).isSome)
    (hlead : ReflTransGen (c.Opens side) n l) (hn : c.node? n = some node) :
    ∃ k ∈ node.exposed side, ReflTransGen (c.Opens side) k l := by
  rcases ReflTransGen.cases_head hlead with rfl | ⟨k, ⟨other, hother, -, hk⟩, hrest⟩
  · exact ⟨n, hown.mem_exposed hl hn, .refl⟩
  · cases hn.symm.trans hother
    exact ⟨k, hk, hrest⟩

end Flat

theorem matched_of_flat {a b : NodeId} {sender receiver : Node P} (ha : c.Flat .output a) (hb : c.Flat .input b)
    (hsender : c.node? a = some sender) (hreceiver : c.node? b = some receiver) {e : NodeId × NodeId}
    (h₁ : e.1 ∈ sender.exposed .output) (h₂ : e.2 ∈ receiver.exposed .input) : c.Matched a b e := by
  obtain ⟨sender', output, hsender', houtput⟩ := ha a .refl
  obtain ⟨receiver', input, hreceiver', hinput⟩ := hb b .refl
  cases hsender.symm.trans hsender'
  cases hreceiver.symm.trans hreceiver'
  rw [Node.exposed, houtput, List.flatMap_singleton] at h₁
  rw [Node.exposed, hinput, List.flatMap_singleton] at h₂
  have houtputs : sender.outputs = [output] := houtput
  have hinputs : receiver.inputs = [input] := hinput
  exact ⟨sender, receiver, hsender, hreceiver,
    mem_matchedPairs.2 ⟨0, output, input, by simp [houtputs], by simp [hinputs], h₁, h₂⟩⟩

/-- Everything below a pair that was met is met too: two ways down to leaves are taken side by side. -/
theorem Joining.mem_edges {start : NodeId × NodeId} {met : PairSet} {done : Plan}
    (h : c.Joining start met done []) (hown : c.OwnPorts) {l₁ l₂ : NodeId} (hl₁ : (c.cell? l₁).isSome)
    (hl₂ : (c.cell? l₂).isSome) {p : NodeId × NodeId} {a b : NodeId} (hp : met.contains p = true)
    (he : c.Matched p.1 p.2 (a, b)) (hflat₁ : c.Flat .output a) (hflat₂ : c.Flat .input b)
    (hlead₁ : ReflTransGen (c.Opens .output) a l₁) (hlead₂ : ReflTransGen (c.Opens .input) b l₂) :
    (l₁, l₂) ∈ done.edges := by
  -- a pair that is not two leaves is met in turn, and its contract goes down on both sides
  have hmet : ∀ {p e : NodeId × NodeId}, met.contains p = true → c.Matched p.1 p.2 e → ¬ c.JoinsLeaves e →
      met.contains e = true := fun hp he hjoins => by simpa using h.join _ _ hp he hjoins
  induction hlead₁ using ReflTransGen.head_induction_on generalizing p b with
  | refl =>
    induction hlead₂ using ReflTransGen.head_induction_on generalizing p with
    | refl => simpa using h.link p (l₁, l₂) hp he ⟨hl₁, hl₂⟩
    | head hopens hrest ih =>
      have hjoins := fun hjoins : c.JoinsLeaves (l₁, _) => not_opens_of_leaf hjoins.2 hopens
      obtain ⟨receiver, hreceiver, -, hk⟩ := hopens
      obtain ⟨sender, -, hsender, -⟩ := hflat₁ l₁ .refl
      have hself : l₁ ∈ sender.exposed .output := hown.mem_exposed hl₁ hsender
      exact ih (hmet hp he hjoins) (matched_of_flat hflat₁ hflat₂ hsender hreceiver hself hk)
        (hflat₂.exposed hown hreceiver hk)
  | head hopens hrest ih =>
    have hjoins := fun hjoins : c.JoinsLeaves (_, b) => not_opens_of_leaf hjoins.1 hopens
    obtain ⟨sender, hsender, -, hk⟩ := hopens
    obtain ⟨receiver, -, hreceiver, -⟩ := hflat₂ b .refl
    obtain ⟨k, hk', hlead⟩ := hown.exists_next hl₂ hlead₂ hreceiver
    exact ih (hmet hp he hjoins) (matched_of_flat hflat₁ hflat₂ hsender hreceiver hk hk')
      (hflat₁.exposed hown hsender hk) (hflat₂.exposed hown hreceiver hk') hlead

/-! ## Leaves behind matching slots -/

/-- Two nodes that are reached from a matched pair, each on its side. -/
def Facing (c : Circuit P) (s r : NodeId) (e : NodeId × NodeId) : Prop :=
  ∃ p, c.Matched s r p ∧ ReflTransGen (c.Opens .output) p.1 e.1 ∧ ReflTransGen (c.Opens .input) p.2 e.2

theorem Facing.matched (hown : c.OwnPorts) {p e : NodeId × NodeId} (h : c.Facing s r p)
    (he : c.Matched p.1 p.2 e) : c.Facing s r e := by
  obtain ⟨q, hq, hlead₁, hlead₂⟩ := h
  obtain ⟨⟨sender, hsender, ha⟩, receiver, hreceiver, hb⟩ := he.exposed
  exact ⟨q, hq, hlead₁.trans (hown.leads hsender ha), hlead₂.trans (hown.leads hreceiver hb)⟩

/-- The leaves that stand behind matching slots, in terms of the lists of leaves. -/
theorem exists_slotLeaves (hports : c.PortsExist) (hs : s < c.size) (hr : r < c.size) :
    ∃ outputs inputs, c.slotLeaves .output s = .ok outputs ∧ c.slotLeaves .input r = .ok inputs ∧
      ∀ a b, Matches outputs inputs a b ↔ c.JoinsLeaves (a, b) ∧ c.Facing s r (a, b) := by
  obtain ⟨sender, hsender⟩ := node?_of_lt hs
  obtain ⟨receiver, hreceiver⟩ := node?_of_lt hr
  obtain ⟨outputs, houtputs, hall₁⟩ := slotLeaves_eq_ok hports .output hsender
  obtain ⟨inputs, hinputs, hall₂⟩ := slotLeaves_eq_ok hports .input hreceiver
  refine ⟨outputs, inputs, houtputs, hinputs, fun a b => ⟨?_, ?_⟩⟩
  · rintro ⟨i, as, bs, has, hbs, ha, hb⟩
    obtain ⟨output, houtput, hmem₁⟩ := getElem?_of_forall₂ hall₁ has
    obtain ⟨input, hinput, hmem₂⟩ := getElem?_of_forall₂ hall₂ hbs
    obtain ⟨x, hx, hleaf₁, hlead₁⟩ := (hmem₁ a).1 ha
    obtain ⟨y, hy, hleaf₂, hlead₂⟩ := (hmem₂ b).1 hb
    exact ⟨⟨hleaf₁, hleaf₂⟩, (x, y), ⟨sender, receiver, hsender, hreceiver,
      mem_matchedPairs.2 ⟨i, output, input, houtput, hinput, hx, hy⟩⟩, hlead₁, hlead₂⟩
  · rintro ⟨⟨hleaf₁, hleaf₂⟩, ⟨x, y⟩, ⟨sender', receiver', hsender', hreceiver', hp⟩, hlead₁, hlead₂⟩
    cases hsender.symm.trans hsender'
    cases hreceiver.symm.trans hreceiver'
    obtain ⟨i, output, input, houtput, hinput, hx, hy⟩ := mem_matchedPairs.1 hp
    obtain ⟨as, has, hmem₁⟩ := getElem?_of_forall₂ hall₁.flip houtput
    obtain ⟨bs, hbs, hmem₂⟩ := getElem?_of_forall₂ hall₂.flip hinput
    exact ⟨i, as, bs, has, hbs, (hmem₁ a).2 ⟨x, hx, hleaf₁, hlead₁⟩, (hmem₂ b).2 ⟨y, hy, hleaf₂, hlead₂⟩⟩

/-! ## Connections -/

variable {lenient : Bool}

/-- However it ends, a connection records edges between leaves behind matching slots only. -/
theorem facing_of_mem_plan (hown : c.OwnPorts) (hports : c.PortsExist) :
    ∀ e ∈ (c.plan s r lenient).edges, c.Facing s r e := by
  rw [plan, planFrom, dif_neg (by simp)]
  split
  · simp
  · next tasks htasks =>
    -- the pair itself need not face itself, so its contract is taken apart from the others
    have hmatched := (contracted_of_contract hports htasks).matched
    refine planFrom_keeps hports (fun p e hp he => hp.matched hown he) (by simp) fun task htask => ?_
    rw [List.append_nil] at htask
    exact ⟨task.pair, hmatched task htask, .refl, .refl⟩

/-- The containers below two nodes have a single slot on the side that is opened. -/
structure SingleSlots (c : Circuit P) (s r : NodeId) : Prop where
  outputs : ∀ n node, TransGen (c.Opens .output) s n → c.node? n = some node → node.isLeaf = false →
    node.outputs.length = 1
  inputs : ∀ n node, TransGen (c.Opens .input) r n → c.node? n = some node → node.isLeaf = false →
    node.inputs.length = 1

section Single

variable {sender receiver : Node P}

theorem SingleSlots.flat (h : c.SingleSlots s r) (hown : c.OwnPorts) (hports : c.PortsExist)
    {e : NodeId × NodeId} (he : c.Matched s r e) : c.Flat .output e.1 ∧ c.Flat .input e.2 := by
  obtain ⟨⟨sender, hsender, ha⟩, receiver, hreceiver, hb⟩ := he.exposed
  exact ⟨flat_of_exposed hown hports h.outputs hsender ha, flat_of_exposed hown hports h.inputs hreceiver hb⟩

/-- The first pair, or one below it, where both sides have a single slot all the way down. -/
def Levels (c : Circuit P) (s r : NodeId) (p : NodeId × NodeId) : Prop :=
  p = (s, r) ∨ (c.Flat .output p.1 ∧ c.Flat .input p.2)

theorem SingleSlots.levels (h : c.SingleSlots s r) (hown : c.OwnPorts) (hports : c.PortsExist)
    {p e : NodeId × NodeId} (hp : c.Levels s r p) (he : c.Matched p.1 p.2 e) : c.Levels s r e := by
  rcases hp with rfl | ⟨hflat₁, hflat₂⟩
  · exact Or.inr (h.flat hown hports he)
  · obtain ⟨⟨_, ha, ha'⟩, _, hb, hb'⟩ := he.exposed
    exact Or.inr ⟨hflat₁.exposed hown ha ha', hflat₂.exposed hown hb hb'⟩

theorem Levels.contract {p : NodeId × NodeId} (hp : c.Levels s r p) (hports : c.PortsExist)
    (hs : c.node? s = some sender) (hr : c.node? r = some receiver) (houtputs : sender.outputs ≠ [])
    (hinputs : receiver.inputs ≠ [])
    (hlength : sender.outputs.length = receiver.inputs.length ∨ lenient = true) :
    ∃ tasks, c.contract lenient p.1 p.2 = .ok tasks := by
  rcases hp with rfl | ⟨hflat₁, hflat₂⟩
  · exact ⟨_, (contract_eq_ok hports hs hr).2 ⟨houtputs, hinputs, hlength, rfl⟩⟩
  · obtain ⟨a, output, ha, houtput⟩ := hflat₁ p.1 .refl
    obtain ⟨b, input, hb, hinput⟩ := hflat₂ p.2 .refl
    have houtput : a.outputs = [output] := houtput
    have hinput : b.inputs = [input] := hinput
    have hlength : a.outputs.length = b.inputs.length := by simp [houtput, hinput]
    exact ⟨_, (contract_eq_ok hports ha hb).2 ⟨by simp [houtput], by simp [hinput], Or.inl hlength, rfl⟩⟩

theorem plan_succeeds (hown : c.OwnPorts) (hports : c.PortsExist) (hsingle : c.SingleSlots s r)
    (hs : c.node? s = some sender) (hr : c.node? r = some receiver) (houtputs : sender.outputs ≠ [])
    (hinputs : receiver.inputs ≠ [])
    (hlength : sender.outputs.length = receiver.inputs.length ∨ lenient = true) :
    (c.plan s r lenient).failure = none := by
  refine planFrom_succeeds hports (fun p e => hsingle.levels hown hports)
    (fun p hp => hp.contract hports hs hr houtputs hinputs hlength) rfl fun task htask => ?_
  rw [List.mem_singleton.1 htask]
  exact Or.inl rfl

theorem mem_plan_of_facing (hown : c.OwnPorts) (hports : c.PortsExist) (hsingle : c.SingleSlots s r)
    (hplan : (c.plan s r lenient).failure = none) {a b : NodeId} (hjoins : c.JoinsLeaves (a, b))
    (h : c.Facing s r (a, b)) : (a, b) ∈ (c.plan s r lenient).edges := by
  have hstart : c.Joining (s, r) {} {} [.join s r] := ⟨by simp, by simp, by simp⟩
  obtain ⟨met, hmet⟩ := joining_planFrom hports hstart hplan
  obtain ⟨p, hp, hlead₁, hlead₂⟩ := h
  obtain ⟨hflat₁, hflat₂⟩ := hsingle.flat hown hports hp
  exact hmet.mem_edges hown hjoins.1 hjoins.2 (by simpa using hmet.start) hp hflat₁ hflat₂ hlead₁ hlead₂

end Single

theorem mem_targetsIn {edges : List (NodeId × NodeId)} {a b : NodeId} :
    b ∈ targetsIn edges a ↔ (a, b) ∈ edges := by
  simp only [targetsIn, List.mem_filterMap, Option.ite_none_right_eq_some, Option.some.injEq]
  constructor
  · rintro ⟨e, he, rfl, rfl⟩
    exact he
  · exact fun he => ⟨(a, b), he, rfl, rfl⟩

/-- The edges that a connection adds are the edges of its plan. -/
theorem gains_connect {a b : NodeId} : Gains c (c.connect s r lenient).circuit a b ↔
    (a, b) ∈ (c.plan s r lenient).edges := by
  rw [Gains, connect, forwardOf, forwardOf, node?_linkAll, Array.mem_def, ← mem_targetsIn]
  cases ha : c.node? a with
  | some node => simp [List.count_append]
  | none =>
    have hnone : b ∉ targetsIn (c.plan s r lenient).edges.toList a := fun hmem => by
      have hjoins : c.JoinsLeaves (a, b) :=
        joinsLeaves_of_planFrom (by simp) (by simp) _ (Array.mem_def.2 (mem_targetsIn.1 hmem))
      obtain ⟨node, hnode⟩ := node?_of_lt (lt_size_of_cell? hjoins.1)
      cases ha.symm.trans hnode
    simp [hnone]

/-- A connection joins only leaves behind matching slots, also if it ends early. If all containers
below the two nodes have a single slot, it joins all of them. -/
theorem connect_joins_matching (hc : c.Built) (hports : c.PortsExist) {sender receiver : Node P}
    (hs : c.node? s = some sender) (hr : c.node? r = some receiver) (lenient : Bool) :
    ∃ outputs inputs, c.slotLeaves .output s = .ok outputs ∧ c.slotLeaves .input r = .ok inputs ∧
      (∀ a b, Gains c (c.connect s r lenient).circuit a b → Matches outputs inputs a b) ∧
      (c.SingleSlots s r → sender.outputs ≠ [] → receiver.inputs ≠ [] →
        (sender.outputs.length = receiver.inputs.length ∨ lenient = true) →
        (c.connect s r lenient).failure = none ∧
          ∀ a b, Gains c (c.connect s r lenient).circuit a b ↔ Matches outputs inputs a b) := by
  have hown := hc.ownPorts
  obtain ⟨outputs, inputs, houtputs, hinputs, hmatches⟩ :=
    exists_slotLeaves hports (lt_size_of_node? hs) (lt_size_of_node? hr)
  have hsound : ∀ a b, Gains c (c.connect s r lenient).circuit a b → Matches outputs inputs a b := by
    intro a b hab
    have hmem := gains_connect.1 hab
    refine (hmatches a b).2 ⟨?_, facing_of_mem_plan hown hports _ hmem⟩
    exact joinsLeaves_of_planFrom (by simp) (by simp) _ hmem
  refine ⟨outputs, inputs, houtputs, hinputs, hsound, fun hsingle hne hne' hlength => ?_⟩
  have hplan := plan_succeeds hown hports hsingle hs hr hne hne' hlength
  refine ⟨hplan, fun a b => ⟨hsound a b, fun hab => gains_connect.2 ?_⟩⟩
  obtain ⟨hjoins, hfacing⟩ := (hmatches a b).1 hab
  exact mem_plan_of_facing hown hports hsingle hplan hjoins hfacing

/-- A gate behind a container that also holds itself and behind one more container, and two gates
that share a slot of a container. -/
def burrow : Circuit Unit :=
  let c := (Circuit.mk #[]).addLeaves [.gate .or, .gate .or, .gate .or]
  let c := (c.addContainer [.single 0] [.bus [0, 3]]).1
  let c := (c.addContainer [.single 0] [.single 3]).1
  (c.addContainer [.bus [1, 2]] [.single 1]).1

theorem built_burrow : burrow.Built := by
  have hgates := Built.addLeaf (.addLeaf (.addLeaf (P := Unit) .empty (.gate .or)) (.gate .or)) (.gate .or)
  exact ((hgates.addContainer [.single 0] [.bus [0, 3]]).addContainer [.single 0] [.single 3]).addContainer
    [.bus [1, 2]] [.single 1]

theorem connect_joins_matching_burrow : burrow.Built ∧ burrow.PortsExist ∧
    (∃ sender, burrow.node? 4 = some sender) ∧ (∃ receiver, burrow.node? 5 = some receiver) ∧
    burrow.SingleSlots 4 5 ∧ (burrow.connect 4 5 false).failure = none ∧
    ∀ a b, Gains burrow (burrow.connect 4 5 false).circuit a b ↔ Matches [[0]] [[1, 2]] a b := by
  have hports : burrow.PortsExist := of_decide_eq_true (by cbv)
  have hsender : burrow.node? 4 = some
      { kind := .container, inputs := [.single 0], outputs := [.single 3] } := by cbv
  have hreceiver : burrow.node? 5 = some
      { kind := .container, inputs := [.bus [1, 2]], outputs := [.single 1] } := by cbv
  have hslots : ∀ node ∈ burrow.nodes.toList, node.outputs.length = 1 ∧ node.inputs.length = 1 :=
    of_decide_eq_true (by cbv)
  have hall : ∀ n node, burrow.node? n = some node → node.outputs.length = 1 ∧ node.inputs.length = 1 :=
    fun n node hn => hslots node (Array.mem_def.1 (Array.mem_of_getElem? hn))
  have hsingle : burrow.SingleSlots 4 5 :=
    ⟨fun n node _ hn _ => (hall n node hn).1, fun n node _ hn _ => (hall n node hn).2⟩
  have houtputs : burrow.slotLeaves .output 4 = .ok [[0]] := by cbv
  have hinputs : burrow.slotLeaves .input 5 = .ok [[1, 2]] := by cbv
  obtain ⟨outputs, inputs, houtputs', hinputs', -, hjoins⟩ :=
    connect_joins_matching built_burrow hports hsender hreceiver false
  cases houtputs.symm.trans houtputs'
  cases hinputs.symm.trans hinputs'
  exact ⟨built_burrow, hports, ⟨_, hsender⟩, ⟨_, hreceiver⟩, hsingle,
    hjoins hsingle (by simp) (by simp) (Or.inl rfl)⟩

end Circuit

end Netlist
