/-
The survey as a recursive procedure. Visiting a node lists it and visits its neighbours in order, one
level deeper; the marks are shared by all branches, and a node that the budget cuts off stays
unmarked. Working off the stack of a survey is visiting the nodes of its frames, innermost first, so
both list the same nodes in the same order and report the same cuts.
-/
import Netlist.Proofs.Network.Budget

namespace Netlist

variable {P : Type}

namespace Circuit

/-- What a recursive walk has marked and listed so far. -/
structure Walk where
  seen : NodeSet := {}
  found : Survey := {}

/-- Marks and lists a node that is entered. -/
def Walk.enter (w : Walk) (n : NodeId) (node : Node P) : Walk := ⟨w.seen.insert n, w.found.list n node⟩

/-- Reports a node that the budget cuts off, without a mark. -/
def Walk.cut (w : Walk) (n : NodeId) (maxDepth : Nat) : Walk := { w with found := w.found.cut n maxDepth }

/-- Visits a node at a depth, and then everything next to it one level deeper. -/
def visit (c : Circuit P) (maxDepth depth : Nat) (w : Walk) (n : NodeId) : Except Failure Walk :=
  if w.seen.contains n then .ok w
  else if maxDepth ≤ depth then .ok (w.cut n maxDepth)
  else do
    let node ← c.fetch n
    node.neighbours.foldlM (fun w m => c.visit maxDepth (depth + 1) w m) (w.enter n node)
termination_by maxDepth - depth

/-- Visits some nodes at one depth, one after another. -/
def visitAll (c : Circuit P) (maxDepth depth : Nat) (w : Walk) (ns : List NodeId) : Except Failure Walk :=
  ns.foldlM (c.visit maxDepth depth) w

variable {c : Circuit P} {maxDepth depth : Nat} {w : Walk} {n : NodeId} {ns : List NodeId}

theorem visitAll_cons :
    c.visitAll maxDepth depth w (n :: ns) = c.visit maxDepth depth w n >>= (c.visitAll maxDepth depth · ns) :=
  List.foldlM_cons

/-! ## One visit -/

theorem visit_of_seen (h : w.seen.contains n = true) : c.visit maxDepth depth w n = .ok w := by
  rw [visit, if_pos h]

theorem visit_of_deep (h : ¬ w.seen.contains n = true) (hdepth : maxDepth ≤ depth) :
    c.visit maxDepth depth w n = .ok (w.cut n maxDepth) := by
  rw [visit, if_neg h, if_pos hdepth]

/-- A fresh node within the budget is entered, and its neighbours are visited. -/
theorem visit_of_fresh (h : ¬ w.seen.contains n = true) (hdepth : ¬ maxDepth ≤ depth) :
    c.visit maxDepth depth w n =
      c.fetch n >>= fun node => c.visitAll maxDepth (depth + 1) (w.enter n node) node.neighbours := by
  rw [visit, if_neg h, if_neg hdepth]
  rfl

/-! ## The stack of a survey -/

/-- Visits the nodes on a stack, innermost first. The nodes of an entry are as deep as there are entries from
it down. -/
def visitStack (c : Circuit P) (maxDepth : Nat) (w : Walk) : List (List NodeId) → Except Failure Walk
  | [] => .ok w
  | frame :: below => do c.visitStack maxDepth (← c.visitAll maxDepth (below.length + 1) w frame) below

/-- A node on top of the stack is visited before its siblings. -/
theorem visitStack_cons {siblings : List NodeId} {below : List (List NodeId)} :
    c.visitStack maxDepth w ((n :: siblings) :: below) =
      c.visit maxDepth ((n :: siblings) :: below).length w n >>= (c.visitStack maxDepth · (siblings :: below)) := by
  simp only [visitStack, visitAll_cons, bind_assoc, List.length_cons]

/-- Going on with a survey is visiting what is on its stack, innermost first. -/
theorem surveyFrom_eq_visits (c : Circuit P) (maxDepth : Nat) (seen : NodeSet) (found : Survey)
    (stack : List (List NodeId)) (depth : Nat) (hdepth : depth = stack.length) :
    c.surveyFrom maxDepth seen found stack depth hdepth =
      (c.visitStack maxDepth ⟨seen, found⟩ stack).map (·.found) := by
  fun_induction surveyFrom c maxDepth seen found stack depth hdepth with
  | case1 => rfl
  | case2 seen found below _ ih => exact ih
  | case3 seen found n siblings below hn _ ih =>
    rw [visitStack_cons, visit_of_seen hn]
    exact ih
  | case4 seen found n siblings below hn hdepth _ ih =>
    rw [visitStack_cons, visit_of_deep hn hdepth]
    exact ih
  | case5 seen found n siblings below hn e he hdepth _ =>
    rw [visitStack_cons, visit_of_fresh hn hdepth, he]
    rfl
  | case6 seen found n siblings below hn node hnode hdepth _ ih =>
    -- the neighbours are visited before the siblings, as the frame of the node lies on top
    rw [visitStack_cons, visit_of_fresh hn hdepth, hnode]
    exact ih

/-- A survey is a visit of its root at depth 1, also where it fails. -/
theorem survey_eq_visit (c : Circuit P) (root : NodeId) (maxDepth : Nat) :
    c.survey root maxDepth = (c.visit maxDepth 1 {} root).map (·.found) := by
  rw [survey, surveyFrom_eq_visits, visitStack_cons]
  cases c.visit maxDepth 1 {} root <;> rfl

/-! ## Ids -/

/-- A visit looks at no id. -/
theorem visit_withoutIds (c : Circuit P) (maxDepth depth : Nat) (w : Walk) (n : NodeId) :
    (Network.withoutIds c).visit maxDepth depth w n = c.visit maxDepth depth w n := by
  induction hbudget : maxDepth - depth using Nat.strongRecOn generalizing depth w n with
  | ind budget ih =>
    by_cases hn : w.seen.contains n = true
    · rw [visit_of_seen hn, visit_of_seen hn]
    by_cases hdepth : maxDepth ≤ depth
    · rw [visit_of_deep hn hdepth, visit_of_deep hn hdepth]
    have hvisit : (Network.withoutIds c).visit maxDepth (depth + 1) = c.visit maxDepth (depth + 1) :=
      funext fun w => funext fun m => ih (maxDepth - (depth + 1)) (by omega) (depth + 1) w m rfl
    rw [visit_of_fresh hn hdepth, visit_of_fresh hn hdepth, fetch, fetch, Network.node?_withoutIds,
      Network.size_withoutIds]
    unfold visitAll
    rw [hvisit]
    cases c.node? n <;> rfl

end Circuit

namespace Network

open Circuit

theorem containers_eliminate (net : Network P) (o : CompileOptions) :
    (net.eliminate o).containers = net.containers := by
  unfold eliminate
  split
  · split <;> rfl
  · rfl

/-- Compiling explores a network as a recursive visit of the root does, from any root and with any budget.
The visit of a node succeeds, its leaves are those that are listed before anything is eliminated, and no
elimination touches its containers and its diagnostics. -/
theorem compile_visits (net : Network P) (hc : net.circuit.Built) (hports : net.circuit.PortsExist)
    (o : CompileOptions) :
    net.circuit.survey net.root o.maxDepth = (net.circuit.visit o.maxDepth 1 {} net.root).map (·.found) ∧
    (net.root < net.circuit.size → ∃ w net', net.circuit.visit o.maxDepth 1 {} net.root = .ok w ∧
      net.circuit.survey net.root o.maxDepth = .ok w.found ∧ net.compile o = .ok net' ∧
      net'.containers = w.found.containers.toList ∧ net'.diagnostics = w.found.diagnostics.toList ∧
      (o.deadEnds = false → net'.leaves = w.found.leaves.toList)) := by
  refine ⟨survey_eq_visit .., fun hroot => ?_⟩
  obtain ⟨found, hsurvey, -⟩ := exists_survey hc.wellWired hports hroot o.maxDepth
  have hvisit := survey_eq_visit (withoutIds net.circuit) net.root o.maxDepth
  rw [hsurvey, visit_withoutIds] at hvisit
  cases hw : net.circuit.visit o.maxDepth 1 {} net.root with
  | error e =>
    rw [hw] at hvisit
    cases hvisit
  | ok w =>
    rw [hw] at hvisit
    cases hvisit
    refine ⟨w, _, rfl, ?_, compile_of_survey hsurvey, ?_, ?_, ?_⟩
    · rw [survey_eq_visit, hw]
      rfl
    · exact containers_eliminate _ o
    · exact diagnostics_eliminate _ o
    · intro hends
      rw [eliminate, hends]
      rfl

/-- With a budget of 3, the second gate of the relay is cut off behind the first one, and then entered
from the root. -/
theorem compile_visits_relay : relay.Built ∧ relay.PortsExist ∧ 3 < relay.size ∧ ∃ w net,
    relay.visit 3 1 {} 3 = .ok w ∧ relay.survey 3 3 = .ok w.found ∧
      w.found = ⟨#[0, 1], #[3], #[.depthExhausted 1 3, .depthExhausted 2 3]⟩ ∧
      (Network.mk relay 3 [] [] [] {}).compile ⟨3, false, false⟩ = .ok net ∧ net.leaves = [0, 1] ∧
      net.containers = [3] ∧ net.diagnostics = [.depthExhausted 1 3, .depthExhausted 2 3] := by
  have hports : relay.PortsExist := of_decide_eq_true (by cbv)
  have hroot : 3 < relay.size := of_decide_eq_true (by cbv)
  have hfound : (relay.survey 3 3).toOption =
      some ⟨#[0, 1], #[3], #[.depthExhausted 1 3, .depthExhausted 2 3]⟩ := by cbv
  obtain ⟨w, net, hvisit, hsurvey, hcompile, hcontainers, hdiagnostics, hleaves⟩ :=
    (compile_visits (Network.mk relay 3 [] [] [] {}) built_relay hports ⟨3, false, false⟩).2 hroot
  rw [hsurvey] at hfound
  have hfound := Option.some.inj hfound
  rw [hfound] at hcontainers hdiagnostics hleaves
  exact ⟨built_relay, hports, hroot, w, net, hvisit, hsurvey, hfound, hcompile, hleaves rfl, hcontainers,
    hdiagnostics⟩

end Network

end Netlist
