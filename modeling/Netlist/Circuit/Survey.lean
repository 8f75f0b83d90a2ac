/-
The survey of a circuit from a root: a depth-first walk that visits the neighbours of a node in
order (input ports, output ports, forward edges, backward edges) and enters no node twice. The
root has depth 1. A node whose depth reaches the budget is reported and not entered, and it stays
unseen, so that a shorter branch may still reach it.
-/
import Netlist.Circuit.Basic
import Netlist.Visited

namespace Netlist

variable {P : Type}

/-- What a survey has listed, in the order of discovery. -/
structure Survey where
  leaves : Array NodeId := #[]
  containers : Array NodeId := #[]
  /-- One `Failure.depthExhausted` for each time the budget cut a branch off. -/
  diagnostics : Array Failure := #[]
  deriving DecidableEq, Repr

/-- Lists a node that is entered. -/
def Survey.list (found : Survey) (n : NodeId) (node : Node P) : Survey :=
  if node.isLeaf then { found with leaves := found.leaves.push n }
  else { found with containers := found.containers.push n }

/-- Reports a node that the budget cuts off. -/
def Survey.cut (found : Survey) (n : NodeId) (maxDepth : Nat) : Survey :=
  { found with diagnostics := found.diagnostics.push (.depthExhausted n maxDepth) }

namespace Circuit

/-- Continues a survey. The stack holds the branch that is walked, innermost first: for each node on
it the neighbours that are still to be visited there. The last entry holds the root until it is
visited, so the node that is visited next is as deep as the stack has entries. -/
def surveyFrom (c : Circuit P) (maxDepth : Nat) (seen : NodeSet) (found : Survey)
    (stack : List (List NodeId)) (depth : Nat) (hdepth : depth = stack.length) : Except Failure Survey :=
  match stack with
  | [] => .ok found
  | [] :: below => surveyFrom c maxDepth seen found below (depth - 1) (Nat.sub_eq_of_eq_add hdepth)
  | (n :: siblings) :: below =>
    if _fresh : seen.contains n then surveyFrom c maxDepth seen found (siblings :: below) depth hdepth
    else if maxDepth ≤ depth then
      surveyFrom c maxDepth seen (found.cut n maxDepth) (siblings :: below) depth hdepth
    else
      match _found : c.fetch n with
      | .error e => .error e
      | .ok node =>
        surveyFrom c maxDepth (seen.insert n) (found.list n node) (node.neighbours :: siblings :: below)
          (depth + 1) (congrArg (· + 1) hdepth)
termination_by (unvisited c.ids seen, stack.flatten.length + stack.length)
decreasing_by
  · exact Prod.Lex.right _ (by simp)
  · exact Prod.Lex.right _ (by simp)
  · exact Prod.Lex.right _ (by simp)
  · exact Prod.Lex.left _ _ (unvisited_insert_lt (mem_ids_of_fetch _found) (by simpa using _fresh))

/-- Surveys a circuit from a root. -/
def survey (c : Circuit P) (root : NodeId) (maxDepth : Nat) : Except Failure Survey :=
  c.surveyFrom maxDepth {} {} [[root]] 1 rfl

end Circuit

end Netlist
