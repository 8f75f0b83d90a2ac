/-
Connecting two nodes. The slots of the sender's outputs and of the receiver's inputs are matched by
position, and every node behind the one slot is joined to every node behind the other: two leaves
by an edge, any other pair by the same contract one level down. A pair whose contract was met
before is not joined again, so the work ends however containers are nested.

A `Plan` is the work of one connection: the edges in the order in which they are recorded, the
pairs whose contract was evaluated, and the failure that ended the work, if one did. It depends on
kinds and ports only, which edges do not change; a connection that fails keeps the edges it has
recorded.
-/
import Netlist.Circuit.Basic
import Netlist.Visited

namespace Netlist.Circuit

variable {P : Type}

/-! ## The contract of one pair -/

/-- Work that is left in a connection. -/
inductive Task where
  /-- Apply the contract to a sender and a receiver. -/
  | join (sender receiver : NodeId)
  /-- Record an edge. -/
  | link (source target : NodeId)
  deriving DecidableEq, Repr

/-- The pairs to join for one slot, with the sender's nodes in the outer loop. -/
def slotPairs (output input : Port) : List (NodeId × NodeId) :=
  output.nodes.flatMap fun a => input.nodes.map fun b => (a, b)

/-- The pairs to join for all slots, as many as both sides have. -/
def matchedPairs (outputs inputs : List Port) : List (NodeId × NodeId) :=
  (outputs.zip inputs).flatMap fun slots => slotPairs slots.1 slots.2

/-- What to do for a pair that the contract of `parent` reaches: an edge between leaves, nothing
for the parent itself, and the contract otherwise. -/
def taskOf (c : Circuit P) (parent pair : NodeId × NodeId) : Except Failure (Option Task) := do
  let a ← c.fetch pair.1
  if a.isLeaf then
    let b ← c.fetch pair.2
    if b.isLeaf then return some (.link pair.1 pair.2)
  return if pair = parent then none else some (.join pair.1 pair.2)

/-- Checks the contract between two nodes and lists the work that it asks for. Unequal numbers of
slots are refused unless `lenient` is set. -/
def contract (c : Circuit P) (lenient : Bool) (sender receiver : NodeId) :
    Except Failure (List Task) := do
  let s ← c.fetch sender
  let r ← c.fetch receiver
  if s.outputs.isEmpty then throw (.noPorts sender)
  if r.inputs.isEmpty then throw (.noPorts receiver)
  if s.outputs.length ≠ r.inputs.length ∧ lenient = false then
    throw (.arityMismatch sender receiver s.outputs.length r.inputs.length)
  let tasks ← (matchedPairs s.outputs r.inputs).mapM (c.taskOf (sender, receiver))
  return tasks.filterMap id

/-! ## The plan of a connection -/

/-- The work of a connection. -/
structure Plan where
  /-- The edges, in the order in which they are recorded. -/
  edges : Array (NodeId × NodeId) := #[]
  /-- The pairs whose contract was evaluated, in order. -/
  visited : Array (NodeId × NodeId) := #[]
  /-- Why the work ended early. -/
  failure : Option Failure := none
  deriving DecidableEq, Repr

/-- All pairs of nodes. -/
def pairs (c : Circuit P) : List (NodeId × NodeId) :=
  c.ids.flatMap fun a => c.ids.map fun b => (a, b)

theorem mem_pairs {c : Circuit P} {p : NodeId × NodeId} :
    p ∈ c.pairs ↔ p.1 ∈ c.ids ∧ p.2 ∈ c.ids := by
  cases p
  simp [pairs]

theorem mem_pairs_of_contract {c : Circuit P} {lenient : Bool} {s r : NodeId} {tasks : List Task}
    (h : c.contract lenient s r = .ok tasks) : (s, r) ∈ c.pairs := by
  unfold contract at h
  cases hs : c.fetch s with
  | error e => simp [hs, bind, Except.bind] at h
  | ok sender =>
    cases hr : c.fetch r with
    | error e => simp [hs, hr, bind, Except.bind] at h
    | ok receiver => exact mem_pairs.2 ⟨mem_ids_of_fetch hs, mem_ids_of_fetch hr⟩

/-- The number of pairs of nodes outside of a set. -/
def unmet (c : Circuit P) (met : PairSet) : Nat := c.pairs.countP (!met.contains ·)

theorem unmet_insert_lt {c : Circuit P} {met : PairSet} {p : NodeId × NodeId}
    (mem : p ∈ c.pairs) (fresh : met.contains p = false) :
    c.unmet (met.insert p) < c.unmet met := by
  refine countP_lt_countP (fun q h => ?_) mem (by simpa using fresh) (by simp)
  simp_all

/-- Works off `pending`, next task first, after `done`. The pairs in `met` are not joined again. -/
def planFrom (c : Circuit P) (lenient : Bool) (met : PairSet) (done : Plan)
    (pending : List Task) : Plan :=
  match pending with
  | [] => done
  | .link a b :: rest => planFrom c lenient met { done with edges := done.edges.push (a, b) } rest
  | .join s r :: rest =>
    if _fresh : met.contains (s, r) then planFrom c lenient met done rest
    else
      match _found : c.contract lenient s r with
      | .error e => { done with visited := done.visited.push (s, r), failure := some e }
      | .ok tasks =>
        planFrom c lenient (met.insert (s, r)) { done with visited := done.visited.push (s, r) }
          (tasks ++ rest)
termination_by (c.unmet met, pending.length)
decreasing_by
  · exact Prod.Lex.right _ (Nat.lt_succ_self _)
  · exact Prod.Lex.right _ (Nat.lt_succ_self _)
  · exact Prod.Lex.left _ _ (unmet_insert_lt (mem_pairs_of_contract _found) (by simpa using _fresh))

/-- The work of connecting a sender to a receiver. -/
def plan (c : Circuit P) (sender receiver : NodeId) (lenient : Bool) : Plan :=
  c.planFrom lenient {} {} [.join sender receiver]

/-! ## Connecting -/

/-- A circuit after a connection, and why the connection ended early, if it did. -/
structure Wired (P : Type) where
  circuit : Circuit P
  failure : Option Failure

/-- The circuit after a connection that did not end early. -/
def Wired.complete (w : Wired P) : Except Failure (Circuit P) :=
  match w.failure with
  | none => .ok w.circuit
  | some e => .error e

/-- Connects the outputs of a sender to the inputs of a receiver. -/
def connect (c : Circuit P) (sender receiver : NodeId) (lenient : Bool) : Wired P :=
  let plan := c.plan sender receiver lenient
  ⟨c.linkAll plan.edges.toList, plan.failure⟩

end Netlist.Circuit
