/-
Everything that can go wrong, one constructor for each cause, and the sentence that reports it.
The first group are refusals that a caller is expected to meet. The second group are broken
preconditions: a node that does not exist, a coordinate that does not fit, a network without a
first gate. They are told apart by `Failure.isFault`.
-/
namespace Netlist

/-! ## Causes -/

/-- Why a file could not be opened or written. -/
inductive FileFault where
  | notFound
  | notADirectory
  | isADirectory
  | nameTooLong
  | noSpace
  | denied
  | inputOutput
  /-- A terminal that the program does not have. -/
  | noDevice
  /-- The path holds a null character. -/
  | nullInName
  deriving DecidableEq, Repr

/-- How a circuit or a network contradicts itself. -/
inductive Inconsistency where
  /-- An edge has different multiplicities on its two ends. -/
  | unequalEnds (source target forward backward : Nat)
  /-- An edge is recorded on its target only. -/
  | missingForward (source target : Nat)
  /-- A leaf is listed twice. -/
  | listedTwice (node : Nat)
  /-- A container is listed as a leaf. -/
  | listedContainer (node : Nat)
  /-- The id of a listed leaf is not its position. -/
  | wrongId (node : Nat) (id : Option Nat) (position : Nat)
  /-- An edge of a listed leaf ends outside the list. -/
  | leavesNetwork (source target : Nat)
  /-- A node that is not listed has an id. -/
  | strayId (node id : Nat)
  deriving DecidableEq, Repr

/-- The causes of failure of all operations. -/
inductive Failure where
  /-- No gate mode has this name or number. -/
  | unknownMode (text : String)
  /-- The node has no port on the side to connect. -/
  | noPorts (node : Nat)
  /-- Sender and receiver have different numbers of slots. -/
  | arityMismatch (sender receiver outputs inputs : Nat)
  /-- A branch of the traversal is longer than the budget. -/
  | depthExhausted (node maxDepth : Nat)
  /-- Containers are not exported. -/
  | containerExport (node : Nat)
  /-- The leaf was not identified by the last compilation. -/
  | notInNetwork (node : Nat)
  /-- A part has more incoming connections than the format takes. -/
  | tooManyInputs (part count limit : Nat)
  /-- A timer is longer than the simulator takes. -/
  | timerTooLong (part delay limit : Nat)
  /-- No part has this id. -/
  | unknownPart (part : Nat)
  /-- The id of a part is not its position. -/
  | misplacedPart (part position : Nat)
  /-- A file could not be opened or written. -/
  | file (fault : FileFault)
  /-- A text is no part list. -/
  | malformed
  /-- The circuit has no such node. -/
  | missingNode (node size : Nat)
  /-- A list has no entry at this position. -/
  | missingEntry (position length : Nat)
  /-- The root is no node of the circuit. -/
  | badRoot (node : Nat)
  /-- The ports of a leaf cannot be replaced. -/
  | leafPorts
  /-- A coordinate does not fit 32 bits. -/
  | overflow
  /-- A generator was called outside of its domain. -/
  | unmet (condition : String)
  /-- A consistency check failed. -/
  | inconsistent (what : Inconsistency)
  deriving DecidableEq, Repr

/-- Whether the failure is a broken precondition rather than a refusal. -/
def Failure.isFault : Failure → Bool
  | .missingNode .. | .missingEntry .. | .badRoot _ | .leafPorts | .overflow | .unmet _
  | .inconsistent _ => true
  | _ => false

/-! ## Reports -/

/-- The name of a node in a report. -/
def nodeName (node : Nat) : String := s!"n{node}"

/-- The report of two values that should be equal. -/
def unequalReport (what left right : String) : String :=
  s!"assertion `left == right` failed: {what}\n  left: {left}\n right: {right}"

/-- An id as it is shown in a report. -/
def idReport : Option Nat → String
  | none => "None"
  | some id => s!"Some({id})"

/-- The sentence that reports a file fault. -/
def FileFault.message : FileFault → String
  | .notFound => "No such file or directory (os error 2)"
  | .notADirectory => "Not a directory (os error 20)"
  | .isADirectory => "Is a directory (os error 21)"
  | .nameTooLong => "File name too long (os error 36)"
  | .noSpace => "No space left on device (os error 28)"
  | .denied => "Permission denied (os error 13)"
  | .inputOutput => "Input/output error (os error 5)"
  | .noDevice => "No such device or address (os error 6)"
  | .nullInName => "file name contained an unexpected NUL byte"

/-- The report of a position behind the end of an array. -/
def boundsReport (position length : Nat) : String :=
  s!"index out of bounds: the len is {length} but the index is {position}"

/-- The report of an edge, followed by what is wrong with it. -/
def edgeReport (source target : Nat) (what : String) : String :=
  s!"Edge {nodeName source} -> {nodeName target} {what}"

/-- The sentence that reports an inconsistency. -/
def Inconsistency.message : Inconsistency → String
  | .unequalEnds a b forward backward =>
    unequalReport (edgeReport a b "is not mirrored") (toString forward) (toString backward)
  | .missingForward a b => edgeReport a b "is not mirrored"
  | .listedTwice n => s!"{nodeName n} is listed twice"
  | .listedContainer n => s!"{nodeName n} is not a leaf"
  | .wrongId n id position =>
    unequalReport s!"Bad id for {nodeName n}" (idReport id) (idReport (some position))
  | .leavesNetwork a b => edgeReport a b "leaves the network"
  | .strayId n id =>
    unequalReport s!"{nodeName n} has an id but is not listed" (idReport (some id)) (idReport none)

/-- The sentence that reports a failure. -/
def Failure.message : Failure → String
  | .unknownMode text => s!"logic gate mode cannot be '{text}'"
  | .noPorts n => s!"{nodeName n} has no port to connect"
  | .arityMismatch s r outputs inputs =>
    s!"cannot connect {nodeName s} ({outputs} outputs) to {nodeName r} ({inputs} inputs); " ++
      "allow the arity mismatch to connect anyway"
  | .depthExhausted n maxDepth =>
    s!"depth budget of {maxDepth} exhausted when reaching {nodeName n}"
  | .containerExport n => s!"{nodeName n} is a container and cannot be exported or simulated"
  | .notInNetwork n => s!"{nodeName n} is not part of the compiled network"
  | .tooManyInputs part count limit =>
    s!"part {part} has {count} incoming connections, at most {limit} are supported"
  | .timerTooLong part delay limit =>
    s!"timer {part} has a delay of {delay} frames, at most {limit} are supported"
  | .unknownPart part => s!"no part with id {part}"
  | .misplacedPart part position => s!"part {part} found at position {position}"
  | .file fault => s!"I/O error: {fault.message}"
  | .malformed => "invalid part list"
  | .missingNode n size => boundsReport n size
  | .missingEntry position length => boundsReport position length
  | .badRoot n => s!"Invalid root {nodeName n}"
  | .leafPorts => "ports of a leaf are the leaf itself"
  | .overflow => "attempt to multiply with overflow"
  | .unmet condition => s!"assertion failed: {condition}"
  | .inconsistent what => what.message

end Netlist
