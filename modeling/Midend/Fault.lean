import Midend.Failure

/-!
# Broken internal rules

The ways in which a program graph can be unfit for the operations on it, one constructor per cause,
and the failure that each amounts to.
-/

namespace Midend

/-- Why an operation on the graph cannot be carried out. -/
inductive Fault where
  /-- An apply has no input slot of this number. -/
  | slotOutOfRange (owner : NodeId) (index : Nat)
  /-- The node is no apply, so it has no input slots. -/
  | noSlots (owner : NodeId)
  /-- An input is classed only after the apply that uses it: the inputs form a cycle. -/
  | classedAfterUser (input user : NodeId)
  /-- An apply has no inputs at all. -/
  | nothingApplied (node : NodeId)
  /-- What is applied carries no function annotation. -/
  | notAFunction (func : NodeId)
  /-- A mapping call has no function to map. -/
  | nothingMapped (node : NodeId)
  /-- A call may run a target that is not known. -/
  | unknownTarget
  deriving DecidableEq, Repr

namespace Fault

def message : Fault → String
  | slotOutOfRange _ index => s!"input index {index} out of range"
  | noSlots _ => "set_edge on a node without inputs"
  | classedAfterUser input _ => s!"input {input.text} hashed after its user"
  | nothingApplied _ => "apply without a function input"
  | notAFunction _ => "function position has no function annotation"
  | nothingMapped _ => "array_map without a function to map"
  | unknownTarget => "unsupported call target: opaque function"

def node? : Fault → Option NodeId
  | slotOutOfRange owner _ => some owner
  | noSlots owner => some owner
  | classedAfterUser _ user => some user
  | nothingApplied node => some node
  | notAFunction func => some func
  | nothingMapped node => some node
  | unknownTarget => none

def issuer : Fault → String
  | slotOutOfRange .. | noSlots .. => "graphopt.ir.manager"
  | classedAfterUser .. => "graphopt.opt.cse"
  | nothingApplied .. | notAFunction .. | nothingMapped .. | unknownTarget =>
    "graphopt.opt.dde.access"

def toFailure (f : Fault) : Failure := .internal f.message f.issuer f.node?

end Fault

end Midend
