import Midend.Ident

/-!
# Failures

What goes wrong is either a broken internal rule, always critical and possibly at a node, or a
malformed input, which carries a level of its own and no node. A failure has three written forms:
a description, a log line and a report line.
-/

namespace Midend

/-- How grave a failure is. -/
inductive Level where
  | info
  | warning
  | error
  | critical
  deriving DecidableEq, Repr

/-- Levels are written in capitals. -/
def Level.text : Level → String
  | info => "INFO"
  | warning => "WARNING"
  | error => "ERROR"
  | critical => "CRITICAL"

/-- A failure, with the part of the library that raised it. -/
inductive Failure where
  | internal (message issuer : String) (node : Option NodeId)
  | invalidInput (level : Level) (message issuer : String)
  deriving DecidableEq, Repr

namespace Failure

def category : Failure → String
  | internal .. => "internal"
  | invalidInput .. => "invalid-input"

/-- How grave the failure is; a broken rule is always critical. -/
def level : Failure → Level
  | internal .. => .critical
  | invalidInput level .. => level

def message : Failure → String
  | internal message .. => message
  | invalidInput _ message _ => message

def issuer : Failure → String
  | internal _ issuer _ => issuer
  | invalidInput _ _ issuer => issuer

/-- The node at which a rule is broken. -/
def node? : Failure → Option NodeId
  | internal _ _ node => node
  | invalidInput .. => none

def describe : Failure → String
  | internal message issuer none => s!"internal error in {issuer}: {message}"
  | internal message issuer (some n) => s!"internal error in {issuer} at {n.text}: {message}"
  | invalidInput _ message issuer => s!"invalid input ({issuer}): {message}"

/-- The line for a log, which names the issuer. -/
def logLine (f : Failure) : String :=
  let node := match f.node? with
    | some n => n.text
    | none => "node:none"
  " | ".intercalate ["GRAPHOPT", f.level.text, f.category, f.issuer, node, f.message]

/-- The line for a user, without the issuer. -/
def report (f : Failure) : String :=
  let node := match f.node? with
    | some n => n.text
    | none => "unknown node"
  " | ".intercalate ["GRAPHOPT", f.level.text, f.category, node, f.message]

end Failure

end Midend
