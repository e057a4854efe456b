import Midend.Arena.Reach
import Midend.Fault
import Midend.OrderedMap

/-!
# Groups of nodes that may be equal

The first half of common subexpression elimination. Each node gets a class, a hash of its structure:
of payload and type key for a constant, of the node itself for a parameter, of the classes of the
inputs for an apply. Nodes of one class and one owner form a group, and groups stand in the order of
their first members. Which hash is used is left open: nodes of different structure may share a
class.
-/

namespace Midend

/-- What tells equal payloads apart: an annotation, or the one typed operation of a function. -/
inductive TypeKey where
  | plain (t : Ty)
  | typed (t : Target)
  deriving DecidableEq

/-- The key of an annotation; a function has one only if its sole target is a typed operation. -/
def Ty.typeKey? : Ty → Option TypeKey
  | .function ts =>
    match (Ty.function ts).uniqueTarget? with
    | some (.typed p args out) => some (.typed (.typed p args out))
    | _ => none
  | a => some (.plain a)

/-- The key of the annotation of a node. -/
def Arena.typeKey? (a : Arena) (n : NodeId) : Option TypeKey := (a.type? n).bind Ty.typeKey?

/-- The structure of a node over the classes of its inputs. -/
inductive Shape where
  | constant (value : Value) (key : Option TypeKey)
  | parameter (n : NodeId)
  | apply (classes : List UInt64)
  deriving DecidableEq

/-- The classes given so far and the groups. -/
structure Grouping where
  classes : OrderedMap NodeId UInt64
  groups : OrderedMap (UInt64 × Option GraphId) (List NodeId)

namespace Grouping

def empty : Grouping := ⟨.empty, .empty⟩

/-- The classes of the inputs of an apply. -/
def inputClasses (r : Grouping) (user : NodeId) : List NodeId → Except Fault (List UInt64)
  | [] => .ok []
  | n :: ns =>
    match r.classes.get? n with
    | none => .error (.classedAfterUser n user)
    | some c => (r.inputClasses user ns).map (c :: ·)

/-- The shape of a node. -/
def shape (a : Arena) (r : Grouping) (n : NodeId) : Except Fault Shape :=
  match a.kind? n with
  | some (.constant v) => .ok (.constant v (a.typeKey? n))
  | some (.apply inputs) => (r.inputClasses n inputs).map .apply
  | some .parameter | none => .ok (.parameter n)

variable [Hashable Shape]

/-- Gives a node its class and puts it into its group. -/
def add (a : Arena) (r : Grouping) (n : NodeId) : Except Fault Grouping :=
  if (r.classes.get? n).isSome then .ok r
  else (r.shape a n).map fun s =>
    ⟨r.classes.insert n (hash s), r.groups.append (hash s, a.owner? n) [n]⟩

/-- Adds the nodes of a list in order. -/
def addAll (a : Arena) (r : Grouping) : List NodeId → Except Fault Grouping
  | [] => .ok r
  | n :: ns =>
    match r.add a n with
    | .ok r => r.addAll a ns
    | .error f => .error f

end Grouping

namespace Arena

variable (a : Arena)

/-- The nodes under the return nodes of the graphs reachable from `root`, graph by graph and inputs
first; a node shared by several graphs is listed with each. -/
def groupOrder (root : GraphId) : List NodeId :=
  (a.reachable [root]).flatMap fun g =>
    match a.ret? g with
    | none => []
    | some r => a.postorder r

/-- Members of a group share their class and their owner. -/
def groups [Hashable Shape] (root : GraphId) : Except Fault (List (Option GraphId × List NodeId)) :=
  (Grouping.empty.addAll a (a.groupOrder root)).map fun r =>
    r.groups.entries.map fun (key, members) => (key.2, members)

end Arena

end Midend
