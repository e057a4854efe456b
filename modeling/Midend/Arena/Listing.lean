import Midend.Arena.Reach

/-!
# Listings

The text of a graph: a head line with the parameters, a line for every apply of the graph's own that
its return needs, inputs first, and the returned operand last. Constants stand where they are used,
and a graph is referred to by its name.
-/

namespace Midend.Arena

variable (a : Arena)

/-- How a node is written where it is used. -/
def operand (n : NodeId) : String :=
  match a.value? n with
  | some (.graph g) => "@" ++ a.graphName g
  | some v => v.text
  | none => n.text

/-- A parameter in the head line, with its label. -/
def parameterText (n : NodeId) : String :=
  match a.label? n with
  | some label => n.text ++ " " ++ label
  | none => n.text

def headLine (g : GraphId) : String :=
  "graph " ++ a.graphName g ++ "(" ++ ", ".intercalate ((a.parameters g).map a.parameterText) ++
    ") \x7b"

def closingLine : String := "\x7d"

/-- A function with its arguments; nothing for an apply without inputs. -/
def callText (inputs : List NodeId) : String :=
  match inputs with
  | [] => ""
  | f :: args => a.operand f ++ "(" ++ ", ".intercalate (args.map a.operand) ++ ")"

/-- The line of an apply, with its annotation where that is asked for. -/
def applyLine (typed : Bool) (n : NodeId) : String :=
  let type := match typed, a.type? n with
    | true, some t => " :: " ++ t.text
    | _, _ => ""
  "  " ++ n.text ++ " = " ++ a.callText (a.inputs n) ++ type

def returnLine (r : NodeId) : String :=
  match (a.inputs r)[1]? with
  | some out => "  return " ++ a.operand out
  | none => "  return ?"

/-- The applies of `g` that its return node `r` needs, inputs first. -/
def body (g : GraphId) (r : NodeId) : List NodeId :=
  (a.postorder r).filter fun n => a.owner? n = some g && a.isApply n

def lines (typed : Bool) (g : GraphId) : List String :=
  let applies := match a.ret? g with
    | none => []
    | some r => (a.body g r).map fun n => if n = r then a.returnLine r else a.applyLine typed n
  a.headLine g :: applies ++ [closingLine]

/-- The text of a graph; every line is ended. -/
def listing (typed : Bool) (g : GraphId) : String :=
  String.join ((a.lines typed g).map (· ++ "\n"))

/-- The texts of the graphs reachable from `root`, parted by empty lines. -/
def dump (root : GraphId) : String :=
  "\n".intercalate ((a.reachable [root]).map (a.listing false))

end Midend.Arena
