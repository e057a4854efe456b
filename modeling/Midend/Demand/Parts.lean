import Midend.Demand.Path
import Midend.Live
import Midend.Worklist

/-!
# The parts of an output

The first step of dead data elimination finds where each part of a graph's output is built in the
body of the graph: the path to the part and the slot that holds it. A tuple or an environment is
taken apart only where the slot that led to it is its sole use, so that replacing its parts changes
nothing that another user sees. Calls are not looked through. The walk never takes a node apart
inside itself, so it ends.
-/

namespace Midend

namespace Arena

/-- The step that a constant selects. -/
def step? (a : Arena) (n : NodeId) : Option Step := (a.value? n).bind Step.ofValue?

end Arena

namespace Live

variable (l : Live) (a : Arena)

/-- The parts of `n`, which stands at `path`; `above` holds the nodes that are being taken apart. -/
def partsFrom (above : List NodeId) (path : Path) (n : NodeId) : List (Path × Edge) :=
  if _h : 1 < l.useCount n ∨ n ∈ above ∨ n ∉ a.nodeIds then []
  else
    match a.applied? n, a.inputs n with
    | some .makeTuple, _ :: parts =>
      parts.zipIdx.flatMap fun (m, i) =>
        (path ++ [.index i], ⟨n, i + 1⟩) :: partsFrom (n :: above) (path ++ [.index i]) m
    | some .envSet, [_, env, key, value] =>
      match a.step? key with
      | none => []
      | some k =>
        partsFrom (n :: above) path env ++
          (path ++ [k], ⟨n, 3⟩) :: partsFrom (n :: above) (path ++ [k]) value
    | _, _ => []
termination_by unseen a.nodeIds above
decreasing_by
  all_goals
    simp only [not_or, Decidable.not_not] at _h
    exact unseen_cons_lt _h.2.2 _h.2.1

/-- The parts of the output of `g`, the whole output first. -/
def parts (g : GraphId) : List (Path × Edge) :=
  match a.ret? g with
  | none => []
  | some r =>
    ([], ⟨r, 1⟩) :: match a.output? g with
      | none => []
      | some out => l.partsFrom a [] [] out

end Live

end Midend
