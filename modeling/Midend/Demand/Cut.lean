import Midend.Demand.Search

/-!
# Cutting dead parts

The last step of dead data elimination. The slots that hold parts which nobody needs are pointed at
placeholders, each its own; what computed the parts is then released. A placeholder carries the
annotation of what it stands for, except that a function's is marked dead.
-/

namespace Midend.Store

/-- The slots of each graph that hold a part which is not needed; graphs without any are left
out. -/
def deadEdges (s : Store) (root : GraphId) : Except Fault (List (GraphId × List Edge)) :=
  s.dependencies.map fun deps =>
    let needed := s.neededParts deps root
    let dead := deps.entries.map fun (g, parts) =>
      (g, (parts.entries.filter fun (p, _) => !partIsLive needed g p).map fun (_, pd) => pd.edge)
    dead.filter fun (_, edges) => edges ≠ []

def placeholderType : Option Ty → Option Ty
  | some t => some (if t.isFunction then .dead else t)
  | none => none

/-- Points the slots of a list at placeholders and counts them. A slot is left as it is if its
owner is no longer live or a placeholder stands in it. -/
def cutEdges (s : Store) : List Edge → Store × Except Fault Nat
  | [] => (s, .ok 0)
  | e :: es =>
    match s.arena.slot? e with
    | none => s.cutEdges es
    | some target =>
      if e.owner ∉ s.live.nodes ∨ s.arena.value? target = some .dead then s.cutEdges es
      else
        let (n, s) := s.constantWith .dead (placeholderType (s.arena.type? target))
        match s.setEdge e n with
        | .error f => (s, .error f)
        | .ok s =>
          let r := s.cutEdges es
          (r.1, r.2.map (· + 1))

/-- Cuts the slots given for each graph that is still live. -/
def cutGraphs (s : Store) : List (GraphId × List Edge) → Store × Except Fault Nat
  | [] => (s, .ok 0)
  | (g, edges) :: rest =>
    if g ∈ s.live.graphs then
      match s.cutEdges edges with
      | (s, .error f) => (s, .error f)
      | (s, .ok k) =>
        let r := s.cutGraphs rest
        (r.1, r.2.map (k + ·))
    else s.cutGraphs rest

/-- Makes `root` the only root, cuts every dead part and counts the slots changed. -/
def cutDead (s : Store) (root : GraphId) : Store × Except Fault Nat :=
  let s := s.keepRoots [root]
  match s.deadEdges root with
  | .error f => (s, .error f)
  | .ok dead => s.cutGraphs dead

/-- The analysis changes nothing: when it fails, nothing but the roots has changed. -/
theorem cutDead_of_error {s : Store} {root : GraphId} {f : Fault}
    (h : (s.keepRoots [root]).deadEdges root = .error f) :
    s.cutDead root = (s.keepRoots [root], .error f) := by
  simp [cutDead, h]

end Midend.Store
