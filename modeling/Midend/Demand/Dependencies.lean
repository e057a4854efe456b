import Midend.Arena.Reach
import Midend.Demand.Origin
import Midend.Store

/-!
# What the parts of outputs depend on

For every live graph and every part of its output: the slot that holds the part, and the demands of
all nodes that the part is computed from. A path that is met twice keeps its first place and its
last content.
-/

namespace Midend

/-- The slot that holds a part, and the demands that computing the part raises. -/
structure PartDeps where
  edge : Edge
  demands : OrderedSet Demand

/-- The parts of every graph. -/
abbrev Dependencies := OrderedMap GraphId (OrderedMap Path PartDeps)

namespace Store

variable (s : Store)

/-- The order in which origins are looked for: under the return nodes of the live graphs, inputs
first, then every live node. -/
def demandOrder : List NodeId :=
  (s.live.graphs.toList.flatMap fun g =>
    match s.arena.ret? g with
    | none => []
    | some r => s.arena.postorder r) ++ s.live.nodes.toList

/-- The demands recorded with the live nodes. -/
def demands : Except Fault (OrderedMap NodeId (List Demand)) :=
  (Origins.empty.findAll s.arena s.demandOrder).map Origins.demands

/-- The demands of `n` and of everything that it is computed from. -/
def demandsUnder (demands : OrderedMap NodeId (List Demand)) (n : NodeId) : OrderedSet Demand :=
  .ofList ((s.arena.preorder n).flatMap fun m => (demands.get? m).getD [])

/-- The parts of the output of a graph with their demands. -/
def partDeps (demands : OrderedMap NodeId (List Demand)) (g : GraphId) : OrderedMap Path PartDeps :=
  (s.live.parts s.arena g).foldl
    (fun m (path, edge) =>
      m.insert path ⟨edge, match s.arena.slot? edge with
        | some n => s.demandsUnder demands n
        | none => .empty⟩)
    .empty

/-- The dependencies of the live graphs. -/
def dependencies : Except Fault Dependencies :=
  s.demands.map fun ds =>
    s.live.graphs.toList.foldl (fun m g => m.insert g (s.partDeps ds g)) .empty

theorem get?_foldl_insert {κ ν : Type} [DecidableEq κ] (f : κ → ν) (ks : List κ)
    (m : OrderedMap κ ν) (k : κ) :
    (ks.foldl (fun m k => m.insert k (f k)) m).get? k =
      if k ∈ ks then some (f k) else m.get? k := by
  induction ks generalizing m with
  | nil => simp
  | cons x xs ih =>
    rw [List.foldl_cons, ih, OrderedMap.get?_insert]
    by_cases hx : k ∈ xs
    · simp [hx]
    · by_cases hk : k = x
      · simp [hk]
      · simp [hx, hk]

end Store

end Midend
