import Midend.Demand.Dependencies

/-!
# Which parts are needed

The liveness analysis of dead data elimination: a search over the parts of all graphs, from every
part of the root's output and from the graphs that escape through it. A demand for a path that its
graph does not build falls back on the longest prefix that it does. No demand is looked at twice and
no part is met twice, so the search ends. A part is live if it leads to a part that was met, or lies
within one.
-/

namespace Midend

/-- A part of the output of a graph. -/
abbrev Part := GraphId × Path

namespace Dependencies

def recorded (deps : Dependencies) : List Part :=
  deps.entries.flatMap fun (g, parts) => parts.keys.map (g, ·)

/-- The longest recorded prefix of a path among the parts of one graph. -/
def longestPrefix? (parts : OrderedMap Path PartDeps) (path : Path) : Option (Path × PartDeps) :=
  (Path.prefixes path).findSome? fun p => (parts.get? p).map (p, ·)

/-- The part that answers a demand, with what it depends on. -/
def answer? (deps : Dependencies) (d : Demand) : Option (Part × PartDeps) :=
  match deps.get? d.graph with
  | none => none
  | some parts => (longestPrefix? parts d.path).map fun (p, pd) => ((d.graph, p), pd)

theorem mem_recorded {deps : Dependencies} {g : GraphId} {p : Path}
    {parts : OrderedMap Path PartDeps} (hg : deps.get? g = some parts) (hp : p ∈ parts.keys) :
    (g, p) ∈ deps.recorded := by
  have hmem : (g, parts) ∈ deps.entries := OrderedMap.mem_entries_of_get? hg
  exact List.mem_flatMap.mpr ⟨(g, parts), hmem, List.mem_map.mpr ⟨p, hp, rfl⟩⟩

theorem longestPrefix?_mem {parts : OrderedMap Path PartDeps} {path p : Path} {pd : PartDeps}
    (h : longestPrefix? parts path = some (p, pd)) : p ∈ parts.keys := by
  obtain ⟨q, _, hq⟩ := List.exists_of_findSome?_eq_some h
  simp only [Option.map_eq_some_iff, Prod.mk.injEq] at hq
  obtain ⟨_, hget, rfl, _⟩ := hq
  exact OrderedMap.mem_keys_of_get? hget

theorem answer?_mem {deps : Dependencies} {d : Demand} {v : Part} {pd : PartDeps}
    (h : deps.answer? d = some (v, pd)) : v ∈ deps.recorded := by
  unfold answer? at h
  split at h
  · cases h
  · next parts hg =>
    simp only [Option.map_eq_some_iff, Prod.mk.injEq] at h
    obtain ⟨⟨p, pd'⟩, hl, rfl, _⟩ := h
    exact mem_recorded hg (longestPrefix?_mem hl)

/-- The parts met from a stack of demands, after those in `seen`; what was requested before is passed
over. -/
def searchFrom (deps : Dependencies) (requested : List Demand) (seen : List Part) :
    List Demand → List Part
  | [] => seen
  | d :: work =>
    if d ∈ requested then searchFrom deps requested seen work
    else match _h : deps.answer? d with
      | none => searchFrom deps (d :: requested) seen work
      | some (v, pd) =>
        if v ∈ seen then searchFrom deps (d :: requested) seen work
        else searchFrom deps (d :: requested) (v :: seen) (pd.demands.toList.reverse ++ work)
termination_by work => (unseen deps.recorded seen, work.length)
decreasing_by
  · exact Prod.Lex.right _ (by simp)
  · exact Prod.Lex.right _ (by simp)
  · exact Prod.Lex.right _ (by simp)
  · next h => exact Prod.Lex.left _ _ (unseen_cons_lt (answer?_mem _h) h)

end Dependencies

/-! ### Escaping graphs -/

mutual

/-- The graphs that an annotation names. -/
def Ty.graphs : Ty → List GraphId
  | .function ts => Target.graphsOfList ts
  | .tuple parts => Ty.graphsOfList parts
  | .array e => e.graphs
  | _ => []

/-- The graphs that a target names; a typed operation and an unknown target name none. -/
def Target.graphs : Target → List GraphId
  | .graph g => [g]
  | .bound f args => f.graphs ++ Ty.graphsOfList args
  | _ => []

def Ty.graphsOfList : List Ty → List GraphId
  | [] => []
  | a :: as => a.graphs ++ Ty.graphsOfList as

def Target.graphsOfList : List Target → List GraphId
  | [] => []
  | t :: ts => t.graphs ++ Target.graphsOfList ts

end

/-- The graphs that a node brings along: those of its annotation and the one it holds. -/
def Arena.graphsAt (a : Arena) (n : NodeId) : List GraphId :=
  ((a.type? n).map Ty.graphs).getD [] ++ (a.heldGraph? n).toList

namespace Store

variable (s : Store)

/-- The graphs that the output of `root` hands out to whoever receives it. -/
def escaping (root : GraphId) : List GraphId :=
  (OrderedSet.ofList ((s.live.parts s.arena root).flatMap fun (_, edge) =>
    match s.arena.slot? edge with
    | some n => s.arena.graphsAt n
    | none => [])).toList

/-- What is needed from the start: every part of the root's output, and whatever escapes whole. -/
def firstDemands (deps : Dependencies) (root : GraphId) : List Demand :=
  (((deps.get? root).map OrderedMap.keys).getD []).map (⟨root, ·⟩) ++
    (s.escaping root).map (⟨·, []⟩)

/-- The parts that are needed when `root` is; what was demanded last is looked at first. -/
def neededParts (deps : Dependencies) (root : GraphId) : List Part :=
  deps.searchFrom [] [] (s.firstDemands deps root).reverse

/-- The prefixes of some parts. -/
def keptParts (seen : List Part) : OrderedSet Part :=
  .ofList (seen.flatMap fun (g, p) => (Path.prefixes p).map (g, ·))

/-- Whether a part leads to one that was met, or lies within one. -/
def partIsLive (seen : List Part) (g : GraphId) (p : Path) : Bool :=
  (g, p) ∈ keptParts seen || (Path.prefixes p).any fun q => (g, q) ∈ seen

end Store

end Midend
