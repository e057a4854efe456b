import Midend.Demand.Callee
import Midend.Demand.Path
import Midend.Demand.Parts
import Midend.OrderedMap

/-!
# Where values come from

The access analysis of dead data elimination. The origin of a node says which calls its value may
come out of and at which path of their results: `f(..)[0][$k]` comes from `f` at `(0, $k)`. Indexing
only lengthens the path. Every other apply demands what its inputs come from, since nothing is known
of what it does with them. The demands are recorded with the inputs. The search for origins ends,
because a node is not searched while it is being searched.
-/

namespace Midend

/-- The part `path` of what `graph` returns is needed. -/
structure Demand where
  graph : GraphId
  path : Path
  deriving DecidableEq, Repr

/-- The graphs a value may come out of, and the path within their results. -/
structure Origin where
  graphs : List GraphId
  path : Path
  deriving DecidableEq, Repr

/-- Nothing is known to return the value. -/
def Origin.unknown : Origin := ⟨[], []⟩

/-- The demands on an origin: one for each of its graphs. -/
def Origin.demands (o : Origin) : List Demand := o.graphs.map fun g => ⟨g, o.path⟩

/-- An indexing apply with a constant key: what is indexed, the step taken, and the default of an
environment. -/
structure Indexing where
  base : NodeId
  step : Step
  default : Option NodeId

namespace Arena

variable (a : Arena)

/-- How an apply indexes, if it does so by a constant that is usable as a key. -/
def indexing? (n : NodeId) : Option Indexing :=
  match a.applied? n, a.inputs n with
  | some .tupleGet, [_, base, key] => (a.step? key).map (⟨base, ·, none⟩)
  | some .envGet, [_, base, key, default] => (a.step? key).map (⟨base, ·, some default⟩)
  | _, _ => none

/-! ### Calls -/

/-- The graphs that a call returns from, and those that it maps over an array. -/
structure Calls where
  returns : List GraphId
  maps : List GraphId

def calledGraphs : List Target → Except Fault (List GraphId)
  | [] => .ok []
  | t :: ts =>
    match t.callee with
    | .error f => .error f
    | .ok (c, _) => (calledGraphs ts).map (c.graph?.toList ++ ·)

/-- The graphs mapped by the apply `n` of a mapping operation: the targets of the first bound
argument, or else of the first argument of the call. -/
def mappedGraphs (n : NodeId) (args : List NodeId) (bound : List Ty) :
    Except Fault (List GraphId) :=
  let mapped := match bound with
    | t :: _ => some t
    | [] => args.head?.bind a.type?
  match mapped.bind Ty.targets? with
  | none => .error (.nothingMapped n)
  | some ts => calledGraphs ts

/-- What the apply `n` runs, given the arguments of the call and the targets of its function. -/
def callsOf (n : NodeId) (args : List NodeId) : List Target → Calls → Except Fault Calls
  | [], calls => .ok calls
  | t :: ts, calls =>
    match t.callee with
    | .error f => .error f
    | .ok (.graph g, _) =>
      callsOf n args ts
        { calls with returns := if g ∈ calls.returns then calls.returns else calls.returns ++ [g] }
    | .ok (.prim .arrayMap, bound) =>
      match a.mappedGraphs n args bound with
      | .error f => .error f
      | .ok gs => callsOf n args ts { calls with maps := calls.maps ++ gs }
    | .ok (.prim _, _) => callsOf n args ts calls

/-- What an apply runs. -/
def calls (n : NodeId) : Except Fault Calls :=
  match a.inputs n with
  | [] => .error (.nothingApplied n)
  | f :: args =>
    match (a.type? f).bind Ty.targets? with
    | none => .error (.notAFunction f)
    | some ts => a.callsOf n args ts ⟨[], []⟩

end Arena

/-! ### The search -/

/-- The origins found so far and the demands recorded with each node. -/
structure Origins where
  known : OrderedMap NodeId Origin
  demands : OrderedMap NodeId (List Demand)

namespace Origins

/-- Nothing is known. -/
def empty : Origins := ⟨.empty, .empty⟩

/-- Records demands with a node. -/
def demand (r : Origins) (n : NodeId) (ds : List Demand) : Origins :=
  if ds = [] then r else { r with demands := r.demands.append n ds }

/-- Keeps the origin of a node. -/
def learn (r : Origins) (n : NodeId) (o : Origin) : Origin × Origins :=
  (o, { r with known := r.known.insert n o })

mutual

/-- The origin of `n`; a node that is being searched (`active`) is of unknown origin. -/
def find (a : Arena) (active : List NodeId) (n : NodeId) (r : Origins) :
    Except Fault (Origin × Origins) :=
  match r.known.get? n with
  | some o => .ok (o, r)
  | none =>
    if _h : n ∈ active ∨ n ∉ a.nodeIds then .ok (.unknown, r)
    else
      match a.indexing? n with
      | some ix =>
        match demandAll a (n :: active) ix.default.toList r with
        | .error f => .error f
        | .ok r =>
          match find a (n :: active) ix.base r with
          | .error f => .error f
          | .ok (o, r) => .ok (r.learn n ⟨o.graphs, o.path ++ [ix.step]⟩)
      | none =>
        if a.isApply n then
          match demandAll a (n :: active) (a.inputs n) r with
          | .error f => .error f
          | .ok r =>
            match a.calls n with
            | .error f => .error f
            | .ok c => .ok ((r.demand n (Origin.demands ⟨c.maps, []⟩)).learn n ⟨c.returns, []⟩)
        else .ok (r.learn n .unknown)
termination_by (unseen a.nodeIds active, 0)
decreasing_by
  all_goals
    simp only [not_or, Decidable.not_not] at _h
    exact Prod.Lex.left _ _ (unseen_cons_lt _h.2 _h.1)

/-- Finds the origin of each node of a list and records with the node what it demands. -/
def demandAll (a : Arena) (active : List NodeId) (ns : List NodeId) (r : Origins) :
    Except Fault Origins :=
  match ns with
  | [] => .ok r
  | n :: ns =>
    match find a active n r with
    | .error f => .error f
    | .ok (o, r) => demandAll a active ns (r.demand n o.demands)
termination_by (unseen a.nodeIds active, ns.length + 1)
decreasing_by
  · exact Prod.Lex.right _ (Nat.succ_pos _)
  · exact Prod.Lex.right _ (by simp)

end

/-- Finds the origins of the nodes of a list. -/
def findAll (a : Arena) (r : Origins) : List NodeId → Except Fault Origins
  | [] => .ok r
  | n :: ns =>
    match find a [] n r with
    | .error f => .error f
    | .ok (_, r) => findAll a r ns

end Origins

end Midend
