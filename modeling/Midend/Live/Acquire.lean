import Midend.Live
import Midend.Worklist

/-!
# Becoming live

A live node makes its inputs live and records the slots that hold them; a live constant makes the
graph that it names live; a live graph makes its parameters and its return node live. Inputs are
taken last to first, and the graphs found under a node follow once all of its inputs are done. This
ends, because every step uses up a node or a graph that was not live, or a piece of the agenda.
-/

namespace Midend

/-- A node or a graph that has to become live. -/
inductive Wanted where
  | node (n : NodeId)
  | graph (g : GraphId)
  deriving DecidableEq

/-- How many nodes an agenda asks for. -/
def Wanted.nodeCount (agenda : List Wanted) : Nat :=
  agenda.countP fun w => match w with
    | .node _ => true
    | .graph _ => false

namespace Live

/-- Makes one node live and records its input slots. -/
def enterNode (a : Arena) (l : Live) (n : NodeId) : Live :=
  { l with nodes := l.nodes.insert n }.addUses (a.slots n)

@[simp] theorem nodes_enterNode (a : Arena) (l : Live) (n : NodeId) :
    (l.enterNode a n).nodes = l.nodes.insert n := by simp [enterNode]

@[simp] theorem graphs_enterNode (a : Arena) (l : Live) (n : NodeId) :
    (l.enterNode a n).graphs = l.graphs := by simp [enterNode]

/-- Makes the nodes of a stack and all their inputs live, and adds the graphs named on the way to
`held`. -/
def enterNodes (a : Arena) (l : Live) (held : List GraphId) : List NodeId → Live × List GraphId
  | [] => (l, held)
  | n :: rest =>
    if n ∈ l.nodes then enterNodes a l held rest
    else
      enterNodes a (l.enterNode a n) (held ++ (a.heldGraph? n).toList)
        ((a.inputs n).reverse ++ rest)
termination_by stack => (unseen a.nodeIds l.nodes.toList, stack.length)
decreasing_by
  · exact Prod.Lex.right _ (by simp)
  · next h =>
    rw [nodes_enterNode]
    by_cases hn : n ∈ a.nodeIds
    · exact Prod.Lex.left _ _ (unseen_lt OrderedSet.subset_toList_insert hn h
        (OrderedSet.mem_insert.mpr (Or.inl rfl)))
    · rw [a.inputs_eq_nil hn]
      rcases Nat.lt_or_eq_of_le (unseen_le a.nodeIds
        (OrderedSet.subset_toList_insert (a := n) (s := l.nodes))) with hlt | heq
      · exact Prod.Lex.left _ _ hlt
      · rw [heq]
        exact Prod.Lex.right _ (by simp)

theorem graphs_enterNodes (a : Arena) (l : Live) (held : List GraphId) (stack : List NodeId) :
    (l.enterNodes a held stack).1.graphs = l.graphs := by
  fun_induction enterNodes a l held stack with
  | case1 => rfl
  | case2 l held n rest h ih => exact ih
  | case3 l held n rest h ih => rw [ih, graphs_enterNode]

/-- Works off an agenda of nodes and graphs that have to become live. -/
def acquire (a : Arena) (l : Live) : List Wanted → Live
  | [] => l
  | .node n :: rest =>
    let r := l.enterNodes a [] [n]
    acquire a r.1 (r.2.map .graph ++ rest)
  | .graph g :: rest =>
    if g ∈ l.graphs then acquire a l rest
    else acquire a { l with graphs := l.graphs.insert g } ((a.anchors g).map .node ++ rest)
termination_by agenda => (unseen a.graphIds l.graphs.toList, Wanted.nodeCount agenda, agenda.length)
decreasing_by
  · rw [graphs_enterNodes]
    refine Prod.Lex.right _ (Prod.Lex.left _ _ ?_)
    simp [Wanted.nodeCount, List.countP_append, List.countP_map, Function.comp_def]
  · refine Prod.Lex.right _ ?_
    have : Wanted.nodeCount (Wanted.graph g :: rest) = Wanted.nodeCount rest := by
      simp [Wanted.nodeCount]
    rw [this]
    exact Prod.Lex.right _ (by simp)
  · next h =>
    by_cases hg : g ∈ a.graphIds
    · exact Prod.Lex.left _ _ (unseen_lt OrderedSet.subset_toList_insert hg h
        (OrderedSet.mem_insert.mpr (Or.inl rfl)))
    · rw [a.anchors_eq_nil hg]
      rcases Nat.lt_or_eq_of_le (unseen_le a.graphIds
        (OrderedSet.subset_toList_insert (a := g) (s := l.graphs))) with hlt | heq
      · exact Prod.Lex.left _ _ hlt
      · have : Wanted.nodeCount (Wanted.graph g :: rest) = Wanted.nodeCount rest := by
          simp [Wanted.nodeCount]
        simp only [List.map_nil, List.nil_append]
        rw [heq, this]
        exact Prod.Lex.right _ (Prod.Lex.right _ (by simp))

def acquireNode (a : Arena) (l : Live) (n : NodeId) : Live := l.acquire a [.node n]

def acquireGraph (a : Arena) (l : Live) (g : GraphId) : Live := l.acquire a [.graph g]

end Live

end Midend
