/-!
# Names of nodes, graphs and input slots

Nodes and graphs are numbered in order of creation, and their number is all there is to their
identity. An edge is an input slot: the owner and the position among the owner's inputs.
-/

namespace Midend

/-- A node, by its number in the arena. -/
structure NodeId where
  index : Nat
  deriving DecidableEq, Repr, Inhabited

/-- A graph, by its number in the arena. -/
structure GraphId where
  index : Nat
  deriving DecidableEq, Repr, Inhabited

/-- The input slot `index` of the node `owner`. -/
structure Edge where
  owner : NodeId
  index : Nat
  deriving DecidableEq, Repr, Inhabited

/-- Nodes are written `%3`. -/
def NodeId.text (n : NodeId) : String := s!"%{n.index}"

/-- Graphs are written `g3`. -/
def GraphId.text (g : GraphId) : String := s!"g{g.index}"

end Midend
