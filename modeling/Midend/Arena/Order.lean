import Midend.Arena
import Midend.Worklist

/-!
# Depth-first orders

`postorder` lists the nodes reachable over input edges with inputs before the nodes that use them,
`preorder` with each node before its inputs; inputs are visited left to right. Neither looks into
the graph that a constant names. Both walks end, whatever cycles the inputs form, because each step
either meets a new node of the arena or shortens the list of visits to come.
-/

namespace Midend

/-- A visit to come: of a node and its inputs, or the second one, after the inputs. -/
inductive Visit where
  | enter (n : NodeId)
  | leave (n : NodeId)
  deriving DecidableEq

/-- How many visits are still to be made, an entry leading to a second visit. -/
def Visit.weight : List Visit → Nat
  | [] => 0
  | .enter _ :: rest => weight rest + 2
  | .leave _ :: rest => weight rest + 1

namespace Arena

variable (a : Arena)

/-- The nodes left in the course of the visits, those in `seen` not being entered again. -/
def postorderFrom (seen : List NodeId) : List Visit → List NodeId
  | [] => []
  | .leave n :: rest => n :: postorderFrom seen rest
  | .enter n :: rest =>
    if n ∈ seen then postorderFrom seen rest
    else postorderFrom (n :: seen) ((a.inputs n).map .enter ++ .leave n :: rest)
termination_by visits => (unseen a.nodeIds seen, Visit.weight visits)
decreasing_by
  · exact Prod.Lex.right _ (by simp [Visit.weight])
  · exact Prod.Lex.right _ (by simp [Visit.weight])
  · next h =>
    by_cases hn : n ∈ a.nodeIds
    · exact Prod.Lex.left _ _ (unseen_cons_lt hn h)
    · rw [a.inputs_eq_nil hn]
      rcases Nat.lt_or_eq_of_le (unseen_le a.nodeIds (List.subset_cons_self n seen)) with
        hlt | heq
      · exact Prod.Lex.left _ _ hlt
      · rw [heq]
        exact Prod.Lex.right _ (by simp [Visit.weight])

/-- Every node reachable from `root` over input edges, inputs first. -/
def postorder (root : NodeId) : List NodeId := a.postorderFrom [] [.enter root]

/-- The nodes met from a stack, those in `seen` not being met again. -/
def preorderFrom (seen : List NodeId) : List NodeId → List NodeId
  | [] => []
  | n :: rest =>
    if n ∈ seen then preorderFrom seen rest
    else n :: preorderFrom (n :: seen) (a.inputs n ++ rest)
termination_by stack => (unseen a.nodeIds seen, stack.length)
decreasing_by
  · exact Prod.Lex.right _ (by simp)
  · next h =>
    by_cases hn : n ∈ a.nodeIds
    · exact Prod.Lex.left _ _ (unseen_cons_lt hn h)
    · rw [a.inputs_eq_nil hn]
      rcases Nat.lt_or_eq_of_le (unseen_le a.nodeIds (List.subset_cons_self n seen)) with
        hlt | heq
      · exact Prod.Lex.left _ _ hlt
      · rw [heq]
        exact Prod.Lex.right _ (by simp)

/-- Every node reachable from `root` over input edges, `root` first. -/
def preorder (root : NodeId) : List NodeId := a.preorderFrom [] [root]

end Arena

end Midend
