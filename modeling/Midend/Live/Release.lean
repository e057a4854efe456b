import Midend.Arena.Reach
import Midend.Live

/-!
# Ceasing to be live

A live node without uses is released, unless a live graph keeps it as a parameter or as its return
node; what it used is then looked at in turn, last input first. Graphs that the roots no longer
reach are pruned, and what they kept is released. A release ends, because each step takes away a
live node or shortens the stack.
-/

namespace Midend.Live

/-- Whether `n` is live, without uses, and not kept by a live graph. -/
def releasable (a : Arena) (l : Live) (n : NodeId) : Bool :=
  if n ∉ l.nodes ∨ 0 < l.useCount n then false
  else match a.owner? n with
    | none => true
    | some g => if g ∈ l.graphs then !a.isParameter n && a.ret? g ≠ some n else true

theorem mem_of_releasable {a : Arena} {l : Live} {n : NodeId} (h : l.releasable a n = true) :
    n ∈ l.nodes := by
  unfold releasable at h
  split at h
  · cases h
  · next hn =>
    simp only [not_or, Decidable.not_not] at hn
    exact hn.1

/-- Takes one node out and strikes its input slots; the nodes left without use come second. -/
def leaveNode (a : Arena) (l : Live) (n : NodeId) : Live × List NodeId :=
  ({ l with nodes := l.nodes.eraseFill n }.clearUses n).dropUses (a.slots n)

@[simp] theorem nodes_leaveNode (a : Arena) (l : Live) (n : NodeId) :
    (l.leaveNode a n).1.nodes = l.nodes.eraseFill n := by simp [leaveNode, clearUses]

/-- Releases what can be released from a stack. The answer also says whether a constant that names
a graph went away, or `dropped` was set before. -/
def release (a : Arena) (l : Live) (dropped : Bool) : List NodeId → Live × Bool
  | [] => (l, dropped)
  | n :: rest =>
    if l.releasable a n then
      let r := l.leaveNode a n
      release a r.1 (dropped || (a.heldGraph? n).isSome) (r.2.reverse ++ rest)
    else release a l dropped rest
termination_by stack => (l.nodes.toList.length, stack.length)
decreasing_by
  · next h =>
    rw [nodes_leaveNode]
    exact Prod.Lex.left _ _ (OrderedSet.length_eraseFill_lt (mem_of_releasable h))
  · exact Prod.Lex.right _ (by simp)

/-- Releases the nodes of a list one after the other. -/
def releaseAll (a : Arena) (l : Live) (ns : List NodeId) : Live :=
  ns.foldl (fun l n => (l.release a false [n]).1) l

/-- Takes every graph out that the roots do not reach, then releases what those graphs kept. -/
def prune (a : Arena) (roots : List GraphId) (l : Live) : Live :=
  let reached := a.reachable roots
  let dead := l.graphs.toList.filter (· ∉ reached)
  let l' := { l with graphs := dead.foldl OrderedSet.erase l.graphs }
  l'.releaseAll a (dead.flatMap a.anchors)

end Midend.Live
