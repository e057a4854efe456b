import Midend.Arena
import Midend.OrderedMap
import Midend.OrderedSet

/-!
# The live part of an arena

Which nodes and graphs are live, and for each node the input slots of live nodes that hold it. The
index changes one slot at a time, and such a change leaves the live nodes and graphs alone.
-/

namespace Midend

/-- The live nodes, the live graphs in the order in which they became live, and the uses. -/
structure Live where
  nodes : OrderedSet NodeId
  graphs : OrderedSet GraphId
  uses : OrderedMap NodeId (OrderedSet Edge)

namespace Live

def empty : Live := ⟨.empty, .empty, .empty⟩

instance : Inhabited Live := ⟨empty⟩

/-- The slots of live nodes that hold `n`. -/
def usesOf (l : Live) (n : NodeId) : OrderedSet Edge := (l.uses.get? n).getD .empty

/-- How many slots of live nodes hold `n`. -/
def useCount (l : Live) (n : NodeId) : Nat := (l.usesOf n).size

/-- Records that the slot `e` holds `n`. -/
def addUse (l : Live) (n : NodeId) (e : Edge) : Live :=
  { l with uses := l.uses.insert n ((l.usesOf n).insert e) }

/-- Records that the slot `e` no longer holds `n`. -/
def dropUse (l : Live) (n : NodeId) (e : Edge) : Live :=
  { l with uses := l.uses.insert n ((l.usesOf n).eraseFill e) }

/-- Records that no slot holds `n`. -/
def clearUses (l : Live) (n : NodeId) : Live := { l with uses := l.uses.insert n .empty }

/-- Records each of the slots given with what it holds. -/
def addUses (l : Live) : List (NodeId × Edge) → Live
  | [] => l
  | (n, e) :: slots => (l.addUse n e).addUses slots

/-- Strikes each of the slots given, and lists the nodes that are left without use on the way. -/
def dropUses (l : Live) : List (NodeId × Edge) → Live × List NodeId
  | [] => (l, [])
  | (n, e) :: slots =>
    let l' := l.dropUse n e
    let r := l'.dropUses slots
    (r.1, if l'.useCount n = 0 then n :: r.2 else r.2)

@[simp] theorem usesOf_empty (n : NodeId) : empty.usesOf n = .empty := rfl

theorem usesOf_addUse (l : Live) (n m : NodeId) (e : Edge) :
    (l.addUse n e).usesOf m = if m = n then (l.usesOf n).insert e else l.usesOf m := by
  simp only [usesOf, addUse, OrderedMap.get?_insert]
  split <;> rfl

theorem usesOf_dropUse (l : Live) (n m : NodeId) (e : Edge) :
    (l.dropUse n e).usesOf m = if m = n then (l.usesOf n).eraseFill e else l.usesOf m := by
  simp only [usesOf, dropUse, OrderedMap.get?_insert]
  split <;> rfl

theorem usesOf_clearUses (l : Live) (n m : NodeId) :
    (l.clearUses n).usesOf m = if m = n then .empty else l.usesOf m := by
  simp only [usesOf, clearUses, OrderedMap.get?_insert]
  split <;> rfl

@[simp] theorem nodes_addUses (l : Live) (slots : List (NodeId × Edge)) :
    (l.addUses slots).nodes = l.nodes := by
  induction slots generalizing l with
  | nil => rfl
  | cons s slots ih => exact ih (l.addUse s.1 s.2)

@[simp] theorem graphs_addUses (l : Live) (slots : List (NodeId × Edge)) :
    (l.addUses slots).graphs = l.graphs := by
  induction slots generalizing l with
  | nil => rfl
  | cons s slots ih => exact ih (l.addUse s.1 s.2)

@[simp] theorem nodes_dropUses (l : Live) (slots : List (NodeId × Edge)) :
    (l.dropUses slots).1.nodes = l.nodes := by
  induction slots generalizing l with
  | nil => rfl
  | cons s slots ih => exact ih (l.dropUse s.1 s.2)

@[simp] theorem graphs_dropUses (l : Live) (slots : List (NodeId × Edge)) :
    (l.dropUses slots).1.graphs = l.graphs := by
  induction slots generalizing l with
  | nil => rfl
  | cons s slots ih => exact ih (l.dropUse s.1 s.2)

end Live

end Midend
