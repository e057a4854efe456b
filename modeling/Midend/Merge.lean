import Midend.Merge.Groups
import Midend.Store

/-!
# Merging equal nodes

The second half of common subexpression elimination. In each group the first node stands for every
later one that is equal to it: a constant with the same payload and type key, an apply of the very
same inputs. Groups come in the order of their first members, so inputs are merged before their
users are compared. A later member that differs from the first is compared with no other one.
-/

namespace Midend

/-- Whether `other` may be replaced by `main`. -/
def Arena.mergeable (a : Arena) (main other : NodeId) : Bool :=
  match a.kind? main, a.kind? other with
  | some (.constant v), some (.constant w) => v = w && a.typeKey? main = a.typeKey? other
  | some (.apply xs), some (.apply ys) => xs = ys
  | _, _ => false

namespace Store

/-- Replaces by `main` every node of a list that is live and equal to it, and counts them. -/
def mergeInto (s : Store) (main : NodeId) : List NodeId → Store × Except Fault Nat
  | [] => (s, .ok 0)
  | other :: rest =>
    if main ∈ s.live.nodes ∧ other ∈ s.live.nodes ∧ s.arena.mergeable main other then
      match s.replace other main with
      | (s, .error f) => (s, .error f)
      | (s, .ok ()) =>
        let r := s.mergeInto main rest
        (r.1, r.2.map (· + 1))
    else s.mergeInto main rest

/-- Merges each group into its first member, and counts the nodes replaced. -/
def mergeGroups (s : Store) : List (List NodeId) → Store × Except Fault Nat
  | [] => (s, .ok 0)
  | [] :: rest => s.mergeGroups rest
  | (main :: others) :: rest =>
    match s.mergeInto main others with
    | (s, .error f) => (s, .error f)
    | (s, .ok k) =>
      let r := s.mergeGroups rest
      (r.1, r.2.map (k + ·))

variable [Hashable Shape]

/-- Makes `root` a root and lists the groups of nodes that may be equal. -/
def groupNodes (s : Store) (root : GraphId) :
    Store × Except Fault (List (Option GraphId × List NodeId)) :=
  let s := s.addRoot root
  (s, s.arena.groups root)

/-- Merges equal nodes in everything reachable from `root`, and says whether there were any. -/
def mergeEqual (s : Store) (root : GraphId) : Store × Except Fault Bool :=
  match s.groupNodes root with
  | (s, .error f) => (s, .error f)
  | (s, .ok groups) =>
    let r := s.mergeGroups (groups.map Prod.snd)
    (r.1, r.2.map (0 < ·))

end Store

end Midend
