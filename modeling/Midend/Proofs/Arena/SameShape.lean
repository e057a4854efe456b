import Midend.Demand.Origin
import Midend.Proofs.Arena.First
import Midend.Proofs.Arena.Under
import Midend.Proofs.Arena.WellFormed

/-!
# Arenas of the same shape

Two arenas have the same shape if they differ in annotations and labels at most. Becoming live,
ceasing to be live, reachability and the parts of an output look at neither.
-/

namespace Midend

namespace Arena

variable {a b : Arena} {n : NodeId} {g : GraphId} {e : Edge}

/-- Whether two arenas have the same graphs and nodes, annotations and labels apart. -/
structure SameShape (a b : Arena) : Prop where
  size : b.nodes.size = a.nodes.size
  kind : ∀ n, b.kind? n = a.kind? n
  owner : ∀ n, b.owner? n = a.owner? n
  graph : ∀ g, b.graph? g = a.graph? g

namespace SameShape

variable (h : a.SameShape b)
include h

theorem nodeIds : b.nodeIds = a.nodeIds := by simp only [Arena.nodeIds, h.size]

theorem inputs (n : NodeId) : b.inputs n = a.inputs n := by simp only [Arena.inputs, h.kind]

theorem value? (n : NodeId) : b.value? n = a.value? n := by simp only [Arena.value?, h.kind]

theorem heldGraph? (n : NodeId) : b.heldGraph? n = a.heldGraph? n := heldGraph?_congr (h.value? n)

theorem isApply (n : NodeId) : b.isApply n = a.isApply n := by simp only [Arena.isApply, h.kind]

theorem applied? (n : NodeId) : b.applied? n = a.applied? n := by
  simp only [Arena.applied?, h.inputs, h.value?]

theorem step? (n : NodeId) : b.step? n = a.step? n := by simp only [Arena.step?, h.value?]

theorem indexing? (n : NodeId) : b.indexing? n = a.indexing? n := by
  simp only [Arena.indexing?, h.applied?, h.inputs, h.step?]

theorem slot? (e : Edge) : b.slot? e = a.slot? e := slot?_congr (h.inputs e.owner)

theorem slots (n : NodeId) : b.slots n = a.slots n := by simp only [Arena.slots, h.inputs]

theorem ret? (g : GraphId) : b.ret? g = a.ret? g := ret?_congr (h.graph g)

theorem anchors (g : GraphId) : b.anchors g = a.anchors g := anchors_congr (h.graph g)

theorem output? (g : GraphId) : b.output? g = a.output? g := by
  simp only [Arena.output?, h.ret?, h.inputs]

theorem mem_graphIds_iff : g ∈ b.graphIds ↔ g ∈ a.graphIds := by
  rw [mem_graphIds_iff_graph?, mem_graphIds_iff_graph?, h.graph]

theorem uses : b.Uses = a.Uses := by
  funext k j
  simp only [Uses, h.inputs]

theorem under_iff {m : NodeId} : b.Under n m ↔ a.Under n m := by rw [Under, Under, h.uses]

theorem acyclic_iff : b.Acyclic ↔ a.Acyclic := by rw [Acyclic, Acyclic, h.uses]

theorem preorderFrom (seen stack : List NodeId) :
    b.preorderFrom seen stack = a.preorderFrom seen stack := by
  fun_induction Arena.preorderFrom a seen stack with
  | case1 => rw [Arena.preorderFrom]
  | case2 seen n rest hn ih => rw [Arena.preorderFrom, if_pos hn, ih]
  | case3 seen n rest hn ih => rw [Arena.preorderFrom, if_neg hn, h.inputs, ih]

theorem reachable (roots : List GraphId) : b.reachable roots = a.reachable roots := by
  refine reachableFrom_congr (fun g seen => ?_) _ _
  simp only [callees, preorder, h.ret?, h.preorderFrom, funext h.heldGraph?]

end SameShape

end Arena

/-! ### The live part -/

namespace Arena.SameShape

variable {a b : Arena} (h : a.SameShape b)
include h

theorem enterNode (l : Live) (n : NodeId) : l.enterNode b n = l.enterNode a n := by
  simp only [Live.enterNode, h.slots]

theorem enterNodes (l : Live) (held : List GraphId) (stack : List NodeId) :
    l.enterNodes b held stack = l.enterNodes a held stack := by
  fun_induction Live.enterNodes a l held stack with
  | case1 => rw [Live.enterNodes]
  | case2 l held n rest hn ih => rw [Live.enterNodes, if_pos hn, ih]
  | case3 l held n rest hn ih =>
    rw [Live.enterNodes, if_neg hn, h.enterNode, h.heldGraph?, h.inputs, ih]

theorem acquire (l : Live) (agenda : List Wanted) : l.acquire b agenda = l.acquire a agenda := by
  fun_induction Live.acquire a l agenda with
  | case1 => rw [Live.acquire]
  | case2 l n rest r ih =>
    rw [Live.acquire, h.enterNodes]
    exact ih
  | case3 l g rest hg ih => rw [Live.acquire, if_pos hg, ih]
  | case4 l g rest hg ih => rw [Live.acquire, if_neg hg, h.anchors, ih]

theorem releasable (l : Live) (n : NodeId) : l.releasable b n = l.releasable a n := by
  simp only [Live.releasable, h.owner, h.ret?, Arena.isParameter, h.kind]

theorem release (l : Live) (dropped : Bool) (stack : List NodeId) :
    l.release b dropped stack = l.release a dropped stack := by
  fun_induction Live.release a l dropped stack with
  | case1 => rw [Live.release]
  | case2 l dropped n rest hn r ih =>
    rw [Live.release, h.releasable, if_pos hn, h.heldGraph?, Live.leaveNode, h.slots]
    exact ih
  | case3 l dropped n rest hn ih => rw [Live.release, h.releasable, if_neg hn, ih]

theorem prune (roots : List GraphId) (l : Live) : l.prune b roots = l.prune a roots := by
  simp only [Live.prune, Live.releaseAll, h.reachable, h.release, funext h.anchors]

theorem partsFrom (l : Live) (above : List NodeId) (p : Path) (n : NodeId) :
    l.partsFrom b above p n = l.partsFrom a above p n := by
  fun_induction Live.partsFrom l a above p n with
  | case1 above p n hc => rw [Live.partsFrom, h.nodeIds, dif_pos hc]
  | case2 above p n hc f parts hin happ ih =>
    rw [Live.partsFrom, h.nodeIds, dif_neg hc, h.applied?, h.inputs, happ, hin]
    simp only [ih]
  | case3 above p n hc f env key value hin happ hk =>
    rw [Live.partsFrom, h.nodeIds, dif_neg hc, h.applied?, h.inputs, happ, hin]
    simp only [h.step?, hk]
  | case4 above p n hc f env key value hin happ k hk ih ih' =>
    rw [Live.partsFrom, h.nodeIds, dif_neg hc, h.applied?, h.inputs, happ, hin]
    simp only [h.step?, hk, ih, ih']
  | case5 above p n hc ht hl =>
    rw [Live.partsFrom, h.nodeIds, dif_neg hc, h.applied?, h.inputs]
    split
    · next happ hin => exact absurd hin (ht _ _ happ)
    · next happ hin => exact absurd hin (hl _ _ _ _ happ)
    · rfl

theorem parts (l : Live) (g : GraphId) : l.parts b g = l.parts a g := by
  simp only [Live.parts, h.ret?, h.output?, h.partsFrom]

end Arena.SameShape

/-- Keeping roots leaves the same part of two arenas of the same shape live. -/
theorem Store.live_keepRoots_of_sameShape {s s' : Store} (h : s.arena.SameShape s'.arena)
    (hlive : s'.live = s.live) (gs : List GraphId) :
    (s'.keepRoots gs).live = (s.keepRoots gs).live := by
  have hacquire : Live.acquireGraph s'.arena = Live.acquireGraph s.arena := by
    funext l g
    exact h.acquire l [.graph g]
  simp only [Store.keepRoots, Store.prune, hlive, hacquire, h.prune]

end Midend
