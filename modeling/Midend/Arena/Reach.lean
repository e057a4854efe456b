import Midend.Arena.Order

/-!
# Reachable graphs

A graph reaches the graphs named by the constants under its return node. `reachable` follows this
from a list of graphs; they come first in the answer, and every other graph stands where it is first
found. The search ends, because each step either finds a new graph named in the arena or shortens
the stack.
-/

namespace Midend.Arena

variable (a : Arena)

/-- The graphs that some constant of the arena names. -/
def heldGraphs : List GraphId := a.nodeIds.filterMap a.heldGraph?

/-- The graphs named under the return node of `g`, in the order in which the walk meets them. -/
def callees (g : GraphId) : List GraphId :=
  match a.ret? g with
  | none => []
  | some r => (a.preorder r).filterMap a.heldGraph?

/-- The members of `xs` outside `seen`, each where it first occurs. -/
def newGraphs (seen : List GraphId) : List GraphId → List GraphId
  | [] => []
  | g :: gs => if g ∈ seen then newGraphs seen gs else g :: newGraphs (seen ++ [g]) gs

theorem heldGraph?_mem {n : NodeId} {g : GraphId} (h : a.heldGraph? n = some g) :
    g ∈ a.heldGraphs := by
  refine List.mem_filterMap.mpr ⟨n, ?_, h⟩
  apply Classical.byContradiction
  intro hn
  simp [heldGraph?, value?, a.kind?_eq_none hn] at h

theorem callees_subset (g : GraphId) : a.callees g ⊆ a.heldGraphs := by
  intro h hh
  simp only [callees] at hh
  split at hh
  · cases hh
  · obtain ⟨n, _, hn⟩ := List.mem_filterMap.mp hh
    exact a.heldGraph?_mem hn

theorem mem_newGraphs {seen xs : List GraphId} {g : GraphId} :
    g ∈ newGraphs seen xs ↔ g ∈ xs ∧ g ∉ seen := by
  induction xs generalizing seen with
  | nil => simp [newGraphs]
  | cons x xs ih =>
    by_cases hx : x ∈ seen
    · rw [newGraphs, if_pos hx, ih]
      constructor
      · exact fun h => ⟨List.mem_cons_of_mem x h.1, h.2⟩
      · rintro ⟨h, hs⟩
        rcases List.mem_cons.mp h with rfl | h
        · exact absurd hx hs
        · exact ⟨h, hs⟩
    · rw [newGraphs, if_neg hx, List.mem_cons, ih]
      constructor
      · rintro (rfl | ⟨h, hs⟩)
        · exact ⟨List.mem_cons_self, hx⟩
        · exact ⟨List.mem_cons_of_mem x h, fun h' => hs (List.mem_append_left _ h')⟩
      · rintro ⟨h, hs⟩
        by_cases hgx : g = x
        · exact Or.inl hgx
        · refine Or.inr ⟨(List.mem_cons.mp h).resolve_left hgx, fun h' => ?_⟩
          rcases List.mem_append.mp h' with h' | h'
          · exact hs h'
          · exact hgx (by simpa using h')

/-- The graphs found from a stack, after those already `seen`. -/
def reachableFrom (seen : List GraphId) : List GraphId → List GraphId
  | [] => seen
  | g :: rest =>
    let fresh := newGraphs seen (a.callees g)
    reachableFrom (seen ++ fresh) (fresh.reverse ++ rest)
termination_by stack => (unseen a.heldGraphs seen, stack.length)
decreasing_by
  cases hf : newGraphs seen (a.callees g) with
  | nil =>
    simp only [List.append_nil, List.reverse_nil, List.nil_append]
    exact Prod.Lex.right _ (by simp)
  | cons x xs =>
    have hx : x ∈ newGraphs seen (a.callees g) := by simp [hf]
    have hmem := mem_newGraphs.mp hx
    exact Prod.Lex.left _ _ (unseen_lt (fun _ h => List.mem_append_left _ h)
      (a.callees_subset g hmem.1) hmem.2 (by simp))

/-- The graphs reachable from `roots`, the roots themselves first. -/
def reachable (roots : List GraphId) : List GraphId :=
  let start := newGraphs [] roots
  a.reachableFrom start start.reverse

end Midend.Arena
