import Mathlib
import Midend.Proofs.Merge.Classes

/-!
# When grouping fails

A node gets its class after its inputs, so classed nodes lie in layers, and no cycle lies under one
of them. Cycles that the root does not return do not disturb grouping.
-/

namespace Midend

namespace Grouping

open Arena (AcyclicUnder)

variable {a : Arena} {r r' : Grouping} {n : NodeId} {ns : List NodeId} {s : Shape}

/-- Whether a node has a class. -/
def Classed (r : Grouping) (n : NodeId) : Prop := ∃ c, r.classes.get? n = some c

/-- The inputs of classed nodes are classed, and no cycle lies under a classed node. -/
structure Layered (a : Arena) (r : Grouping) : Prop where
  input : ∀ n, r.Classed n → ∀ m ∈ a.inputs n, r.Classed m
  acyclic : ∀ n, r.Classed n → a.AcyclicUnder n

theorem layered_empty : Layered a .empty :=
  ⟨fun n ⟨c, hc⟩ => by simp [Grouping.empty] at hc, fun n ⟨c, hc⟩ => by simp [Grouping.empty] at hc⟩

/-- A node has a shape only if its inputs have classes. -/
theorem classed_of_shape (h : r.shape a n = .ok s) : ∀ m ∈ a.inputs n, r.Classed m := by
  rcases shape_eq_ok_iff.mp h with ⟨v, hk, -⟩ | ⟨inputs, cs, hk, -, hcs⟩ | ⟨hk | hk, -⟩
  · simp [Arena.inputs, hk, NodeKind.inputs]
  · intro m hm
    rw [Arena.inputs_of_kind? hk] at hm
    obtain ⟨i, hi, rfl⟩ := List.mem_iff_getElem.mp hm
    exact ⟨_, hcs.get hi (hcs.length_eq ▸ hi)⟩
  · simp [Arena.inputs, hk, NodeKind.inputs]
  · simp [Arena.inputs, hk]

variable [Hashable Shape]

/-- A node that gets a class has inputs with classes, and no other node gets one with it. -/
theorem add_eq_ok (h : r.add a n = .ok r') :
    (r.Classed n ∨ ∀ m ∈ a.inputs n, r.Classed m) ∧ ∀ m, r'.Classed m ↔ r.Classed m ∨ m = n := by
  unfold add at h
  split at h
  · next hc =>
    have hn : r.Classed n := Option.isSome_iff_exists.mp hc
    refine ⟨Or.inl hn, fun m => ⟨fun hm => Or.inl (Except.ok.inj h ▸ hm), ?_⟩⟩
    rintro (hm | rfl)
    · exact Except.ok.inj h ▸ hm
    · exact Except.ok.inj h ▸ hn
  · cases hs : r.shape a n with
    | error f => simp [hs, Except.map] at h
    | ok s =>
      simp only [hs, Except.map, Except.ok.injEq] at h
      refine ⟨Or.inr (classed_of_shape hs), fun m => ?_⟩
      rw [← h, Classed, OrderedMap.get?_insert]
      by_cases hm : m = n <;> simp [hm, Classed]

theorem Layered.add (h : Layered a r) (hok : r.add a n = .ok r') : Layered a r' := by
  obtain ⟨hin, hiff⟩ := add_eq_ok hok
  by_cases hn : r.Classed n
  · have hsame : ∀ m, r'.Classed m ↔ r.Classed m := fun m =>
      (hiff m).trans (or_iff_left_of_imp fun heq => heq ▸ hn)
    exact ⟨fun k hk m hm => (hsame m).mpr (h.input k ((hsame k).mp hk) m hm),
      fun k hk => h.acyclic k ((hsame k).mp hk)⟩
  · have hin := hin.resolve_left hn
    refine ⟨fun k hk m hm => (hiff m).mpr (Or.inl ?_), fun k hk => ?_⟩
    · rcases (hiff k).mp hk with hk | rfl
      · exact h.input k hk m hm
      · exact hin m hm
    · rcases (hiff k).mp hk with hk | rfl
      · exact h.acyclic k hk
      · intro m hu
        rcases Arena.under_iff.mp hu with rfl | ⟨j, hj, hu⟩
        · -- all that lies under an input is classed already, and `k` is not
          intro hcycle
          obtain ⟨j, hj, hback⟩ := Relation.TransGen.head'_iff.mp hcycle
          exact hn (Arena.Under.mem_of_closed hback h.input (hin j hj))
        · exact h.acyclic j (hin j hj) m hu

theorem Layered.addAll (h : Layered a r) (hok : r.addAll a ns = .ok r') :
    Layered a r' ∧ ∀ m, r'.Classed m ↔ r.Classed m ∨ m ∈ ns := by
  induction ns generalizing r with
  | nil => exact Except.ok.inj hok ▸ ⟨h, fun m => by simp⟩
  | cons n ns ih =>
    unfold Grouping.addAll at hok
    split at hok
    · next r₁ hadd =>
      obtain ⟨h', hiff'⟩ := ih (h.add hadd) hok
      refine ⟨h', fun m => ?_⟩
      rw [hiff', (add_eq_ok hadd).2, List.mem_cons, or_assoc]
    · cases hok

end Grouping

namespace Arena

open Grouping (Layered)

variable [Hashable Shape] {a : Arena} {root : GraphId}

/-- Grouping fails exactly if a node under the return node of a graph that the root leads to lies on
a cycle of inputs. -/
theorem groups_eq_error_iff : (∃ f, a.groups root = .error f) ↔
    ∃ n, a.Returned [root] n ∧ Relation.TransGen a.Uses n n := by
  constructor
  · rintro ⟨f, hf⟩
    by_contra hnone
    have hfree : ∀ n, a.Returned [root] n → ¬ Relation.TransGen a.Uses n n :=
      fun n hn hcycle => hnone ⟨n, hn, hcycle⟩
    obtain ⟨r, hall, -⟩ := exists_faithful (inputsFirst_groupOrder hfree)
    simp [groups, hall, Except.map] at hf
  · rintro ⟨n, hn, hcycle⟩
    unfold groups
    cases hall : Grouping.empty.addAll a (a.groupOrder root) with
    | error f => exact ⟨f, rfl⟩
    | ok r =>
      obtain ⟨hlayered, hiff⟩ := Grouping.layered_empty.addAll hall
      have hclassed : r.Classed n := (hiff n).mpr (Or.inr (mem_groupOrder.mpr hn))
      exact absurd hcycle (hlayered.acyclic n hclassed n (Under.refl a n))

end Arena

end Midend
