import Mathlib.Logic.Relation
import Midend.Arena.Order
import Midend.Proofs.Arena.Write

/-!
# What lies under a node

A node lies under another when it is reached from it over input edges. The pre-order walk lists
exactly the nodes under its start. Where no node lies strictly under itself the inputs can be
followed by induction, downwards from a node to its inputs and upwards from a node to its users.
-/

namespace Midend.Arena

variable {a : Arena} {m n r : NodeId}

/-- Whether `n` has `m` among its inputs. -/
def Uses (a : Arena) (n m : NodeId) : Prop := m ∈ a.inputs n

/-- Whether `m` is reached from `n` over input edges. -/
def Under (a : Arena) (n m : NodeId) : Prop := Relation.ReflTransGen a.Uses n m

/-- No node is reached from itself over one input edge or more. -/
def Acyclic (a : Arena) : Prop := ∀ n, ¬ Relation.TransGen a.Uses n n

theorem Under.refl (a : Arena) (n : NodeId) : a.Under n n := Relation.ReflTransGen.refl

theorem Under.trans {k : NodeId} (h : a.Under k m) (h' : a.Under m n) : a.Under k n :=
  Relation.ReflTransGen.trans h h'

theorem under_of_mem_inputs (h : m ∈ a.inputs n) : a.Under n m := Relation.ReflTransGen.single h

theorem Under.of_inputs {k : NodeId} (h : m ∈ a.inputs k) (h' : a.Under m n) : a.Under k n :=
  Relation.ReflTransGen.head h h'

theorem under_iff : a.Under n m ↔ n = m ∨ ∃ k ∈ a.inputs n, a.Under k m := by
  constructor
  · intro h
    rcases Relation.ReflTransGen.cases_head h with h | ⟨k, hk, hm⟩
    · exact Or.inl h
    · exact Or.inr ⟨k, hk, hm⟩
  · rintro (rfl | ⟨k, hk, hm⟩)
    · exact Under.refl a n
    · exact Under.of_inputs hk hm

theorem eq_of_under_of_inputs_eq_nil (h : a.Under n m) (hn : a.inputs n = []) : n = m := by
  rcases under_iff.mp h with h | ⟨k, hk, _⟩
  · exact h
  · rw [hn] at hk
    cases hk

/-- A set of nodes that holds the inputs of its members holds all that lies under them. -/
theorem Under.mem_of_closed {P : NodeId → Prop} (h : a.Under n m)
    (hP : ∀ k, P k → ∀ j ∈ a.inputs k, P j) (hn : P n) : P m := by
  induction h with
  | refl => exact hn
  | tail _ hk ih => exact hP _ ih _ hk

/-! ### The pre-order walk -/

theorem under_of_mem_preorderFrom {seen stack : List NodeId} (h : m ∈ a.preorderFrom seen stack) :
    ∃ k ∈ stack, a.Under k m := by
  fun_induction preorderFrom a seen stack with
  | case1 => cases h
  | case2 seen n rest hn ih =>
    obtain ⟨k, hk, hm⟩ := ih h
    exact ⟨k, List.mem_cons_of_mem n hk, hm⟩
  | case3 seen n rest hn ih =>
    rcases List.mem_cons.mp h with rfl | h
    · exact ⟨m, List.mem_cons_self, Under.refl a m⟩
    · obtain ⟨k, hk, hm⟩ := ih h
      rcases List.mem_append.mp hk with hk | hk
      · exact ⟨n, List.mem_cons_self, Under.of_inputs hk hm⟩
      · exact ⟨k, List.mem_cons_of_mem n hk, hm⟩

/-- The walk meets every node of the stack, and with a node its inputs, if the inputs of what was
seen before were seen or are on the stack. -/
theorem preorderFrom_closed {seen stack : List NodeId}
    (hseen : ∀ n ∈ seen, ∀ m ∈ a.inputs n, m ∈ seen ∨ m ∈ stack) :
    (∀ n ∈ stack, n ∈ seen ∨ n ∈ a.preorderFrom seen stack) ∧
      ∀ n, n ∈ seen ∨ n ∈ a.preorderFrom seen stack →
        ∀ m ∈ a.inputs n, m ∈ seen ∨ m ∈ a.preorderFrom seen stack := by
  fun_induction preorderFrom a seen stack with
  | case1 seen =>
    simp only [List.not_mem_nil, or_false] at hseen ⊢
    exact ⟨fun n hn => hn.elim, hseen⟩
  | case2 seen n rest hn ih =>
    have hrest : ∀ k ∈ seen, ∀ m ∈ a.inputs k, m ∈ seen ∨ m ∈ rest := by
      intro k hk m hm
      rcases hseen k hk m hm with h | h
      · exact Or.inl h
      · rcases List.mem_cons.mp h with rfl | h
        · exact Or.inl hn
        · exact Or.inr h
    obtain ⟨hstack, hclosed⟩ := ih hrest
    refine ⟨fun k hk => ?_, hclosed⟩
    rcases List.mem_cons.mp hk with rfl | hk
    · exact Or.inl hn
    · exact hstack k hk
  | case3 seen n rest hn ih =>
    have hmove : ∀ k, (k ∈ n :: seen ∨ k ∈ a.preorderFrom (n :: seen) (a.inputs n ++ rest)) ↔
        (k ∈ seen ∨ k ∈ n :: a.preorderFrom (n :: seen) (a.inputs n ++ rest)) := by
      intro k
      simp only [List.mem_cons, or_assoc, or_left_comm]
    have hnext : ∀ k ∈ n :: seen, ∀ m ∈ a.inputs k, m ∈ n :: seen ∨ m ∈ a.inputs n ++ rest := by
      intro k hk m hm
      rcases List.mem_cons.mp hk with rfl | hk
      · exact Or.inr (List.mem_append_left rest hm)
      · rcases hseen k hk m hm with h | h
        · exact Or.inl (List.mem_cons_of_mem n h)
        · rcases List.mem_cons.mp h with rfl | h
          · exact Or.inl List.mem_cons_self
          · exact Or.inr (List.mem_append_right _ h)
    obtain ⟨hstack, hclosed⟩ := ih hnext
    constructor
    · intro k hk
      rcases List.mem_cons.mp hk with rfl | hk
      · exact Or.inr List.mem_cons_self
      · exact (hmove k).mp (hstack k (List.mem_append_right _ hk))
    · intro k hk m hm
      exact (hmove m).mp (hclosed k ((hmove k).mpr hk) m hm)

theorem mem_preorder : m ∈ a.preorder r ↔ a.Under r m := by
  constructor
  · intro h
    obtain ⟨k, hk, hm⟩ := under_of_mem_preorderFrom h
    rw [List.mem_singleton.mp hk] at hm
    exact hm
  · intro h
    have hstart : ∀ n ∈ ([] : List NodeId), ∀ m ∈ a.inputs n, m ∈ [] ∨ m ∈ [r] :=
      fun n hn => absurd hn List.not_mem_nil
    obtain ⟨hstack, hclosed⟩ := preorderFrom_closed hstart
    simp only [List.not_mem_nil, false_or] at hstack hclosed
    exact h.mem_of_closed hclosed (hstack r List.mem_cons_self)

/-! ### Following inputs by induction -/

/-- The nodes of the arena that do not lie under `n`. -/
def notUnder (a : Arena) (n : NodeId) : List NodeId := a.nodeIds.filter (· ∉ a.preorder n)

/-- The nodes of the arena that `n` does not lie under. -/
def notAbove (a : Arena) (n : NodeId) : List NodeId := a.nodeIds.filter (n ∉ a.preorder ·)

theorem mem_notUnder : m ∈ a.notUnder n ↔ m ∈ a.nodeIds ∧ ¬ a.Under n m := by
  simp [notUnder, mem_preorder]

theorem mem_notAbove : m ∈ a.notAbove n ↔ m ∈ a.nodeIds ∧ ¬ a.Under m n := by
  simp [notAbove, mem_preorder]

/-- No node under `n` is reached from itself over one input edge or more. -/
def AcyclicUnder (a : Arena) (n : NodeId) : Prop :=
  ∀ m, a.Under n m → ¬ Relation.TransGen a.Uses m m

theorem Acyclic.not_under (h : a.Acyclic) (hm : m ∈ a.inputs n) : ¬ a.Under m n := fun hu =>
  h n (Relation.TransGen.head' hm hu)

/-- A step down to an input leaves more nodes of the arena aside, unless it closes a cycle. -/
theorem unseen_notUnder_lt (hm : m ∈ a.inputs n) (hnot : ¬ a.Under m n) :
    unseen a.nodeIds (a.notUnder m) < unseen a.nodeIds (a.notUnder n) := by
  have hn := mem_nodeIds_of_mem_inputs hm
  refine unseen_lt (a := n) ?_ hn ?_ ?_
  · intro k hk
    obtain ⟨hk, hnk⟩ := mem_notUnder.mp hk
    exact mem_notUnder.mpr ⟨hk, fun hmk => hnk (Under.of_inputs hm hmk)⟩
  · exact fun hk => (mem_notUnder.mp hk).2 (Under.refl a n)
  · exact mem_notUnder.mpr ⟨hn, hnot⟩

theorem Acyclic.wellFounded_inputs (h : a.Acyclic) :
    WellFounded fun m n => m ∈ a.inputs n :=
  Subrelation.wf (fun hm => unseen_notUnder_lt hm (h.not_under hm))
    (measure fun n => unseen a.nodeIds (a.notUnder n)).wf

/-- Each step up to a user leaves more nodes of the arena aside. -/
theorem Acyclic.wellFounded_users (h : a.Acyclic) :
    WellFounded fun n m => m ∈ a.nodeIds ∧ m ∈ a.inputs n := by
  refine Subrelation.wf ?_ (measure fun m => unseen a.nodeIds (a.notAbove m)).wf
  rintro n m ⟨hmem, hm⟩
  refine unseen_lt (a := m) ?_ hmem ?_ ?_
  · intro k hk
    obtain ⟨hk, hkm⟩ := mem_notAbove.mp hk
    exact mem_notAbove.mpr ⟨hk, fun hkn => hkm (hkn.trans (under_of_mem_inputs hm))⟩
  · exact fun hk => (mem_notAbove.mp hk).2 (Under.refl a m)
  · exact mem_notAbove.mpr ⟨hmem, h.not_under hm⟩

theorem Acyclic.induction {P : NodeId → Prop} (h : a.Acyclic)
    (step : ∀ n, (∀ m ∈ a.inputs n, P m) → P n) (n : NodeId) : P n :=
  h.wellFounded_inputs.induction n step

/-- Where nodes only use nodes made before them the inputs form no cycle. -/
theorem acyclic_of_lt (h : ∀ n ∈ a.nodeIds, ∀ m ∈ a.inputs n, m.index < n.index) : a.Acyclic := by
  have hlt : ∀ {n m}, Relation.TransGen a.Uses n m → m.index < n.index := by
    intro n m hnm
    induction hnm with
    | single hm => exact h n (mem_nodeIds_of_mem_inputs hm) _ hm
    | @tail k m _ hm ih => exact Nat.lt_trans (h k (mem_nodeIds_of_mem_inputs hm) m hm) ih
  exact fun n hn => Nat.lt_irrefl _ (hlt hn)

end Midend.Arena
