import Midend.Live.Acquire
import Midend.Live.Release
import Midend.Proofs.Arena.Write

/-!
# Recorded uses

Which slots are recorded as holding a node after the index was changed by one slot, by the slots of
a node that becomes live, or by the slots of a node that ceases to be live.
-/

namespace Midend.Live

variable {a : Arena} {l : Live} {n m : NodeId} {e : Edge}

/-- Whether no slot is recorded as holding `n`. -/
def Idle (l : Live) (n : NodeId) : Prop := ∀ e, e ∉ l.usesOf n

theorem useCount_eq_zero_iff : l.useCount n = 0 ↔ l.Idle n := by
  simp only [useCount, OrderedSet.size, List.length_eq_zero_iff, List.eq_nil_iff_forall_not_mem,
    Idle, OrderedSet.mem_def]

theorem not_idle_iff : ¬ l.Idle n ↔ ∃ e, e ∈ l.usesOf n := by
  simp [Idle]

/-- Two different slots cannot hold a node that is used at most once. -/
theorem eq_of_useCount_le_one {e' : Edge} (h : l.useCount n ≤ 1) (he : e ∈ l.usesOf n)
    (he' : e' ∈ l.usesOf n) : e = e' := by
  have hlen : (l.usesOf n).toList.length ≤ 1 := h
  rw [OrderedSet.mem_def] at he he'
  match hs : (l.usesOf n).toList with
  | [] => simp [hs] at he
  | [x] =>
    rw [hs, List.mem_singleton] at he he'
    rw [he, he']
  | x :: y :: rest => simp [hs] at hlen

theorem mem_usesOf_addUse {e' : Edge} :
    e' ∈ (l.addUse n e).usesOf m ↔ (m = n ∧ e' = e) ∨ e' ∈ l.usesOf m := by
  rw [usesOf_addUse]
  by_cases h : m = n
  · subst h
    simp
  · simp [h]

theorem mem_usesOf_dropUse {e' : Edge} :
    e' ∈ (l.dropUse n e).usesOf m ↔ ¬ (m = n ∧ e' = e) ∧ e' ∈ l.usesOf m := by
  rw [usesOf_dropUse]
  by_cases h : m = n
  · subst h
    simp
  · simp [h]

theorem mem_usesOf_clearUses : e ∈ (l.clearUses n).usesOf m ↔ m ≠ n ∧ e ∈ l.usesOf m := by
  rw [usesOf_clearUses]
  by_cases h : m = n
  · simp [h]
  · simp [h]

theorem mem_usesOf_addUses {slots : List (NodeId × Edge)} :
    e ∈ (l.addUses slots).usesOf m ↔ (m, e) ∈ slots ∨ e ∈ l.usesOf m := by
  induction slots generalizing l with
  | nil => simp [addUses]
  | cons s slots ih =>
    obtain ⟨k, d⟩ := s
    rw [addUses, ih, mem_usesOf_addUse, List.mem_cons, Prod.mk.injEq]
    simp only [or_assoc, or_left_comm]

theorem mem_usesOf_dropUses {slots : List (NodeId × Edge)} :
    e ∈ (l.dropUses slots).1.usesOf m ↔ (m, e) ∉ slots ∧ e ∈ l.usesOf m := by
  induction slots generalizing l with
  | nil => simp [dropUses]
  | cons s slots ih =>
    obtain ⟨k, d⟩ := s
    simp only [dropUses, ih, mem_usesOf_dropUse, List.mem_cons, Prod.mk.injEq, not_or, and_assoc,
      and_left_comm]

/-- A node that held a slot and is left without use is listed. -/
theorem mem_dropUses_of_idle {slots : List (NodeId × Edge)} (hs : (m, e) ∈ slots)
    (hidle : (l.dropUses slots).1.Idle m) : m ∈ (l.dropUses slots).2 := by
  induction slots generalizing l e with
  | nil => cases hs
  | cons s slots ih =>
    obtain ⟨k, d⟩ := s
    by_cases hrest : ∃ e', (m, e') ∈ slots
    · obtain ⟨e', he'⟩ := hrest
      have hmem := ih (l := l.dropUse k d) he' hidle
      simp only [dropUses]
      split
      · exact List.mem_cons_of_mem k hmem
      · exact hmem
    · have hk : m = k := by
        rcases List.mem_cons.mp hs with h | h
        · exact (Prod.mk.inj h).1
        · exact absurd ⟨e, h⟩ hrest
      have hzero : (l.dropUse k d).useCount k = 0 := by
        rw [useCount_eq_zero_iff]
        intro e' he'
        refine hidle e' (mem_usesOf_dropUses (l := l.dropUse k d) |>.mpr ⟨?_, hk ▸ he'⟩)
        exact fun h => hrest ⟨e', h⟩
      simp only [dropUses, hzero, if_true]
      rw [hk]
      exact List.mem_cons_self

/-! ### Entering and leaving -/

theorem mem_usesOf_enterNode :
    e ∈ (l.enterNode a n).usesOf m ↔ (e.owner = n ∧ a.slot? e = some m) ∨ e ∈ l.usesOf m := by
  rw [enterNode, mem_usesOf_addUses, Arena.mem_slots]
  rfl

theorem mem_usesOf_leaveNode (hidle : l.Idle n) :
    e ∈ (l.leaveNode a n).1.usesOf m ↔
      ¬ (e.owner = n ∧ a.slot? e = some m) ∧ e ∈ l.usesOf m := by
  have hclear : ∀ k, e ∈ (({ l with nodes := l.nodes.eraseFill n } : Live).clearUses n).usesOf k ↔
      e ∈ l.usesOf k := by
    intro k
    rw [mem_usesOf_clearUses]
    constructor
    · exact fun h => h.2
    · intro h
      refine ⟨?_, h⟩
      rintro rfl
      exact hidle e h
  rw [leaveNode, mem_usesOf_dropUses, Arena.mem_slots, hclear]

@[simp] theorem graphs_leaveNode : (l.leaveNode a n).1.graphs = l.graphs := by
  simp [leaveNode, clearUses]

theorem mem_leaveNode_of_idle (hs : e.owner = n) (hm : a.slot? e = some m)
    (hidle : (l.leaveNode a n).1.Idle m) : m ∈ (l.leaveNode a n).2 :=
  mem_dropUses_of_idle (Arena.mem_slots.mpr ⟨hs, hm⟩) hidle

end Midend.Live
