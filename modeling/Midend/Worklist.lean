/-!
# Worklists

A search that never expands an item twice ends because the items not yet seen run out. `unseen`
counts them: it never grows as more is seen, and it shrinks when a new item of the universe is.
-/

namespace Midend

variable {α : Type} [DecidableEq α]

/-- How many members of `univ` are not among `seen`. -/
def unseen (univ seen : List α) : Nat := (univ.filter (· ∉ seen)).length

theorem unseen_le (univ : List α) {seen seen' : List α} (h : seen ⊆ seen') :
    unseen univ seen' ≤ unseen univ seen := by
  induction univ with
  | nil => exact Nat.le_refl _
  | cons b univ ih =>
    simp only [unseen, List.filter_cons, decide_not] at ih ⊢
    by_cases hb : b ∈ seen
    · simpa [hb, h hb] using ih
    · by_cases hb' : b ∈ seen'
      · simpa [hb, hb'] using Nat.le_succ_of_le ih
      · simpa [hb, hb'] using ih

theorem unseen_lt {univ seen seen' : List α} {a : α} (h : seen ⊆ seen') (ha : a ∈ univ)
    (hn : a ∉ seen) (hs : a ∈ seen') : unseen univ seen' < unseen univ seen := by
  induction univ with
  | nil => cases ha
  | cons b univ ih =>
    rcases List.mem_cons.mp ha with rfl | ha
    · have hle := unseen_le univ h
      simp only [unseen, List.filter_cons, decide_not] at hle ⊢
      simpa [hn, hs] using Nat.lt_succ_of_le hle
    · have hlt := ih ha
      simp only [unseen, List.filter_cons, decide_not] at hlt ⊢
      by_cases hb : b ∈ seen
      · simpa [hb, h hb] using hlt
      · by_cases hb' : b ∈ seen'
        · simpa [hb, hb'] using Nat.lt_succ_of_lt hlt
        · simpa [hb, hb'] using hlt

theorem unseen_cons_lt {univ seen : List α} {a : α} (ha : a ∈ univ) (hn : a ∉ seen) :
    unseen univ (a :: seen) < unseen univ seen :=
  unseen_lt (List.subset_cons_self a seen) ha hn List.mem_cons_self

end Midend
