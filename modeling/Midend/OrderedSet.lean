/-!
# Sets that remember insertion order

A set kept as a list without repetitions, oldest member first. There are two ways to take a member
out: `erase` keeps the order of the others, `eraseFill` moves the newest member into the gap.
-/

namespace Midend

section Fill

variable {α : Type} [DecidableEq α]

/-- `xs` without `a`, the last element standing where `a` stood. -/
def fillFromLast (a : α) (xs : List α) : List α :=
  match xs.getLast? with
  | none => []
  | some z => if a ∈ xs then xs.dropLast.map (fun x => if x = a then z else x) else xs

private theorem map_fill_eq_self {a z : α} {xs : List α} (h : a ∉ xs) :
    xs.map (fun x => if x = a then z else x) = xs := by
  induction xs with
  | nil => rfl
  | cons b xs ih =>
    simp only [List.mem_cons, not_or] at h
    simp [ih h.2, Ne.symm h.1]

theorem fillFromLast_perm {a : α} {xs : List α} (h : xs.Nodup) :
    (fillFromLast a xs).Perm (xs.erase a) := by
  rcases List.eq_nil_or_concat xs with rfl | ⟨ys, z, rfl⟩
  · simp [fillFromLast]
  · simp only [List.concat_eq_append] at h ⊢
    have hz : z ∉ ys := by
      have := List.nodup_append.mp h
      intro hm
      exact this.2.2 z hm z (by simp) rfl
    have hys : ys.Nodup := (List.nodup_append.mp h).1
    by_cases ha : a ∈ ys ++ [z]
    · simp only [fillFromLast, List.getLast?_append, List.getLast?_singleton, Option.some_or, ha,
        if_true, List.dropLast_concat]
      by_cases haz : a = z
      · subst haz
        rw [map_fill_eq_self hz, List.erase_append_right _ hz]
        simp
      · have hay : a ∈ ys := by simpa [haz] using ha
        obtain ⟨l, r, rfl⟩ := List.append_of_mem hay
        have hal : a ∉ l := by
          intro hm
          exact (List.nodup_append.mp hys).2.2 a hm a (by simp) rfl
        have har : a ∉ r := (List.nodup_cons.mp (List.nodup_append.mp hys).2.1).1
        rw [List.map_append, List.map_cons, map_fill_eq_self hal, map_fill_eq_self har,
          List.append_assoc, List.erase_append_right _ hal]
        simp only [if_true, List.cons_append, List.erase_cons_head]
        exact List.Perm.append_left l (List.perm_append_singleton z r).symm
    · simp [fillFromLast, ha, List.erase_of_not_mem]

theorem nodup_fillFromLast {a : α} {xs : List α} (h : xs.Nodup) : (fillFromLast a xs).Nodup :=
  (fillFromLast_perm h).nodup_iff.mpr (h.erase a)

theorem mem_fillFromLast {a x : α} {xs : List α} (h : xs.Nodup) :
    x ∈ fillFromLast a xs ↔ x ≠ a ∧ x ∈ xs := by
  rw [(fillFromLast_perm h).mem_iff, h.mem_erase_iff]

end Fill

/-- A finite set whose members are listed in order of insertion. -/
structure OrderedSet (α : Type) where
  toList : List α
  nodup : toList.Nodup

namespace OrderedSet

variable {α : Type}

instance : Membership α (OrderedSet α) := ⟨fun s a => a ∈ s.toList⟩

def empty : OrderedSet α := ⟨[], List.nodup_nil⟩

instance : Inhabited (OrderedSet α) := ⟨empty⟩

def size (s : OrderedSet α) : Nat := s.toList.length

theorem mem_def {a : α} {s : OrderedSet α} : a ∈ s ↔ a ∈ s.toList := Iff.rfl

@[simp] theorem not_mem_empty (a : α) : a ∉ (empty : OrderedSet α) := List.not_mem_nil

variable [DecidableEq α]

instance (a : α) (s : OrderedSet α) : Decidable (a ∈ s) :=
  inferInstanceAs (Decidable (a ∈ s.toList))

/-- Adds `a` as the newest member, unless it is one already. -/
def insert (s : OrderedSet α) (a : α) : OrderedSet α :=
  if h : a ∈ s.toList then s
  else ⟨s.toList ++ [a], by
    rw [List.nodup_append]
    exact ⟨s.nodup, by simp, fun x hx y hy hxy => h (by simp_all)⟩⟩

/-- Adds the elements of a list one after the other. -/
def insertAll (s : OrderedSet α) (xs : List α) : OrderedSet α := xs.foldl insert s

/-- The elements of a list, each where it first occurs. -/
def ofList (xs : List α) : OrderedSet α := empty.insertAll xs

/-- Takes `a` out and keeps the order of the others. -/
def erase (s : OrderedSet α) (a : α) : OrderedSet α := ⟨s.toList.erase a, s.nodup.erase a⟩

/-- Takes `a` out; the newest member moves into the gap. -/
def eraseFill (s : OrderedSet α) (a : α) : OrderedSet α :=
  ⟨fillFromLast a s.toList, nodup_fillFromLast s.nodup⟩

@[simp] theorem mem_insert {a b : α} {s : OrderedSet α} : a ∈ s.insert b ↔ a = b ∨ a ∈ s := by
  simp only [mem_def, insert]
  split
  · next h => exact ⟨Or.inr, fun h' => h'.elim (fun e => e ▸ h) id⟩
  · simp [or_comm]

@[simp] theorem mem_insertAll {a : α} {xs : List α} {s : OrderedSet α} :
    a ∈ s.insertAll xs ↔ a ∈ xs ∨ a ∈ s := by
  unfold insertAll
  induction xs generalizing s with
  | nil => simp
  | cons b xs ih => simp [ih, or_left_comm, or_assoc]

@[simp] theorem mem_ofList {a : α} {xs : List α} : a ∈ ofList xs ↔ a ∈ xs := by simp [ofList]

@[simp] theorem mem_erase {a b : α} {s : OrderedSet α} : a ∈ s.erase b ↔ a ≠ b ∧ a ∈ s :=
  s.nodup.mem_erase_iff

@[simp] theorem mem_eraseFill {a b : α} {s : OrderedSet α} :
    a ∈ s.eraseFill b ↔ a ≠ b ∧ a ∈ s :=
  mem_fillFromLast s.nodup

theorem insert_of_mem {a : α} {s : OrderedSet α} (h : a ∈ s) : s.insert a = s :=
  dif_pos h

theorem toList_insert_of_not_mem {a : α} {s : OrderedSet α} (h : a ∉ s) :
    (s.insert a).toList = s.toList ++ [a] := by
  have h' : a ∉ s.toList := h
  simp [insert, h']

theorem subset_toList_insert {a : α} {s : OrderedSet α} : s.toList ⊆ (s.insert a).toList :=
  fun _ hx => mem_insert.mpr (Or.inr hx)

theorem length_eraseFill_lt {a : α} {s : OrderedSet α} (h : a ∈ s) :
    (s.eraseFill a).toList.length < s.toList.length := by
  have hp := (fillFromLast_perm (a := a) s.nodup).length_eq
  have he := List.length_erase_of_mem (l := s.toList) h
  have hpos : 0 < s.toList.length := List.length_pos_of_mem h
  simp only [eraseFill]
  omega

end OrderedSet

end Midend
