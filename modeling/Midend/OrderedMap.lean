/-!
# Maps that remember insertion order

A finite map kept as a list of entries, oldest key first. Writing to a key that is present keeps its
place.
-/

namespace Midend

variable {κ ν : Type} [DecidableEq κ]

/-- Writes `v` at `k` in a list of entries: in place where `k` occurs, else at the end. -/
def putEntry (k : κ) (v : ν) : List (κ × ν) → List (κ × ν)
  | [] => [(k, v)]
  | e :: es => if e.1 = k then (k, v) :: es else e :: putEntry k v es

theorem keys_putEntry (k : κ) (v : ν) (es : List (κ × ν)) :
    (putEntry k v es).map Prod.fst =
      if k ∈ es.map Prod.fst then es.map Prod.fst else es.map Prod.fst ++ [k] := by
  induction es with
  | nil => rfl
  | cons e es ih =>
    by_cases h : e.1 = k
    · simp [putEntry, h]
    · have h' : k ≠ e.1 := Ne.symm h
      by_cases hk : k ∈ es.map Prod.fst
      · simp only [putEntry, h, if_false, List.map_cons, ih, hk, if_true, List.mem_cons, or_true]
      · simp only [putEntry, h, if_false, List.map_cons, ih, hk, List.mem_cons, h', or_false,
          List.cons_append]

/-- A finite map whose keys are listed in order of insertion. -/
structure OrderedMap (κ ν : Type) where
  entries : List (κ × ν)
  nodup : (entries.map Prod.fst).Nodup

namespace OrderedMap

def empty : OrderedMap κ ν := ⟨[], List.nodup_nil⟩

instance : Inhabited (OrderedMap κ ν) := ⟨empty⟩

/-- The keys, oldest first. -/
def keys (m : OrderedMap κ ν) : List κ := m.entries.map Prod.fst

/-- The value at `k`, if there is one. -/
def get? (m : OrderedMap κ ν) (k : κ) : Option ν := m.entries.lookup k

/-- Writes `v` at `k`, in place if `k` is a key, else as the newest entry. -/
def insert (m : OrderedMap κ ν) (k : κ) (v : ν) : OrderedMap κ ν :=
  ⟨putEntry k v m.entries, by
    rw [keys_putEntry]
    split
    · exact m.nodup
    · next h =>
      rw [List.nodup_append]
      exact ⟨m.nodup, by simp, fun x hx y hy hxy => h (by simp_all)⟩⟩

/-- Appends to the list kept at `k`, an absent key holding the empty list. -/
def append {β : Type} (m : OrderedMap κ (List β)) (k : κ) (xs : List β) : OrderedMap κ (List β) :=
  m.insert k ((m.get? k).getD [] ++ xs)

@[simp] theorem get?_empty (k : κ) : (empty : OrderedMap κ ν).get? k = none := rfl

private theorem lookup_cons_ite (k a : κ) (b : ν) (es : List (κ × ν)) :
    ((a, b) :: es).lookup k = if k = a then some b else es.lookup k := by
  rw [List.lookup_cons]
  by_cases h : k = a
  · simp [h]
  · rw [show (k == a) = false by simpa using h, if_neg h]

theorem lookup_putEntry (k k' : κ) (v : ν) (es : List (κ × ν)) :
    (putEntry k v es).lookup k' = if k' = k then some v else es.lookup k' := by
  induction es with
  | nil => exact lookup_cons_ite k' k v []
  | cons e es ih =>
    obtain ⟨a, b⟩ := e
    by_cases ha : a = k
    · simp only [putEntry, ha, if_true, lookup_cons_ite]
      by_cases h : k' = k <;> simp [h]
    · simp only [putEntry, ha, if_false, lookup_cons_ite, ih]
      by_cases h : k' = a
      · simp [h, ha]
      · simp [h]

theorem get?_insert (m : OrderedMap κ ν) (k k' : κ) (v : ν) :
    (m.insert k v).get? k' = if k' = k then some v else m.get? k' :=
  lookup_putEntry k k' v m.entries

theorem mem_entries_of_get? {m : OrderedMap κ ν} {k : κ} {v : ν} (h : m.get? k = some v) :
    (k, v) ∈ m.entries := by
  simp only [get?] at h
  generalize m.entries = es at h
  induction es with
  | nil => cases h
  | cons e es ih =>
    rw [lookup_cons_ite] at h
    by_cases hk : k = e.1
    · rw [if_pos hk] at h
      exact List.mem_cons.mpr (Or.inl (by rw [hk, ← Option.some.inj h]))
    · rw [if_neg hk] at h
      exact List.mem_cons_of_mem e (ih h)

theorem mem_keys_of_get? {m : OrderedMap κ ν} {k : κ} {v : ν} (h : m.get? k = some v) :
    k ∈ m.keys :=
  List.mem_map.mpr ⟨(k, v), mem_entries_of_get? h, rfl⟩

theorem keys_insert (m : OrderedMap κ ν) (k : κ) (v : ν) :
    (m.insert k v).keys = if k ∈ m.keys then m.keys else m.keys ++ [k] :=
  keys_putEntry k v m.entries

theorem get?_append {β : Type} (m : OrderedMap κ (List β)) (k k' : κ) (xs : List β) :
    (m.append k xs).get? k' = if k' = k then some ((m.get? k).getD [] ++ xs) else m.get? k' :=
  get?_insert m k k' _

end OrderedMap

end Midend
