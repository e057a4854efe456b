import Midend.OrderedMap

/-!
# Entries of ordered maps

What the list of entries holds after a write, and that an entry is what is read at its key.
-/

namespace Midend

variable {κ ν β : Type} [DecidableEq κ] {k : κ} {v : ν} {es : List (κ × ν)}

theorem mem_putEntry {p : κ × ν} (h : p ∈ putEntry k v es) : p = (k, v) ∨ p ∈ es := by
  induction es with
  | nil => exact Or.inl (List.mem_singleton.mp h)
  | cons q es ih =>
    by_cases hq : q.1 = k
    · rw [putEntry, if_pos hq] at h
      exact (List.mem_cons.mp h).imp_right (List.mem_cons_of_mem q)
    · rw [putEntry, if_neg hq] at h
      rcases List.mem_cons.mp h with h | h
      · exact Or.inr (h ▸ List.mem_cons_self)
      · exact (ih h).imp_right (List.mem_cons_of_mem q)

theorem putEntry_of_not_mem (h : k ∉ es.map Prod.fst) : putEntry k v es = es ++ [(k, v)] := by
  induction es with
  | nil => rfl
  | cons q es ih =>
    obtain ⟨hne, hrest⟩ := not_or.mp (mt List.mem_cons.mpr h)
    rw [putEntry, if_neg (Ne.symm hne), ih hrest, List.cons_append]

namespace OrderedMap

theorem mem_entries_append {m : OrderedMap κ (List β)} {xs : List β} {p : κ × List β}
    (h : p ∈ (m.append k xs).entries) :
    p ∈ m.entries ∨ p.1 = k ∧ ∀ x ∈ p.2, x ∈ xs ∨ ∃ ys, (k, ys) ∈ m.entries ∧ x ∈ ys := by
  rcases mem_putEntry h with rfl | h
  · refine Or.inr ⟨rfl, fun x hx => ?_⟩
    rcases List.mem_append.mp hx with hx | hx
    · cases hget : m.get? k with
      | none =>
        rw [hget] at hx
        exact absurd hx List.not_mem_nil
      | some ys =>
        rw [hget] at hx
        exact Or.inr ⟨ys, mem_entries_of_get? hget, hx⟩
    · exact Or.inl hx
  · exact Or.inl h

private theorem lookup_eq_some_of_mem (hnodup : (es.map Prod.fst).Nodup) (h : (k, v) ∈ es) :
    es.lookup k = some v := by
  induction es with
  | nil => cases h
  | cons e es ih =>
    obtain ⟨k', v'⟩ := e
    obtain ⟨hnot, hrest⟩ := List.nodup_cons.mp hnodup
    rw [List.lookup_cons]
    rcases List.mem_cons.mp h with heq | h
    · obtain ⟨rfl, rfl⟩ := Prod.mk.inj heq
      simp
    · have hmem : k ∈ es.map Prod.fst := List.mem_map.mpr ⟨(k, v), h, rfl⟩
      have hne : k ≠ k' := ne_of_mem_of_not_mem hmem hnot
      rw [beq_false_of_ne hne]
      exact ih hrest h

theorem mem_entries_iff {m : OrderedMap κ ν} : (k, v) ∈ m.entries ↔ m.get? k = some v :=
  ⟨lookup_eq_some_of_mem m.nodup, mem_entries_of_get?⟩

theorem mem_map_snd_iff {m : OrderedMap κ ν} :
    v ∈ m.entries.map Prod.snd ↔ ∃ k, m.get? k = some v := by
  simp [mem_entries_iff]

theorem get?_eq_none_iff {m : OrderedMap κ ν} : m.get? k = none ↔ k ∉ m.keys := by
  rw [keys, Option.eq_none_iff_forall_not_mem]
  constructor
  · intro h hmem
    obtain ⟨⟨k', v⟩, hv, rfl⟩ := List.mem_map.mp hmem
    exact h v (mem_entries_iff.mp hv)
  · intro h v hv
    exact h (mem_keys_of_get? hv)

/-- A new key comes last. -/
theorem entries_insert {m : OrderedMap κ ν} (h : ¬ (m.get? k).isSome = true) :
    (m.insert k v).entries = m.entries ++ [(k, v)] := by
  refine putEntry_of_not_mem fun hk => ?_
  obtain ⟨⟨k', w⟩, hmem, rfl⟩ := List.mem_map.mp hk
  exact h (by simp [mem_entries_iff.mp hmem])

end OrderedMap

end Midend
