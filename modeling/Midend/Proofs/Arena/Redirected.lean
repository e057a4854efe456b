import Midend.Proofs.Arena.Under

/-!
# Inputs after slots changed

What lies under a node once slots were pointed at another one. Whether inputs form a cycle can be
decided.
-/

namespace Midend

namespace Arena

variable {a b c : Arena} {e : Edge} {n m old new : NodeId}

/-! ### Slots that go over to one node -/

/-- Whether slots of `a` went over to `new`, nothing else being changed in `b`. -/
def TurnedTo (a b : Arena) (new : NodeId) : Prop :=
  ∀ e, b.slot? e = a.slot? e ∨ b.slot? e = some new

theorem TurnedTo.refl (a : Arena) (new : NodeId) : a.TurnedTo a new := fun _ => Or.inl rfl

theorem TurnedTo.trans (h : a.TurnedTo b new) (h' : b.TurnedTo c new) : a.TurnedTo c new := by
  intro e
  rcases h' e with hc | hc
  · exact (h e).imp hc.trans hc.trans
  · exact Or.inr hc

theorem turnedTo_setSlot (a : Arena) (e : Edge) (new : NodeId) :
    a.TurnedTo (a.setSlot e new) new := by
  intro e'
  by_cases he : e' = e
  · subst he
    cases hslot : a.slot? e' with
    | none =>
      have hlen : (a.inputs e'.owner).length ≤ e'.index := List.getElem?_eq_none_iff.mp hslot
      rw [slot?, inputs_setSlot, if_pos rfl, List.set_eq_of_length_le hlen]
      exact Or.inl hslot
    | some old => exact Or.inr (slot?_setSlot_self new hslot)
  · exact Or.inl (slot?_setSlot_of_ne new he)

/-- What lies under the node that slots went over to lies there still, unless they closed a cycle. -/
theorem TurnedTo.under (h : a.TurnedTo b new) (hb : b.Acyclic) (hu : a.Under new n) :
    b.Under new n := by
  induction hu with
  | refl => exact Under.refl b new
  | @tail k m _ hk ih =>
    obtain ⟨i, hi⟩ := exists_slot?_of_mem hk
    rcases h ⟨k, i⟩ with hs | hs
    · exact ih.trans (under_of_mem_inputs (mem_inputs_of_slot? (hs.trans hi)))
    · exact absurd ih (hb.not_under (mem_inputs_of_slot? hs))

/-- Pointing a slot at a node that its owner does not lie under closes no cycle. -/
theorem Acyclic.setSlot_of_not_under (h : a.Acyclic) (hn : ¬ a.Under new e.owner) :
    (a.setSlot e new).Acyclic := by
  have hpath : ∀ {x y}, Relation.TransGen (a.setSlot e new).Uses x y →
      Relation.TransGen a.Uses x y ∨ (a.Under x e.owner ∧ a.Under new y) := by
    intro x y hxy
    induction hxy with
    | single hu =>
      rcases mem_inputs_setSlot hu with hu | ⟨rfl, rfl⟩
      · exact Or.inl (.single hu)
      · exact Or.inr ⟨Under.refl a _, Under.refl a _⟩
    | @tail y z _ hu ih =>
      rcases mem_inputs_setSlot hu with hu | ⟨rfl, rfl⟩
      · exact ih.imp (·.tail hu) fun ⟨hx, hy⟩ => ⟨hx, hy.trans (under_of_mem_inputs hu)⟩
      · rcases ih with ih | ⟨_, hy⟩
        · exact Or.inr ⟨ih.to_reflTransGen, Under.refl a _⟩
        · exact absurd hy hn
  intro n hnn
  rcases hpath hnn with hnn | ⟨hno, hnew⟩
  · exact h n hnn
  · exact hn (hnew.trans hno)

/-! ### One slot -/

/-- What lay under a node lies there still, unless it hung from the slot. -/
theorem Under.setSlot_or (new : NodeId) (hslot : a.slot? e = some old) (h : a.Under n m) :
    (a.setSlot e new).Under n m ∨ ((a.setSlot e new).Under n e.owner ∧ a.Under old m) := by
  induction h with
  | refl => exact Or.inl (Under.refl _ n)
  | @tail k m _ hm ih =>
    rcases ih with ih | ⟨ho, hu⟩
    · obtain ⟨i, hi⟩ := exists_slot?_of_mem hm
      by_cases he : (⟨k, i⟩ : Edge) = e
      · subst he
        obtain rfl : old = m := Option.some.inj (hslot.symm.trans hi)
        exact Or.inr ⟨ih, Under.refl a old⟩
      · refine Or.inl (ih.trans (under_of_mem_inputs (mem_inputs_of_slot? (e := ⟨k, i⟩) ?_)))
        rw [slot?_setSlot_of_ne new he, hi]
    · exact Or.inr ⟨ho, hu.trans (under_of_mem_inputs hm)⟩

/-- What lies under a node after a slot changed lay there before, or hangs from the slot now. -/
theorem Under.of_setSlot (h : (a.setSlot e new).Under n m) :
    a.Under n m ∨ a.Under n e.owner := by
  induction h with
  | refl => exact Or.inl (Under.refl a n)
  | tail _ hm ih =>
    rcases ih with ih | ih
    · rcases mem_inputs_setSlot hm with hm | ⟨rfl, rfl⟩
      · exact Or.inl (ih.trans (under_of_mem_inputs hm))
      · exact Or.inr ih
    · exact Or.inr ih

/-- No slot of `e.owner` hangs from itself, so pointing `e` elsewhere leaves what is over it. -/
theorem Acyclic.under_owner_setSlot (hac : a.Acyclic) (hslot : a.slot? e = some old)
    (h : a.Under n e.owner) : (a.setSlot e new).Under n e.owner := by
  rcases h.setSlot_or new hslot with h | ⟨-, h⟩
  · exact h
  · exact absurd h (hac.not_under (mem_inputs_of_slot? hslot))

/-! ### Deciding whether inputs form a cycle -/

/-- Whether nodes only use nodes made before them. -/
def rising (a : Arena) : Bool := a.nodeIds.all fun n => (a.inputs n).all fun m => m.index < n.index

theorem acyclic_of_rising (h : a.rising = true) : a.Acyclic :=
  acyclic_of_lt (by simpa [rising] using h)

/-- Whether no input of a node has the node under it. -/
def noReturn (a : Arena) : Bool :=
  a.nodeIds.all fun n => (a.inputs n).all fun m => n ∉ a.preorder m

theorem noReturn_iff : a.noReturn = true ↔ a.Acyclic := by
  simp only [noReturn, List.all_eq_true, decide_eq_true_eq, mem_preorder]
  constructor
  · intro h n hn
    obtain ⟨m, hm, hu⟩ := Relation.TransGen.head'_iff.mp hn
    exact h n (mem_nodeIds_of_mem_inputs hm) m hm hu
  · exact fun h n _ m hm => h.not_under hm

/-- The walks are only made over arenas that do not rise. -/
instance (a : Arena) : Decidable a.Acyclic :=
  if h : a.rising = true then isTrue (acyclic_of_rising h) else decidable_of_iff _ noReturn_iff

end Arena

end Midend
