import Mathlib
import Midend.Proofs.Merge.Steps
import Midend.Proofs.Optimize.Descends

/-!
# What merging leaves of an arena

A merge points slots at a node of the same owner that the root reaches already. So a pass of merging
is a change of the kind that passes make: it spares no slot but changes what none of them computes.
-/

namespace Midend

namespace Arena

variable {a b : Arena} {e : Edge} {n m m' : NodeId}

theorem Merged.unfolds_of (h : a.Merged b) (hex : ∀ n ∈ a.nodeIds, ∃ u, a.Unfolds n u)
    {u : Unfolding} (hu : b.Unfolds n u) : a.Unfolds n u := by
  obtain ⟨w, hw⟩ := hex n (h.nodeIds ▸ hu.mem_nodeIds)
  exact (h.unfolds hw).unique hu ▸ hw

/-- What is alike after merging was so before. -/
theorem Merged.alike_of (h : a.Merged b) (hex : ∀ n ∈ a.nodeIds, ∃ u, a.Unfolds n u)
    (hal : b.Alike m n) : a.Alike m n := by
  obtain ⟨⟨u, hm, hn⟩, happ⟩ := hal
  refine ⟨⟨u, h.unfolds_of hex hm, h.unfolds_of hex hn⟩, ?_⟩
  rwa [h.isApply, h.isApply, h.owner, h.owner] at happ

theorem Merged.unfolds_slot (h : a.Merged b) (hex : ∃ u, a.Unfolds e.owner u)
    (hm : a.slot? e = some m) (hm' : b.slot? e = some m') (u : Unfolding) :
    b.Unfolds m' u ↔ a.Unfolds m u := by
  obtain ⟨w, hw⟩ := hex
  have hw' := h.unfolds hw
  have hkind := kind?_of_mem_inputs (mem_inputs_of_slot? hm)
  cases hw with
  | constant hk => simp [hkind] at hk
  | parameter hk => simp [hkind] at hk
  | @apply _ inputs us hk hlen hall =>
    obtain rfl : inputs = a.inputs e.owner := (inputs_of_kind? hk).symm
    obtain ⟨inputs', hk', hlen', hall'⟩ := unfolds_apply_iff.mp hw'
    obtain rfl : inputs' = b.inputs e.owner := (inputs_of_kind? hk').symm
    obtain ⟨hi, -⟩ := List.getElem?_eq_some_iff.mp hm
    have hu := List.getElem?_eq_getElem (hlen ▸ hi)
    have hone := hall e.index m _ hm hu
    have hone' := hall' e.index m' _ hm' hu
    exact ⟨fun hx => hone'.unique hx ▸ hone, fun hx => hone.unique hx ▸ hone'⟩

end Arena

namespace Store

variable {s s' : Store} {old new : NodeId} {root : GraphId} {P : NodeId → Prop}

theorem refitted_setEdges {es : List Edge} (hnodup : es.Nodup)
    (hslot : ∀ e ∈ es, s.arena.slot? e = some old) (ho : s.arena.owner? new = s.arena.owner? old) :
    s.arena.Refitted (s.setEdges new es).1.arena := by
  induction es generalizing s with
  | nil => exact .refl s.arena
  | cons e es ih =>
    obtain ⟨hnot, hnodup⟩ := List.nodup_cons.mp hnodup
    unfold setEdges
    split
    · next s₁ hok =>
      have harena := arena_setEdge hok
      have hone : s.arena.Refitted s₁.arena :=
        harena ▸ Arena.refitted_setSlot (hslot e List.mem_cons_self) (Or.inl ho)
      refine hone.trans (ih hnodup (fun e' he' => ?_) (by simpa [harena] using ho))
      rw [harena, Arena.slot?_setSlot_of_ne new (ne_of_mem_of_not_mem he' hnot)]
      exact hslot e' (List.mem_cons_of_mem e he')
    · exact .refl s.arena

theorem MergeSteps.refitted (h : MergeSteps P s s') (hr : s.Reachable) :
    s.arena.Refitted s'.arena := by
  induction h with
  | refl => exact .refl s.arena
  | @tail s₁ s₂ hsteps hstep ih =>
    obtain ⟨main, other, -, hm⟩ := hstep
    have hr₁ := MergeSteps.reachable hsteps hr
    refine ih.trans ?_
    rw [hm.result]
    unfold replace
    split
    · exact .refl s₁.arena
    · exact refitted_setEdges (s₁.live.usesOf other).nodup
        (fun e he => (hr₁.settled.mem_usesOf.mp he).2) hm.owner.symm

/-- Merges into members of a set keep its members among themselves. -/
theorem MergeSteps.closed (h : MergeSteps P s s') (hP : ∀ n, P n → ∀ m ∈ s.arena.inputs n, P m) :
    ∀ n, P n → ∀ m ∈ s'.arena.inputs n, P m := by
  induction h with
  | refl => exact hP
  | @tail s₁ s₂ _ hstep ih =>
    obtain ⟨main, other, hmain, hm⟩ := hstep
    have hturned : s₁.arena.TurnedTo s₂.arena main := by
      rw [hm.result]
      unfold replace
      split
      · exact .refl s₁.arena main
      · exact s₁.turnedTo_setEdges main _
    intro n hn m hin
    obtain ⟨i, hi⟩ := Arena.exists_slot?_of_mem hin
    rcases hturned ⟨n, i⟩ with hs | hs
    · exact ih n hn m (Arena.mem_inputs_of_slot? (hs.symm.trans hi))
    · rw [hi, Option.some.injEq] at hs
      exact hs ▸ hmain

variable [Hashable Shape]

theorem refitted_mergeEqual (hr : s.Reachable) (hac : s.arena.Acyclic)
    (hroot : root ∈ s.arena.graphIds) : s.arena.Refitted (s.mergeEqual root).1.arena :=
  (mergeSteps_mergeEqual hr hac hroot).1.refitted (hr.step (.addRoot hroot))

/-- A pass of merging brings nothing under the root. -/
theorem returned_of_mergeEqual {n : NodeId} (hr : s.Reachable) (hac : s.arena.Acyclic)
    (hroot : root ∈ s.arena.graphIds) (hn : (s.mergeEqual root).1.arena.Returned [root] n) :
    s.arena.Returned [root] n := by
  have hfit := refitted_mergeEqual hr hac hroot
  have hclosed := (mergeSteps_mergeEqual hr hac hroot).1.closed
    fun n hn m hin => Arena.Returned.input hn hin
  refine hn.of_closed (G := (· ∈ s.arena.reachable [root])) (fun g hg => ?_)
    (fun g r hg hret => ?_) hclosed fun n g hn hheld => ?_
  · exact List.mem_singleton.mp hg ▸ Arena.mem_reachable_root
  · exact ⟨g, hg, r, hfit.ret?.symm.trans hret, .refl _ r⟩
  · refine hn.mem_reachable ?_
    rw [← hheld, Arena.heldGraph?_congr (hfit.value (hn.mem_nodeIds hr.settled.wellFormed))]

/-- A pass of merging brings no new shapes under the root. -/
theorem noCollision_mergeEqual (hr : s.Reachable) (hac : s.arena.Acyclic)
    (hroot : root ∈ s.arena.graphIds) (hno : s.arena.NoCollision root) :
    (s.mergeEqual root).1.arena.NoCollision root := by
  have hex : s.Unfoldable := fun n hn => hac.exists_unfolds hr.settled.wellFormed hn
  have hm := (merged_mergeEqual hr hex hroot).2
  intro n m u w hn hm' hu hw
  exact hno n m u w (returned_of_mergeEqual hr hac hroot hn)
    (returned_of_mergeEqual hr hac hroot hm') (hm.unfolds_of hex hu) (hm.unfolds_of hex hw)

/-- A pass of merging is a change of the kind that passes make. -/
theorem descends_mergeEqual (hr : s.Reachable) (hac : s.arena.Acyclic)
    (hroot : root ∈ s.arena.graphIds) :
    s.arena.Descends root (s.mergeEqual root).1.arena := by
  have hex : s.Unfoldable := fun n hn => hac.exists_unfolds hr.settled.wellFormed hn
  obtain ⟨-, hm⟩ := merged_mergeEqual hr hex hroot
  refine ⟨refitted_mergeEqual hr hac hroot,
    fun hn _ => returned_of_mergeEqual hr hac hroot hn, fun hu _ => hm.unfolds_of hex hu,
    fun {e m} _ _ hslot => ?_⟩
  · obtain ⟨m', hm', hown⟩ := hm.slots hslot
    refine ⟨m', hm', fun happ => ?_, fun u => ?_⟩
    · rw [hm.isApply, hm.owner]
      exact hown happ
    · exact hm.unfolds_slot (hex _ (Arena.mem_nodeIds_of_slot? hslot)) hslot hm' u

end Store

end Midend
