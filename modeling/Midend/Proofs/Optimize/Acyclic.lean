import Mathlib
import Midend.Optimize
import Midend.Proofs.Demand.Resolved
import Midend.Proofs.Merge.Layers
import Midend.Proofs.Optimize.Converges

/-!
# Passes and cycles of inputs

Merging points a node's users at an equal node, which does not lie over them, and a placeholder has
no inputs; so no pass closes a cycle, also if a later step fails.
-/

namespace Midend

namespace Store

variable {s : Store} {root : GraphId} {c : Config}

/-! ### When merging fails -/

section

variable [Hashable Shape]

/-- Once the nodes are grouped every merge of a pass succeeds. -/
theorem exists_merged_of_groups {gs : List (Option GraphId × List NodeId)} (hr : s.Reachable)
    (hroot : root ∈ s.arena.graphIds) (hg : s.arena.groups root = .ok gs) :
    ∃ merged, (s.mergeEqual root).2 = .ok merged := by
  have hown : ∀ ms ∈ gs.map Prod.snd, ∃ o, ∀ m ∈ ms, (s.addRoot root).arena.owner? m = o := by
    intro ms hms
    obtain ⟨p, hp, rfl⟩ := List.mem_map.mp hms
    exact ⟨p.1, Arena.owner_of_mem_groups hg p hp⟩
  obtain ⟨k, hk, -⟩ := mergeRun_mergeGroups (R := fun _ _ => True) (hr.step (.addRoot hroot))
    (fun _ _ _ _ _ => trivial) hown
  have hg' : (s.addRoot root).arena.groups root = .ok gs := hg
  exact ⟨decide (0 < k), by simp only [mergeEqual, groupNodes, hg', hk, Except.map]⟩

theorem mergeEqual_eq_error_iff {f : Fault} (hr : s.Reachable) (hroot : root ∈ s.arena.graphIds) :
    (s.mergeEqual root).2 = .error f ↔ s.arena.groups root = .error f := by
  cases hg : s.arena.groups root with
  | error f' => simp [mergeEqual_of_error hg]
  | ok gs =>
    obtain ⟨merged, hok⟩ := exists_merged_of_groups hr hroot hg
    simp [hok]

end

/-! ### Passes close no cycle -/

/-- What a pass over `root` needs of a store, and leaves it with. -/
structure Passable (root : GraphId) (s : Store) : Prop where
  reachable : s.Reachable
  acyclic : s.arena.Acyclic
  root_mem : root ∈ s.arena.graphIds

theorem Passable.cutDead (h : s.Passable root) : (s.cutDead root).1.Passable root := by
  have hkeep := h.reachable.keepRoot h.root_mem
  cases hdead : (s.keepRoots [root]).deadEdges root with
  | error f =>
    rw [cutDead_of_error hdead]
    exact ⟨hkeep, h.acyclic, h.root_mem⟩
  | ok dead =>
    -- once the dead slots are known every one of them can be cut
    obtain ⟨k, hk⟩ := (s.keepRoots [root]).exists_cutGraphs dead
    have hok : s.cutDead root = ((s.cutDead root).1, .ok k) := by
      refine Prod.ext rfl ?_
      simp only [Store.cutDead, hdead]
      exact hk
    obtain ⟨ds, -, hr', hcut, -⟩ := cutDead_spec h.reachable h.acyclic h.root_mem hok
    have hfit := s.refitted_cutDead root
    exact ⟨hr', Arena.CutTo.acyclic hcut.arena hfit h.acyclic, hfit.graphIds ▸ h.root_mem⟩

section

variable [Hashable Shape]

theorem Passable.mergeEqual (h : s.Passable root) : (s.mergeEqual root).1.Passable root := by
  have hsteps := stepsAcyclic_mergeEqual h.reachable h.acyclic h.root_mem
  have hfit := refitted_mergeEqual h.reachable h.acyclic h.root_mem
  exact ⟨hsteps.reachable h.reachable, hsteps.acyclic h.acyclic, hfit.graphIds ▸ h.root_mem⟩

theorem Passable.runPass (h : s.Passable root) (c : Config) (p : Pass) :
    (s.runPass c root p).1.Passable root := by
  cases p with
  | merge => exact h.mergeEqual
  | cut => exact h.cutDead

theorem Passable.runRound (h : s.Passable root) (ps : List Pass) :
    (s.runRound c root ps).1.Passable root := by
  induction ps generalizing s with
  | nil => exact h
  | cons p ps ih =>
    have hone := h.runPass c p
    unfold Store.runRound
    split
    · next s₁ f hpass => exact (hpass ▸ hone :)
    · next s₁ changed hpass => exact ih (hpass ▸ hone :)

theorem Passable.runRounds (h : s.Passable root) (more : Nat) :
    (s.runRounds c root more).1.Passable root := by
  induction more generalizing s with
  | zero =>
    have hone := h.runRound (c := c) c.passes
    unfold Store.runRounds
    split
    · next s₁ f hround => exact (hround ▸ hone :)
    · next s₁ round hround => exact (hround ▸ hone :)
  | succ more ih =>
    have hone := h.runRound (c := c) c.passes
    unfold Store.runRounds
    split
    · next s₁ f hround => exact (hround ▸ hone :)
    · next s₁ round hround =>
      have hnext : s₁.Passable root := (hround ▸ hone :)
      split
      · exact ih hnext
      · exact hnext

/-- Grouping and merging fail exactly if a node under the return node of a graph that the root leads
to lies on a cycle of inputs, and then the arena is as it was. Where the inputs form no cycle, they
form none after a pass of merging, a pass of cuts, or a run of rounds, however these end. -/
theorem merge_fails_iff_cycle (hr : s.Reachable) (hroot : root ∈ s.arena.graphIds) :
    ((∃ f, (s.groupNodes root).2 = .error f) ↔
      ∃ n, s.arena.Returned [root] n ∧ Relation.TransGen s.arena.Uses n n) ∧
    ((∃ f, (s.mergeEqual root).2 = .error f) ↔
      ∃ n, s.arena.Returned [root] n ∧ Relation.TransGen s.arena.Uses n n) ∧
    (∀ f, (s.groupNodes root).2 = .error f ∨ (s.mergeEqual root).2 = .error f →
      (s.groupNodes root).1.arena = s.arena ∧ (s.mergeEqual root).1.arena = s.arena) ∧
    (s.arena.Acyclic → (s.mergeEqual root).1.arena.Acyclic ∧ (s.cutDead root).1.arena.Acyclic ∧
      ∀ c, (s.optimize c root).1.arena.Acyclic) := by
  have hmerge : ∀ f, (s.mergeEqual root).2 = .error f ↔ s.arena.groups root = .error f :=
    fun f => mergeEqual_eq_error_iff hr hroot
  refine ⟨Arena.groups_eq_error_iff, (exists_congr hmerge).trans Arena.groups_eq_error_iff,
    fun f hf => ⟨rfl, ?_⟩, fun hac => ?_⟩
  · have hgroups : s.arena.groups root = .error f := hf.elim id (hmerge f).mp
    rw [mergeEqual_of_error hgroups]
    rfl
  · have h : s.Passable root := ⟨hr, hac, hroot⟩
    exact ⟨h.mergeEqual.acyclic, h.cutDead.acyclic, fun c => (h.runRounds _).acyclic⟩

end

/-- A sum that adds itself cannot be grouped, and all rounds of passes leave equal sums without a
cycle. -/
theorem merge_fails_iff_cycle_looped :
    (∃ f, (looped.groupNodes ⟨0⟩).2 = .error f) ∧ (∃ f, (looped.mergeEqual ⟨0⟩).2 = .error f) ∧
    (looped.mergeEqual ⟨0⟩).1.arena = looped.arena ∧
    (twinSums.mergeEqual ⟨0⟩).2 = .ok true ∧
    ∀ c, (twinSums.optimize c ⟨0⟩).1.arena.Acyclic := by
  have hlooped : (⟨0⟩ : GraphId) ∈ looped.arena.graphIds := of_decide_eq_true (by cbv)
  obtain ⟨hgroup, hmerge, hsame, -⟩ := merge_fails_iff_cycle called_looped.reachable hlooped
  have htwins := reachedAcyclic_twinSums
  have hmain : (⟨0⟩ : GraphId) ∈ twinSums.arena.graphIds := by decide
  obtain ⟨-, -, -, hpasses⟩ := merge_fails_iff_cycle htwins.reachable hmain
  have hreturns : looped.arena.Returned [⟨0⟩] ⟨2⟩ := by
    refine ⟨⟨0⟩, Arena.mem_reachable_root, ⟨4⟩, by cbv, Arena.under_of_mem_inputs ?_⟩
    exact of_decide_eq_true (by cbv)
  have hcycle : ∃ n, looped.arena.Returned [⟨0⟩] n ∧ Relation.TransGen looped.arena.Uses n n :=
    ⟨⟨2⟩, hreturns, .single (of_decide_eq_true (by cbv) : ⟨2⟩ ∈ looped.arena.inputs ⟨2⟩)⟩
  obtain ⟨f, hf⟩ := hmerge.mpr hcycle
  exact ⟨hgroup.mpr hcycle, ⟨f, hf⟩, (hsame f (Or.inr hf)).2, by cbv,
    (hpasses htwins.acyclic).2.2⟩

end Store

end Midend
