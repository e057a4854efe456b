import Mathlib
import Midend.Proofs.Merge.Ranked
import Midend.Proofs.Optimize.Merging

/-!
# What a merge takes away

The slots of live nodes that hold a merged node go over to the node that stands for it, and nothing
becomes live by that: the merged node keeps a use up to the last of its slots, and until then
nothing is released. A merged node that is no return node is not live any more, so each merge of a
run makes the live nodes fewer by one at least.
-/

namespace Midend

open Live (Agrees)

namespace Live

variable {a : Arena} {l : Live} {n : NodeId}

theorem acquireNode_of_mem (h : n ∈ l.nodes) : l.acquireNode a n = l := by
  rw [acquireNode, acquire, enterNodes, if_pos h, enterNodes]
  simp [acquire]

theorem release_of_used (dropped : Bool) (h : ¬ l.Idle n) :
    l.release a dropped [n] = (l, dropped) := by
  have hpos : 0 < l.useCount n := Nat.pos_of_ne_zero fun hz => h (useCount_eq_zero_iff.mp hz)
  have hnot : l.releasable a n = false := by simp [releasable, hpos]
  rw [release, hnot]
  simp [release]

end Live

namespace Store

variable {s s' : Store} {lax : Prop} {main other old new n : NodeId} {e : Edge} {es : List Edge}
  {k : Nat}

/-! ### One slot after the other -/

/-- A slot that goes over to a live node makes nothing live. -/
theorem live_subset_setEdge (hnew : new ∈ s.live.nodes) (hok : s.setEdge e new = .ok s') :
    (∀ n ∈ s'.live.nodes, n ∈ s.live.nodes) ∧ ∀ g ∈ s'.live.graphs, g ∈ s.live.graphs := by
  obtain ⟨old, -, rfl⟩ := setEdge_eq_ok_iff.mp hok
  split
  · exact ⟨fun n hn => hn, fun g hg => hg⟩
  · have hacq : (s.live.addUse new e).acquireNode (s.arena.setSlot e new) new =
        s.live.addUse new e := Live.acquireNode_of_mem hnew
    have hnodes : ∀ n ∈ (movedUse { s with arena := s.arena.setSlot e new } e old new).1.nodes,
        n ∈ s.live.nodes := fun n hn => by
      rw [movedUse, hacq] at hn
      exact Live.nodes_release_subset (l := (s.live.addUse new e).dropUse old e) hn
    have hgraphs : (movedUse { s with arena := s.arena.setSlot e new } e old new).1.graphs =
        s.live.graphs := by
      rw [movedUse, hacq, Live.graphs_release]
      rfl
    rw [moveUse_eq]
    split
    · refine ⟨fun n hn => hnodes n (Live.nodes_prune_subset hn), fun g hg => ?_⟩
      exact hgraphs ▸ (Live.mem_graphs_prune.mp hg).1
    · exact ⟨hnodes, fun g hg => hgraphs ▸ hg⟩

/-- As long as what stood in the slot is used elsewhere, nothing ceases to be live. -/
theorem nodes_setEdge_of_used {e' : Edge} (hnew : new ∈ s.live.nodes)
    (hok : s.setEdge e new = .ok s') (hslot : s.arena.slot? e = some old)
    (hused : e' ∈ s.live.usesOf old) (hne : e' ≠ e) : s'.live.nodes = s.live.nodes := by
  obtain ⟨old', hslot', rfl⟩ := setEdge_eq_ok_iff.mp hok
  obtain rfl : old = old' := Option.some.inj (hslot.symm.trans hslot')
  split
  · rfl
  · have hacq : (s.live.addUse new e).acquireNode (s.arena.setSlot e new) new =
        s.live.addUse new e := Live.acquireNode_of_mem hnew
    have hbusy : ¬ ((s.live.addUse new e).dropUse old e).Idle old := fun hidle =>
      hidle e' (Live.mem_usesOf_dropUse.mpr ⟨fun h => hne h.2,
        Live.mem_usesOf_addUse.mpr (Or.inr hused)⟩)
    have hmoved : movedUse { s with arena := s.arena.setSlot e new } e old new =
        ((s.live.addUse new e).dropUse old e, false) := by
      rw [movedUse, hacq, Live.release_of_used false hbusy]
    rw [moveUse_eq, hmoved]
    rfl

theorem nodes_setEdges_subset (h : s.Settled True) (hnodup : es.Nodup)
    (hes : ∀ e ∈ es, e ∈ s.live.usesOf old) (hnew : new ∈ s.live.nodes) :
    ∀ n ∈ (s.setEdges new es).1.live.nodes, n ∈ s.live.nodes := by
  induction es generalizing s with
  | nil => exact fun n hn => hn
  | cons e es ih =>
    obtain ⟨hnot, hnodup⟩ := List.nodup_cons.mp hnodup
    unfold setEdges
    split
    · next s₁ hok =>
      obtain ⟨-, hslot⟩ := h.mem_usesOf.mp (hes e List.mem_cons_self)
      cases es with
      | nil => exact (live_subset_setEdge hnew hok).1
      | cons e' es =>
        -- a slot is still to come, so all that was live is live now
        have hnodes := nodes_setEdge_of_used hnew hok hslot
          (hes e' (List.mem_cons_of_mem e List.mem_cons_self))
          (ne_of_mem_of_not_mem List.mem_cons_self hnot)
        have h₁ : s₁.Settled True :=
          h.setEdge (h.agrees.mem_nodeIds hnew) hok (Or.inl trivial)
        have hes₁ : ∀ d ∈ e' :: es, d ∈ s₁.live.usesOf old := fun d hd => by
          obtain ⟨ho, hd'⟩ := h.mem_usesOf.mp (hes d (List.mem_cons_of_mem e hd))
          refine h₁.mem_usesOf.mpr ⟨hnodes ▸ ho, ?_⟩
          rw [arena_setEdge hok, Arena.slot?_setSlot_of_ne new (ne_of_mem_of_not_mem hd hnot), hd']
        exact hnodes ▸ ih h₁ hnodup hes₁ (hnodes ▸ hnew)
    · exact fun n hn => hn

theorem slot?_setEdges (hok : (s.setEdges new es).2 = .ok ()) :
    (s.setEdges new es).1.arena.slot? e = if e ∈ es then some new else s.arena.slot? e := by
  induction es generalizing s with
  | nil => simp [setEdges]
  | cons d es ih =>
    unfold setEdges at hok ⊢
    split at hok
    · next s₁ hset =>
      obtain ⟨old, hold, -⟩ := setEdge_eq_ok_iff.mp hset
      rw [ih hok, arena_setEdge hset]
      by_cases hed : e = d
      · subst hed
        simp [Arena.slot?_setSlot_self new hold]
      · simp [Arena.slot?_setSlot_of_ne new hed, hed]
    · cases hok

/-! ### All slots -/

theorem nodes_replace_subset (h : s.Settled True) (hnew : new ∈ s.live.nodes) :
    ∀ n ∈ (s.replace old new).1.live.nodes, n ∈ s.live.nodes := by
  unfold replace
  split
  · exact fun n hn => hn
  · exact nodes_setEdges_subset h (s.live.usesOf old).nodup (fun e he => he) hnew

theorem slot?_replace (h : s.Settled lax) (old new : NodeId) (e : Edge) :
    (s.replace old new).1.arena.slot? e =
      if e.owner ∈ s.live.nodes ∧ s.arena.slot? e = some old then some new
      else s.arena.slot? e := by
  have hok := h.replace_eq_ok old new
  unfold replace at hok ⊢
  split
  · next heq =>
    subst heq
    split
    · next hc => exact hc.2
    · rfl
  · next hne =>
    rw [if_neg hne] at hok
    simp only [slot?_setEdges hok, ← OrderedSet.mem_def, h.mem_usesOf]

theorem roots_setEdges (s : Store) (new : NodeId) (es : List Edge) :
    (s.setEdges new es).1.roots = s.roots := by
  induction es generalizing s with
  | nil => rfl
  | cons e es ih =>
    unfold setEdges
    split
    · next s₁ hok => exact (ih s₁).trans (roots_setEdge hok)
    · rfl

theorem roots_replace (s : Store) (old new : NodeId) :
    (s.replace old new).1.roots = s.roots := by
  unfold replace
  split
  · rfl
  · exact s.roots_setEdges new _

/-! ### One merge -/

theorem MergeStep.reachable (h : s.MergeStep s' main other) (hr : s.Reachable) : s'.Reachable :=
  h.result ▸ hr.replace (hr.settled.agrees.mem_nodeIds h.main_live)

theorem MergeStep.nodes_subset (h : s.MergeStep s' main other) (hr : s.Reachable) :
    ∀ n ∈ s'.live.nodes, n ∈ s.live.nodes :=
  h.result ▸ nodes_replace_subset hr.settled h.main_live

theorem MergeStep.slot? (h : s.MergeStep s' main other) (hr : s.Reachable) (e : Edge) :
    s'.arena.slot? e = if e.owner ∈ s.live.nodes ∧ s.arena.slot? e = some other then some main
      else s.arena.slot? e :=
  h.result ▸ slot?_replace hr.settled other main e

theorem MergeStep.refitted (h : s.MergeStep s' main other) (hr : s.Reachable) :
    s.arena.Refitted s'.arena :=
  MergeSteps.refitted (P := fun _ => True)
    (Relation.ReflTransGen.single ⟨main, other, trivial, h⟩) hr

/-- A merged node is left without uses, so it is live only if a graph returns it. -/
theorem MergeStep.not_live (h : s.MergeStep s' main other) (hr : s.Reachable)
    (hne : main ≠ other) (hret : ∀ g, s.arena.ret? g ≠ some other) : other ∉ s'.live.nodes := by
  intro hlive
  have hs' := (h.reachable hr).settled
  have hfit := h.refitted hr
  rcases hs'.agrees.kept other (Or.inl hlive) with hused | ⟨g, -, hanch⟩ | hloose
  · obtain ⟨e, he⟩ := Live.not_idle_iff.mp hused
    obtain ⟨ho, hslot⟩ := hs'.mem_usesOf.mp he
    rw [h.slot? hr] at hslot
    split at hslot
    · exact hne (Option.some.inj hslot)
    · next hnot => exact hnot ⟨h.nodes_subset hr _ ho, hslot⟩
  · rcases Arena.mem_anchors.mp hanch with hpar | hg
    · have hmem := (hs'.wellFormed.mem_parameters.mp hpar).1
      have hkind : s'.arena.kind? other = some .parameter := by simpa [Arena.isParameter] using hmem
      have hother := hr.settled.agrees.mem_nodeIds h.other_live
      have hm := h.mergeable
      unfold Arena.mergeable at hm
      split at hm
      · next v w _ hk =>
        have hv := (hfit.value hother).trans (Arena.value?_of_kind? hk)
        simp [Arena.value?, hkind, NodeKind.value?] at hv
      · next xs ys _ hk =>
        have happ := hfit.isApply hother
        simp [Arena.isApply, hkind, hk] at happ
      · cases hm
    · exact hret g (hfit.ret?.symm.trans hg)
  · exact hloose

/-! ### Merges in a row -/

section

variable {R : NodeId → NodeId → Prop}

theorem MergeRun.reachable (h : MergeRun R k s s') (hr : s.Reachable) : s'.Reachable :=
  (h.steps (P := fun _ => True) fun _ _ _ => trivial).reachable hr

theorem MergeRun.refitted (h : MergeRun R k s s') (hr : s.Reachable) :
    s.arena.Refitted s'.arena :=
  (h.steps (P := fun _ => True) fun _ _ _ => trivial).refitted hr

theorem MergeRun.roots (h : MergeRun R k s s') : s'.roots = s.roots := by
  induction h with
  | refl => rfl
  | head _ hstep _ ih => rw [ih, hstep.result, roots_replace]

theorem MergeRun.nodes_subset (h : MergeRun R k s s') (hr : s.Reachable) :
    ∀ n ∈ s'.live.nodes, n ∈ s.live.nodes := by
  induction h with
  | refl => exact fun n hn => hn
  | head _ hstep _ ih =>
    exact fun n hn => hstep.nodes_subset hr n (ih (hstep.reachable hr) n hn)

/-- What is not merged away stays in its slots. -/
theorem MergeRun.slot? (h : MergeRun R k s s') (hr : s.Reachable)
    (hslot : s.arena.slot? e = some n) (hn : ∀ main, ¬ R main n) : s'.arena.slot? e = some n := by
  induction h with
  | refl => exact hslot
  | @head _ _ _ _ _ other hR hstep _ ih =>
    refine ih (hstep.reachable hr) ?_
    rw [hstep.slot? hr, if_neg, hslot]
    rintro ⟨-, hother⟩
    obtain rfl := Option.some.inj (hslot.symm.trans hother)
    exact hn _ hR

theorem MergeRun.mono {R' : NodeId → NodeId → Prop} (h : MergeRun R k s s')
    (hR : ∀ main other, R main other → R' main other) : MergeRun R' k s s' := by
  induction h with
  | refl s => exact .refl s
  | head hone hstep _ ih => exact .head (hR _ _ hone) hstep ih

/-- What goes over in the course of a run computed the same from the start. -/
theorem MergeRun.alike (h : MergeRun R k s s') (hr : s.Reachable) (hex : s.Unfoldable) :
    MergeRun (fun main other => R main other ∧ s.arena.Alike other main) k s s' := by
  induction h with
  | refl s => exact .refl s
  | @head k s s₁ s' main other hone hstep _ ih =>
    have hmerged := hstep.merged hr hex
    have hal := Arena.alike_of_mergeable hstep.mergeable
      (hex main (hr.settled.agrees.mem_nodeIds hstep.main_live)) hstep.owner
    refine .head ⟨hone, hal⟩ hstep ((ih (hstep.reachable hr) (hex.merged hmerged)).mono ?_)
    exact fun main other hboth => ⟨hboth.1, hmerged.alike_of hex hboth.2⟩

/-- With every merge there is one live node less. -/
theorem MergeRun.size_le (h : MergeRun R k s s') (hr : s.Reachable)
    (hR : ∀ main other, R main other →
      main ≠ other ∧ ∀ g, s.arena.ret? g ≠ some other) :
    k + s'.live.nodes.size ≤ s.live.nodes.size := by
  induction h with
  | refl => exact Nat.le_of_eq (Nat.zero_add _)
  | @head k s s₁ _ main other hpair hstep _ ih =>
    have hret : ∀ g, s₁.arena.ret? g = s.arena.ret? g := fun _ => (hstep.refitted hr).ret?
    have hrest := ih (hstep.reachable hr) fun main other hpair => by
      simpa only [hret] using hR main other hpair
    obtain ⟨hne, hother⟩ := hR main other hpair
    have hgone := hstep.not_live hr hne hother
    have hsub : other :: s₁.live.nodes.toList ⊆ s.live.nodes.toList := by
      intro n hn
      rcases List.mem_cons.mp hn with rfl | hn
      · exact hstep.other_live
      · exact hstep.nodes_subset hr n hn
    have hle := (List.subperm_of_subset
      (List.nodup_cons.mpr ⟨hgone, s₁.live.nodes.nodup⟩) hsub).length_le
    simp only [OrderedSet.size, List.length_cons] at hle hrest ⊢
    omega

end

/-! ### A pass of merges -/

variable {root : GraphId}

variable [Hashable Shape]

/-- A pass over a closed program is a run of merges into the first members of its groups. -/
theorem exists_mergeRun (hr : s.Reachable) (ha : s.arena.Orderly)
    (hroot : root ∈ s.arena.graphIds) : ∃ (r : Grouping) (k : Nat),
      Grouping.empty.addAll s.arena (s.arena.groupOrder root) = .ok r ∧
      r.Listed s.arena (s.arena.groupOrder root) ∧
      s.mergeEqual root = (((s.addRoot root).mergeGroups (r.groups.entries.map Prod.snd)).1,
        .ok (decide (0 < k))) ∧
      MergeRun r.StandsFor k (s.addRoot root) (s.mergeEqual root).1 := by
  obtain ⟨r, hall, hlisted⟩ := ha.exists_listed root
  have heq := mergeEqual_of_addAll hall
  have hstands : ∀ main others, main :: others ∈ r.groups.entries.map Prod.snd →
      ∀ other ∈ others, r.StandsFor main other := fun main others hms other hother => by
    obtain ⟨key, hkey⟩ := OrderedMap.mem_map_snd_iff.mp hms
    exact ⟨key, others, hkey, hother⟩
  have hown : ∀ ms ∈ r.groups.entries.map Prod.snd, ∃ o, ∀ m ∈ ms,
      (s.addRoot root).arena.owner? m = o := fun ms hms => by
    obtain ⟨key, hkey⟩ := OrderedMap.mem_map_snd_iff.mp hms
    exact ⟨key.2, fun m hm => (hlisted.faithful.members key.1 key.2 ms hkey m hm).2⟩
  obtain ⟨k, hk, hrun⟩ := mergeRun_mergeGroups (hr.step (.addRoot hroot)) hstands hown
  rw [hk] at heq
  exact ⟨r, k, hall, hlisted, heq, heq ▸ hrun⟩

/-- A pass over a closed program leaves no more nodes live than there were with the root, and fewer
if it reports a merge. -/
theorem size_mergeEqual_le {merged : Bool} (hr : s.Reachable) (ha : s.arena.Orderly)
    (hroot : root ∈ s.arena.graphIds) (hok : s.mergeEqual root = (s', .ok merged)) :
    merged.toNat + s'.live.nodes.size ≤ (s.addRoot root).live.nodes.size := by
  obtain ⟨r, k, -, hlisted, heq, hrun⟩ := exists_mergeRun hr ha hroot
  have hr₀ := hr.step (.addRoot hroot)
  have hsize := (hrun.alike hr₀ fun _ hn => ha.exists_unfolds hn).size_le hr₀
    fun main other ⟨hstands, hal⟩ =>
      ⟨hstands.ne hlisted, hstands.not_ret hlisted ha (hstands.twin hlisted.faithful hal.1)⟩
  rw [hok] at heq hsize
  obtain rfl : merged = decide (0 < k) := Except.ok.inj (Prod.mk.inj heq).2
  refine le_trans (Nat.add_le_add_right ?_ _) hsize
  cases k <;> simp

/-- A pass leaves a closed program without cycles one. -/
theorem orderly_mergeEqual (hr : s.Reachable) (ha : s.arena.Orderly)
    (hroot : root ∈ s.arena.graphIds) : (s.mergeEqual root).1.arena.Orderly :=
  ⟨(stepsAcyclic_mergeEqual hr ha.acyclic hroot).acyclic ha.acyclic,
    (refitted_mergeEqual hr ha.acyclic hroot).owned ha.owned,
    (merged_mergeEqual hr (fun _ hn => ha.exists_unfolds hn) hroot).1.settled.wellFormed⟩

end Store

end Midend
