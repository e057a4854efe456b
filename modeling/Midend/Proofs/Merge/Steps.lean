import Mathlib
import Midend.Proofs.Merge.Classes
import Midend.Proofs.Merge.Sound
import Midend.Proofs.Store.Liveness

/-!
# Merges in a row

A pass of merging makes a root and then merges one live node after the other into an equal one of
the same owner. Where the inputs form no cycle it succeeds and passes through no cycle.
-/

namespace Midend

namespace Arena

variable {a : Arena} {n m : NodeId} {u : Unfolding}

/-- What lies strictly under a node unfolds to a smaller tree. -/
theorem Unfolds.smaller (h : a.Unfolds n u) (hnm : Relation.TransGen a.Uses n m) :
    ∃ w, a.Unfolds m w ∧ sizeOf w < sizeOf u := by
  have hstep : ∀ {k j v}, a.Unfolds k v → a.Uses k j →
      ∃ w, a.Unfolds j w ∧ sizeOf w < sizeOf v := by
    intro k j v hk hj
    have hkind := kind?_of_mem_inputs hj
    cases hk with
    | constant hk' => simp [hkind] at hk'
    | parameter hk' => simp [hkind] at hk'
    | @apply _ inputs us hk' hlen hall =>
      obtain ⟨i, hi, rfl⟩ := List.mem_iff_getElem.mp hj
      obtain rfl : inputs = a.inputs k := (inputs_of_kind? hk').symm
      have hi' : i < us.length := hlen ▸ hi
      refine ⟨us[i], hall i _ _ (List.getElem?_eq_getElem hi) (List.getElem?_eq_getElem hi'), ?_⟩
      have hsize := List.sizeOf_lt_of_mem (List.getElem_mem hi')
      simp only [Unfolding.apply.sizeOf_spec]
      omega
  induction hnm with
  | single hj => exact hstep h hj
  | tail _ hj ih =>
    obtain ⟨w, hw, hlt⟩ := ih
    obtain ⟨w', hw', hlt'⟩ := hstep hw hj
    exact ⟨w', hw', Nat.lt_trans hlt' hlt⟩

theorem acyclic_of_unfolds (h : ∀ n ∈ a.nodeIds, ∃ u, a.Unfolds n u) : a.Acyclic := by
  intro n hn
  obtain ⟨m, hm, -⟩ := Relation.TransGen.head'_iff.mp hn
  obtain ⟨u, hu⟩ := h n (mem_nodeIds_of_mem_inputs hm)
  obtain ⟨w, hw, hlt⟩ := hu.smaller hn
  rw [hu.unique hw] at hlt
  exact Nat.lt_irrefl _ hlt

end Arena

namespace Store

variable {s s' : Store} {main old new : NodeId} {root : GraphId} {P : NodeId → Prop}

theorem owner?_setEdges (s : Store) (new : NodeId) (es : List Edge) (n : NodeId) :
    (s.setEdges new es).1.arena.owner? n = s.arena.owner? n := by
  induction es generalizing s with
  | nil => rfl
  | cons e es ih =>
    unfold setEdges
    split
    · next s' hok => rw [ih, arena_setEdge hok, Arena.owner?_setSlot]
    · rfl

theorem owner?_replace (s : Store) (old new n : NodeId) :
    (s.replace old new).1.arena.owner? n = s.arena.owner? n := by
  unfold replace
  split
  · rfl
  · exact owner?_setEdges s new _ n

/-! ### One merge -/

/-- A live node goes over to an equal live node of the same owner. -/
structure MergeStep (s s' : Store) (main other : NodeId) : Prop where
  main_live : main ∈ s.live.nodes
  other_live : other ∈ s.live.nodes
  mergeable : s.arena.mergeable main other = true
  owner : s.arena.owner? other = s.arena.owner? main
  result : s' = (s.replace other main).1

/-- Nodes go over to equal ones, one after the other; `P` holds of those that stand for others. -/
def MergeSteps (P : NodeId → Prop) (s s' : Store) : Prop :=
  Relation.ReflTransGen (fun s s' => ∃ main other, P main ∧ s.MergeStep s' main other) s s'

/-- So many merges in a row; `R` relates those that stand for others to these. -/
inductive MergeRun (R : NodeId → NodeId → Prop) : Nat → Store → Store → Prop
  | refl (s : Store) : MergeRun R 0 s s
  | head {k : Nat} {s s₁ s' : Store} {main other : NodeId} : R main other →
      s.MergeStep s₁ main other → MergeRun R k s₁ s' → MergeRun R (k + 1) s s'

section

variable {R : NodeId → NodeId → Prop} {k j : Nat}

theorem MergeRun.trans {s₁ : Store} (h : MergeRun R k s s₁) (h' : MergeRun R j s₁ s') :
    MergeRun R (k + j) s s' := by
  induction h with
  | refl => rwa [Nat.zero_add]
  | @head k _ _ _ _ _ hR hstep _ ih =>
    rw [Nat.add_right_comm]
    exact .head hR hstep (ih h')

theorem MergeRun.steps (h : MergeRun R k s s') (hP : ∀ main other, R main other → P main) :
    MergeSteps P s s' := by
  induction h with
  | refl => exact Relation.ReflTransGen.refl
  | head hR hstep _ ih => exact Relation.ReflTransGen.head ⟨_, _, hP _ _ hR, hstep⟩ ih

/-- Merging a list into a node is a run of as many merges as are counted. -/
theorem mergeRun_mergeInto {others : List NodeId} (hr : s.Reachable)
    (hR : ∀ other ∈ others, R main other)
    (hown : ∀ other ∈ others, s.arena.owner? other = s.arena.owner? main) :
    ∃ k, (s.mergeInto main others).2 = .ok k ∧ MergeRun R k s (s.mergeInto main others).1 := by
  induction others generalizing s with
  | nil => exact ⟨0, rfl, .refl s⟩
  | cons other rest ih =>
    have hRrest : ∀ m ∈ rest, R main m := fun m hm => hR m (List.mem_cons_of_mem other hm)
    have hrest : ∀ m ∈ rest, s.arena.owner? m = s.arena.owner? main := fun m hm =>
      hown m (List.mem_cons_of_mem other hm)
    unfold mergeInto
    split
    · next hc =>
      have hmain := hr.settled.agrees.mem_nodeIds hc.1
      have hrep : s.replace other main = ((s.replace other main).1, .ok ()) :=
        Prod.ext rfl (hr.settled.replace_eq_ok other main)
      obtain ⟨k, hk, hrun⟩ := ih (s := (s.replace other main).1) (hr.replace hmain) hRrest
        fun m hm => by rw [owner?_replace, owner?_replace, hrest m hm]
      rw [hrep]
      refine ⟨k + 1, by simp [hk, Except.map], .head (hR other List.mem_cons_self) ?_ hrun⟩
      exact ⟨hc.1, hc.2.1, hc.2.2, hown other List.mem_cons_self, rfl⟩
    · exact ih hr hRrest hrest

end

theorem MergeSteps.reachable (h : MergeSteps P s s') (hr : s.Reachable) : s'.Reachable := by
  induction h with
  | refl => exact hr
  | tail _ hstep ih =>
    obtain ⟨main, other, -, hm⟩ := hstep
    exact hm.result ▸ ih.replace (ih.settled.agrees.mem_nodeIds hm.main_live)

theorem MergeSteps.owner (h : MergeSteps P s s') (n : NodeId) :
    s'.arena.owner? n = s.arena.owner? n := by
  induction h with
  | refl => rfl
  | tail _ hstep ih =>
    obtain ⟨main, other, -, hm⟩ := hstep
    rw [hm.result, owner?_replace, ih]

/-- Merging groups is a run of merges of later members into the first ones. -/
theorem mergeRun_mergeGroups {R : NodeId → NodeId → Prop} {gs : List (List NodeId)}
    (hr : s.Reachable) (hR : ∀ main others, main :: others ∈ gs → ∀ other ∈ others, R main other)
    (hown : ∀ ms ∈ gs, ∃ o, ∀ m ∈ ms, s.arena.owner? m = o) :
    ∃ k, (s.mergeGroups gs).2 = .ok k ∧ MergeRun R k s (s.mergeGroups gs).1 := by
  induction gs generalizing s with
  | nil => exact ⟨0, rfl, .refl s⟩
  | cons ms rest ih =>
    have hrest : ∀ ms ∈ rest, ∃ o, ∀ m ∈ ms, s.arena.owner? m = o := fun ms' hms =>
      hown ms' (List.mem_cons_of_mem ms hms)
    have hRrest : ∀ main others, main :: others ∈ rest → ∀ other ∈ others, R main other :=
      fun main others hms => hR main others (List.mem_cons_of_mem ms hms)
    cases ms with
    | nil => exact ih hr hRrest hrest
    | cons main others =>
      obtain ⟨o, ho⟩ := hown (main :: others) List.mem_cons_self
      obtain ⟨k, hk, hrun⟩ := mergeRun_mergeInto hr (hR main others List.mem_cons_self)
        fun m hm => (ho m (List.mem_cons_of_mem main hm)).trans (ho main List.mem_cons_self).symm
      have hsteps : MergeSteps (fun _ => True) s (s.mergeInto main others).1 :=
        hrun.steps fun _ _ _ => trivial
      have hinto : s.mergeInto main others = ((s.mergeInto main others).1, .ok k) :=
        Prod.ext rfl hk
      obtain ⟨j, hj, hrun'⟩ := ih (hsteps.reachable hr) hRrest fun ms' hms => by
        obtain ⟨o', ho'⟩ := hrest ms' hms
        exact ⟨o', fun m hm => (hsteps.owner m).trans (ho' m hm)⟩
      rw [mergeGroups, hinto]
      exact ⟨k + j, by simp [hj, Except.map], hrun.trans hrun'⟩

theorem mergeSteps_mergeGroups {gs : List (List NodeId)} (hr : s.Reachable)
    (hP : ∀ ms ∈ gs, ∀ m ∈ ms, P m) (hown : ∀ ms ∈ gs, ∃ o, ∀ m ∈ ms, s.arena.owner? m = o) :
    MergeSteps P s (s.mergeGroups gs).1 ∧ ∃ k, (s.mergeGroups gs).2 = .ok k := by
  obtain ⟨k, hk, hrun⟩ := mergeRun_mergeGroups (R := fun main _ => P main) hr
    (fun main others hms _ _ => hP _ hms main List.mem_cons_self) hown
  exact ⟨hrun.steps fun _ _ hmain => hmain, k, hk⟩

theorem MergeStep.merged {other : NodeId} (h : s.MergeStep s' main other) (hr : s.Reachable)
    (hex : s.Unfoldable) : s.arena.Merged s'.arena := by
  have hmain := hex main (hr.settled.agrees.mem_nodeIds h.main_live)
  exact h.result ▸ merged_replace hr (Arena.alike_of_mergeable h.mergeable hmain h.owner)

theorem MergeSteps.stepsAcyclic (h : MergeSteps P s s') (hr : s.Reachable) (hac : s.arena.Acyclic) :
    s.StepsAcyclic s' := by
  induction h with
  | refl => exact Relation.ReflTransGen.refl
  | @tail s₁ s₂ hsteps hstep ih =>
    obtain ⟨main, other, -, hm⟩ := hstep
    have hr₁ := MergeSteps.reachable hsteps hr
    have hac₁ : s₁.arena.Acyclic := ih.acyclic hac
    have hex : s₁.Unfoldable := fun n hn => hac₁.exists_unfolds hr₁.settled.wellFormed hn
    -- what unfolded before still does, and nothing on a cycle unfolds
    have hac₂ : s₂.arena.Acyclic := Arena.acyclic_of_unfolds (hex.merged (hm.merged hr₁ hex))
    have hagrees := hr₁.settled.agrees
    have hperform := stepsAcyclic_perform (c := .replace other main) hac₁
      ⟨hagrees.mem_nodeIds hm.other_live, hagrees.mem_nodeIds hm.main_live⟩ (hm.result ▸ hac₂)
    exact ih.trans (hm.result ▸ hperform)

/-! ### A whole pass -/

section

variable [Hashable Shape]

theorem mergeEqual_of_addAll {r : Grouping}
    (hall : Grouping.empty.addAll s.arena (s.arena.groupOrder root) = .ok r) :
    s.mergeEqual root = (((s.addRoot root).mergeGroups (r.groups.entries.map Prod.snd)).1,
      ((s.addRoot root).mergeGroups (r.groups.entries.map Prod.snd)).2.map
        fun k => decide (0 < k)) := by
  have hgroups : (s.addRoot root).arena.groups root = _ := Arena.groups_of_addAll hall
  simp only [mergeEqual, groupNodes, hgroups, List.map_map]
  rfl

/-- Where the inputs form no cycle a pass merges the groups of a faithful grouping. -/
theorem mergeEqual_eq (s : Store) (root : GraphId) (hac : s.arena.Acyclic) :
    ∃ r : Grouping, r.Faithful s.arena ∧
      (∀ n, (∃ c, r.classes.get? n = some c) ↔ s.arena.Returned [root] n) ∧
      s.mergeEqual root = (((s.addRoot root).mergeGroups (r.groups.entries.map Prod.snd)).1,
        ((s.addRoot root).mergeGroups (r.groups.entries.map Prod.snd)).2.map
          fun k => decide (0 < k)) := by
  obtain ⟨r, hall, hfaithful, hclassed⟩ :=
    Arena.exists_faithful (hac.inputsFirst_groupOrder root)
  exact ⟨r, hfaithful, hclassed, mergeEqual_of_addAll hall⟩

/-- Where the inputs form no cycle a pass of merging succeeds, and merges only into what a return
node that the root reaches is over. -/
theorem mergeSteps_mergeEqual (hr : s.Reachable) (hac : s.arena.Acyclic)
    (hroot : root ∈ s.arena.graphIds) :
    MergeSteps (s.arena.Returned [root]) (s.addRoot root) (s.mergeEqual root).1 ∧
      ∃ merged, (s.mergeEqual root).2 = .ok merged := by
  obtain ⟨r, hfaithful, hclassed, heq⟩ := s.mergeEqual_eq root hac
  have hmembers : ∀ ms ∈ r.groups.entries.map Prod.snd, ∃ o, ∀ m ∈ ms,
      (∃ c, r.classes.get? m = some c) ∧ s.arena.owner? m = o := by
    intro ms hms
    obtain ⟨⟨c, o⟩, hgroup⟩ := OrderedMap.mem_map_snd_iff.mp hms
    have hall := hfaithful.members c o ms hgroup
    exact ⟨o, fun m hm => ⟨⟨c, (hall m hm).1⟩, (hall m hm).2⟩⟩
  have hP : ∀ ms ∈ r.groups.entries.map Prod.snd, ∀ m ∈ ms, s.arena.Returned [root] m := by
    intro ms hms m hm
    obtain ⟨o, hall⟩ := hmembers ms hms
    exact (hclassed m).mp (hall m hm).1
  have hown : ∀ ms ∈ r.groups.entries.map Prod.snd, ∃ o, ∀ m ∈ ms,
      (s.addRoot root).arena.owner? m = o := by
    intro ms hms
    obtain ⟨o, hall⟩ := hmembers ms hms
    exact ⟨o, fun m hm => (hall m hm).2⟩
  obtain ⟨hsteps, k, hk⟩ := mergeSteps_mergeGroups (hr.step (.addRoot hroot)) hP hown
  rw [heq]
  exact ⟨hsteps, decide (0 < k), by simp [hk, Except.map]⟩

theorem stepsAcyclic_mergeEqual (hr : s.Reachable) (hac : s.arena.Acyclic)
    (hroot : root ∈ s.arena.graphIds) : s.StepsAcyclic (s.mergeEqual root).1 := by
  have hone : s.StepsAcyclic (s.addRoot root) := .single (.addRoot hroot) hac
  exact hone.trans ((mergeSteps_mergeEqual hr hac hroot).1.stepsAcyclic
    (hr.step (.addRoot hroot)) hac)

end

/-! ### A pass without a merge -/

/-- Whether a list of nodes has no live member that could be merged into its live first one. -/
def Unmergeable (s : Store) : List NodeId → Prop
  | [] => True
  | main :: others => ∀ other ∈ others, main ∈ s.live.nodes → other ∈ s.live.nodes →
      s.arena.mergeable main other = false

theorem mergeInto_eq_zero {others : List NodeId} (h : s.mergeInto main others = (s', .ok 0)) :
    s' = s ∧ s.Unmergeable (main :: others) := by
  induction others with
  | nil => exact ⟨(Prod.mk.inj h).1.symm, fun other ho => absurd ho List.not_mem_nil⟩
  | cons other rest ih =>
    unfold mergeInto at h
    split at h
    · next hc =>
      split at h
      · next s₁ f hrep => simp at h
      · next s₁ hrep =>
        cases hr : (s₁.mergeInto main rest).2 <;> simp [hr, Except.map] at h
    · next hc =>
      obtain ⟨hs, hrest⟩ := ih h
      refine ⟨hs, fun k hk hmain hother => ?_⟩
      rcases List.mem_cons.mp hk with rfl | hk
      · exact Bool.eq_false_iff.mpr fun hm => hc ⟨hmain, hother, hm⟩
      · exact hrest k hk hmain hother

theorem mergeGroups_eq_zero {gs : List (List NodeId)} (h : s.mergeGroups gs = (s', .ok 0)) :
    s' = s ∧ ∀ ms ∈ gs, s.Unmergeable ms := by
  induction gs generalizing s with
  | nil => exact ⟨(Prod.mk.inj h).1.symm, fun ms hms => absurd hms List.not_mem_nil⟩
  | cons ms rest ih =>
    cases ms with
    | nil =>
      obtain ⟨hs, hrest⟩ := ih h
      refine ⟨hs, fun ms hms => ?_⟩
      rcases List.mem_cons.mp hms with rfl | hms
      · trivial
      · exact hrest ms hms
    | cons main others =>
      unfold mergeGroups at h
      split at h
      · simp at h
      · next s₁ k hinto =>
        obtain ⟨j, hj⟩ : ∃ j, (s₁.mergeGroups rest).2 = .ok j := by
          cases hr : (s₁.mergeGroups rest).2 with
          | ok j => exact ⟨j, rfl⟩
          | error f => simp [hr, Except.map] at h
        simp only [hj, Except.map, Prod.mk.injEq, Except.ok.injEq, Nat.add_eq_zero_iff] at h
        obtain ⟨hs, rfl, rfl⟩ := h
        obtain ⟨rfl, hmain⟩ := mergeInto_eq_zero hinto
        obtain ⟨hs', hrest⟩ := ih (Prod.ext hs hj)
        refine ⟨hs', fun ms hms => ?_⟩
        rcases List.mem_cons.mp hms with rfl | hms
        · exact hmain
        · exact hrest ms hms

/-- A pass that reports no merge changes nothing but the roots, and its groups had nothing to
merge. -/
theorem mergeEqual_eq_false [Hashable Shape] (hac : s.arena.Acyclic)
    (h : s.mergeEqual root = (s', .ok false)) : s' = s.addRoot root ∧ ∃ r : Grouping, r.Faithful s.arena ∧
      (∀ n, (∃ c, r.classes.get? n = some c) ↔ s.arena.Returned [root] n) ∧
      ∀ key ms, r.groups.get? key = some ms → (s.addRoot root).Unmergeable ms := by
  obtain ⟨r, hfaithful, hclassed, heq⟩ := s.mergeEqual_eq root hac
  obtain ⟨hs, hfalse⟩ := Prod.mk.inj (heq.symm.trans h)
  obtain ⟨k, hk⟩ :
      ∃ k, ((s.addRoot root).mergeGroups (r.groups.entries.map Prod.snd)).2 = .ok k := by
    cases hm : ((s.addRoot root).mergeGroups (r.groups.entries.map Prod.snd)).2 with
    | ok k => exact ⟨k, rfl⟩
    | error f => simp [hm, Except.map] at hfalse
  obtain rfl : k = 0 := by simpa [hk, Except.map] using hfalse
  obtain ⟨hs', hall⟩ := mergeGroups_eq_zero (Prod.ext hs hk)
  refine ⟨hs', r, hfaithful, hclassed, fun key ms hms => ?_⟩
  exact hall ms (OrderedMap.mem_map_snd_iff.mpr ⟨key, hms⟩)

end Store

end Midend
