import Mathlib
import Midend.Proofs.Merge.Absorbed
import Midend.Proofs.Merge.Twins
import Midend.Proofs.Optimize.Quiet
import Midend.Proofs.Store.Closed

/-!
# Merging once

A pass merges into the first members of groups only, and where the first member of a group is not
live it merges nothing of the group. On a closed program whose shapes do not collide there is still
nothing left for a second pass. What a group's members use is settled when the pass comes to the
group, since their inputs are of earlier groups, all of them; and the second pass finds the same
first members.
-/

namespace Midend

namespace Arena

variable {a b : Arena} {n main other : NodeId}

theorem Refitted.mergeable_eq (h : a.Refitted b) (hm : main ∈ a.nodeIds) (ho : other ∈ a.nodeIds)
    (hin : b.inputs main = a.inputs main) (hin' : b.inputs other = a.inputs other) :
    b.mergeable main other = a.mergeable main other := by
  have hkey : ∀ {n}, n ∈ a.nodeIds → b.typeKey? n = a.typeKey? n := fun hn => by
    rw [typeKey?, typeKey?, h.type hn]
  simp only [mergeable, h.kind?_eq hm hin, h.kind?_eq ho hin', hkey hm, hkey ho]

end Arena

namespace Store

open Arena (Orderly)

variable {s s' : Store} {a : Arena} {r : Grouping} {main other n m : NodeId} {j k : Nat}
  {root : GraphId} {c : Config} {key : UInt64 × Option GraphId} {done ms : List NodeId}

/-! ### In the course of a pass -/

/-- What holds of a store after merges within the groups of an arena. -/
structure Course (a : Arena) (r : Grouping) (s : Store) : Prop where
  reachable : s.Reachable
  ret : ∀ g, s.arena.ret? g = a.ret? g
  owner : ∀ n, s.arena.owner? n = a.owner? n
  keys : ∀ n, (s.arena.inputs n).map (r.key? a) = (a.inputs n).map (r.key? a)

theorem Course.step (h : s.Course a r) (hstep : s.MergeStep s' main other)
    (hkey : r.key? a main = r.key? a other) : s'.Course a r := by
  refine ⟨hstep.reachable h.reachable, fun g => (hstep.refitted h.reachable).ret?.trans (h.ret g),
    fun n => ?_, fun n => ?_⟩
  · rw [hstep.result, owner?_replace, h.owner]
  · rw [← h.keys]
    refine List.ext_getElem? fun i => ?_
    have hslot := hstep.slot? h.reachable ⟨n, i⟩
    rw [List.getElem?_map, List.getElem?_map, show (s'.arena.inputs n)[i]? = _ from hslot]
    split
    · next hc =>
      have hold : (s.arena.inputs n)[i]? = some other := hc.2
      rw [hold, Option.map_some, Option.map_some, hkey]
    · rfl

theorem Course.owner_eq (h : s.Course a r) (hn : r.key? a n = some key)
    (hm : r.key? a m = some key) : s.arena.owner? n = s.arena.owner? m := by
  rw [h.owner, h.owner, (Grouping.key?_eq_some_iff.mp hn).2, (Grouping.key?_eq_some_iff.mp hm).2]

theorem course_addRoot (hr : s.Reachable) (hroot : root ∈ s.arena.graphIds) (r : Grouping) :
    (s.addRoot root).Course s.arena r :=
  ⟨hr.step (.addRoot hroot), fun _ => rfl, fun _ => rfl, fun _ => rfl⟩

theorem unmergeable_cons_cons {others : List NodeId} : s.Unmergeable (main :: other :: others) ↔
    s.Unmergeable [main, other] ∧ s.Unmergeable (main :: others) := by
  simp [Unmergeable]

section

variable [Hashable Shape]

/-- The inputs of a node are of earlier groups than the node. -/
theorem Course.rank_lt (h : s.Course a r) (hr : r.Ranked a done) (hn : r.key? a n = some key)
    (hm : m ∈ s.arena.inputs n) : ∃ key', r.key? a m = some key' ∧ r.rank key' < r.rank key := by
  have hmem : r.key? a m ∈ (a.inputs n).map (r.key? a) := h.keys n ▸ List.mem_map_of_mem hm
  obtain ⟨m₀, hm₀, heq⟩ := List.mem_map.mp hmem
  obtain ⟨key', hkey'⟩ := hr.faithful.key_of_input hn hm₀
  exact ⟨key', heq ▸ hkey', hr.rank_lt n m₀ key key' hn hm₀ hkey'⟩

/-- Whether `main` stands for `other`, which is not of one of the first `j` groups. -/
def StandsFrom (a : Arena) (r : Grouping) (j : Nat) (main other : NodeId) : Prop :=
  r.StandsFor main other ∧ ∀ key, r.key? a other = some key → j ≤ r.rank key

theorem Course.run (h : s.Course a r) (hr : r.Ranked a done)
    (hrun : MergeRun (StandsFrom a r j) k s s') : s'.Course a r := by
  induction hrun with
  | refl => exact h
  | head hpair hstep _ ih =>
    obtain ⟨key, hmain, hother⟩ := hpair.1.same_key hr.faithful
    exact ih (h.step hstep (hmain.trans hother.symm))

/-- Merges within later groups change nothing in what the nodes of earlier groups use. -/
theorem Course.inputs_eq (h : s.Course a r) (hr : r.Ranked a done)
    (hrun : MergeRun (StandsFrom a r j) k s s') (hn : r.key? a n = some key)
    (hj : r.rank key ≤ j) : s'.arena.inputs n = s.arena.inputs n := by
  induction hrun with
  | refl => rfl
  | @head _ s s₁ _ main other hpair hstep _ ih =>
    obtain ⟨key', hmain, hother⟩ := hpair.1.same_key hr.faithful
    rw [ih (h.step hstep (hmain.trans hother.symm))]
    refine List.ext_getElem? fun i => (hstep.slot? h.reachable ⟨n, i⟩).trans (if_neg ?_)
    rintro ⟨-, hslot⟩
    obtain ⟨key'', hother', hlt⟩ := h.rank_lt hr hn (Arena.mem_inputs_of_slot? hslot)
    have hle := hpair.2 key'' hother'
    omega

/-- So they leave groups without a merge that had none. -/
theorem Course.unmergeable (h : s.Course a r) (hr : r.Ranked a done)
    (hrun : MergeRun (StandsFrom a r j) k s s')
    (hms : ∀ n ∈ ms, ∃ key, r.key? a n = some key ∧ r.rank key ≤ j) (hu : s.Unmergeable ms) :
    s'.Unmergeable ms := by
  cases ms with
  | nil => trivial
  | cons main others =>
    intro other hother hmain hlive
    have hin : ∀ n ∈ main :: others, s'.arena.inputs n = s.arena.inputs n := fun n hn => by
      obtain ⟨key, hkey, hj⟩ := hms n hn
      exact h.inputs_eq hr hrun hkey hj
    have hagrees := h.reachable.settled.agrees
    have hmain' := hrun.nodes_subset h.reachable main hmain
    have hlive' := hrun.nodes_subset h.reachable other hlive
    rw [(hrun.refitted h.reachable).mergeable_eq (hagrees.mem_nodeIds hmain')
      (hagrees.mem_nodeIds hlive') (hin main List.mem_cons_self)
      (hin other (List.mem_cons_of_mem main hother))]
    exact hu other hother hmain' hlive'

/-! ### What a pass leaves of its groups -/

section

variable {others : List NodeId}

/-- Merging members of a group into the first one is a run of merges within this group. -/
theorem Course.exists_run (h : s.Course a r) (hr : r.Faithful a)
    (hgroup : r.groups.get? key = some (main :: ms)) (hothers : ∀ m ∈ others, m ∈ ms) :
    ∃ k, (s.mergeInto main others).2 = .ok k ∧
      MergeRun (StandsFrom a r (r.rank key)) k s (s.mergeInto main others).1 := by
  have hkey : ∀ m ∈ main :: ms, r.key? a m = some key := fun m hm => hr.key_of_mem hgroup hm
  refine mergeRun_mergeInto h.reachable (fun m hm => ⟨⟨key, ms, hgroup, hothers m hm⟩, ?_⟩)
    fun m hm => h.owner_eq (hkey m (List.mem_cons_of_mem main (hothers m hm)))
      (hkey main List.mem_cons_self)
  intro key' hkey'
  rw [hkey m (List.mem_cons_of_mem main (hothers m hm))] at hkey'
  obtain rfl := Option.some.inj hkey'
  exact Nat.le_refl _

/-- None of them can be merged afterwards: those that were merged are not live any more. -/
theorem Course.unmergeable_mergeInto (h : s.Course a r) (hr : r.Ranked a (a.groupOrder root))
    (hno : a.NoCollision root) (ha : a.Orderly) (hgroup : r.groups.get? key = some (main :: ms))
    (hothers : ∀ m ∈ others, m ∈ ms) :
    (s.mergeInto main others).1.Unmergeable (main :: others) := by
  have hmain := hr.faithful.key_of_mem hgroup List.mem_cons_self
  induction others generalizing s with
  | nil => exact fun m hm => absurd hm List.not_mem_nil
  | cons other rest ih =>
    have hother := hothers other List.mem_cons_self
    have hkey := hr.faithful.key_of_mem hgroup (List.mem_cons_of_mem main hother)
    have hrest : ∀ m ∈ rest, m ∈ ms := fun m hm => hothers m (List.mem_cons_of_mem other hm)
    rw [unmergeable_cons_cons]
    unfold mergeInto
    split
    · next hc =>
      have hstands : r.StandsFor main other := ⟨key, ms, hgroup, hother⟩
      have htwin : a.Twin a main other := (hr.faithful.twin_iff hno ha (hr.returned hmain)
        (hr.returned hkey) hmain hkey).mpr rfl
      have hret : ∀ g, s.arena.ret? g ≠ some other := fun g =>
        h.ret g ▸ hstands.not_ret hr.toListed ha htwin g
      have hstep : s.MergeStep (s.replace other main).1 main other :=
        ⟨hc.1, hc.2.1, hc.2.2, h.owner_eq hkey hmain, rfl⟩
      have h₁ := h.step hstep (hmain.trans hkey.symm)
      have hrep : s.replace other main = ((s.replace other main).1, .ok ()) :=
        Prod.ext rfl (h.reachable.settled.replace_eq_ok other main)
      obtain ⟨k, -, hrun⟩ := h₁.exists_run hr.faithful hgroup hrest
      rw [hrep]
      refine ⟨fun m hm _ hlive => ?_, ih h₁ hrest⟩
      obtain rfl := List.mem_singleton.mp hm
      exact absurd (hrun.nodes_subset h₁.reachable m hlive)
        (hstep.not_live h.reachable (hstands.ne hr.toListed) hret)
    · next hc =>
      obtain ⟨k, -, hrun⟩ := h.exists_run hr.faithful hgroup hrest
      refine ⟨h.unmergeable hr hrun (fun n hn => ⟨key, ?_, Nat.le_refl _⟩) ?_, ih h hrest⟩
      · rcases List.mem_cons.mp hn with rfl | hn
        · exact hmain
        · exact List.mem_singleton.mp hn ▸ hkey
      · intro m hm hmlive hlive
        obtain rfl := List.mem_singleton.mp hm
        exact Bool.eq_false_iff.mpr fun hmerge => hc ⟨hmlive, hlive, hmerge⟩

end

/-- After merging groups in order none of them has anything left to be merged. -/
theorem Course.unmergeable_mergeGroups {gs : List (List NodeId)} (h : s.Course a r)
    (hr : r.Ranked a (a.groupOrder root)) (hno : a.NoCollision root) (ha : a.Orderly)
    (hgs : ∀ ms ∈ gs, ∃ key, r.groups.get? key = some ms)
    (hpair : gs.Pairwise fun ms ms' => ∀ n ∈ ms, ∀ m ∈ ms', ∀ key key', r.key? a n = some key →
      r.key? a m = some key' → r.rank key < r.rank key') :
    ∀ ms ∈ gs, (s.mergeGroups gs).1.Unmergeable ms := by
  induction gs generalizing s with
  | nil => exact fun ms hms => absurd hms List.not_mem_nil
  | cons ms rest ih =>
    obtain ⟨hlt, hrestpair⟩ := List.pairwise_cons.mp hpair
    have hrest : ∀ ms ∈ rest, ∃ key, r.groups.get? key = some ms := fun ms' hms =>
      hgs ms' (List.mem_cons_of_mem ms hms)
    cases ms with
    | nil =>
      intro ms hms
      rcases List.mem_cons.mp hms with rfl | hms
      · trivial
      · exact ih h hrest hrestpair ms hms
    | cons main others =>
      obtain ⟨key, hgroup⟩ := hgs _ List.mem_cons_self
      have hkey : ∀ m ∈ main :: others, r.key? a m = some key := fun m hm =>
        hr.faithful.key_of_mem hgroup hm
      obtain ⟨k, hk, hrun⟩ := h.exists_run hr.faithful hgroup fun m hm => hm
      have h₁ := h.run hr hrun
      have hinto : s.mergeInto main others = ((s.mergeInto main others).1, .ok k) :=
        Prod.ext rfl hk
      -- the groups to come are of higher rank
      have hlater : ∀ main' others', main' :: others' ∈ rest → ∀ m ∈ others',
          StandsFrom a r (r.rank key) main' m := fun main' others' hms m hm => by
        obtain ⟨key', hgroup'⟩ := hrest _ hms
        refine ⟨⟨key', others', hgroup', hm⟩, fun key'' hkey'' => Nat.le_of_lt ?_⟩
        exact hlt _ hms main List.mem_cons_self m (List.mem_cons_of_mem main' hm) key key''
          (hkey main List.mem_cons_self) hkey''
      obtain ⟨j, -, hrun'⟩ := mergeRun_mergeGroups h₁.reachable hlater fun ms hms => by
        obtain ⟨key', hgroup'⟩ := hrest ms hms
        exact ⟨key'.2, fun m hm => (h₁.owner m).trans
          (Grouping.key?_eq_some_iff.mp (hr.faithful.key_of_mem hgroup' hm)).2⟩
      rw [mergeGroups, hinto]
      intro ms hms
      rcases List.mem_cons.mp hms with rfl | hms
      · exact h₁.unmergeable hr hrun' (fun m hm => ⟨key, hkey m hm, Nat.le_refl _⟩)
          (h.unmergeable_mergeInto hr hno ha hgroup fun m hm => hm)
      · exact ih h₁ hrest hrestpair ms hms

/-! ### A pass right after a pass -/

/-- A pass right after a pass reports no merge and leaves the store as it is. -/
theorem mergeEqual_mergeEqual (hr : s.Reachable) (ha : s.arena.Orderly)
    (hroot : root ∈ s.arena.graphIds) (hno : s.arena.NoCollision root) :
    (s.mergeEqual root).1.mergeEqual root = ((s.mergeEqual root).1, .ok false) := by
  obtain ⟨r, k, hall, hlisted, heq, hrun⟩ := exists_mergeRun hr ha hroot
  have hranked := hno.ranked ha hall
  have hr₀ := hr.step (.addRoot hroot)
  have hb := orderly_mergeEqual hr ha hroot
  have hab := (merged_mergeEqual hr (fun n hn => ha.exists_unfolds hn) hroot).2
  -- the first pass leaves its own groups without a merge
  have hspent : ∀ key ms, r.groups.get? key = some ms →
      (s.mergeEqual root).1.Unmergeable ms := fun key ms hms => by
    rw [heq]
    exact (course_addRoot hr hroot r).unmergeable_mergeGroups hranked hno ha
      (fun ms hms => OrderedMap.mem_map_snd_iff.mp hms) hlisted.pairwise ms
      (OrderedMap.mem_map_snd_iff.mpr ⟨key, hms⟩)
  have hself : (s.mergeEqual root).1.addRoot root = (s.mergeEqual root).1 := by
    have hmem : root ∈ (s.mergeEqual root).1.roots :=
      hrun.roots ▸ OrderedSet.mem_insert.mpr (Or.inl rfl)
    exact addRoot_eq_self hmem ((hrun.reachable hr₀).settled.roots_live root hmem)
  obtain ⟨r', hall', hlisted'⟩ := hb.exists_listed root
  refine mergeEqual_eq_false_iff.mpr
    ⟨hself.symm, _, Arena.groups_of_addAll hall', fun ms hms => ?_⟩
  rw [List.map_map] at hms
  obtain ⟨key', hgroup⟩ := OrderedMap.mem_map_snd_iff.mp hms
  rw [hself]
  cases ms with
  | nil => trivial
  | cons main others =>
    have hnob := noCollision_mergeEqual hr ha.acyclic hroot hno
    obtain ⟨key, ms, hms, hsub⟩ := hlisted.exists_group hlisted' hno hnob ha hb hab
      (fun n hn => returned_of_mergeEqual hr ha.acyclic hroot hn)
      (fun key n ms hms e he => hrun.slot? hr₀ he fun main => hlisted.not_standsFor_head hms)
      hgroup
    exact fun m hm => hspent key _ hms m (hsub m hm)

theorem runRound_merge {merged : Bool} (hps : c.passes = [.merge])
    (hok : s.mergeEqual root = (s', .ok merged)) :
    s.runRound c root c.passes = (s', .ok [(.merge, merged && c.reports .merge)]) := by
  simp [hps, runRound, runPass, hok, Except.map]

theorem runRounds_of_quiet {round : Round} (hround : s.runRound c root c.passes = (s', .ok round))
    (hquiet : round.any Prod.snd = false) (more : Nat) :
    s.runRounds c root more = (s', .ok ⟨[round], true⟩) := by
  cases more <;> simp [runRounds, hround, hquiet]

/-- On a closed program one pass of merging is enough, if no two shapes have the same hash: a pass
right after it reports no merge and leaves the store as it is. So merging alone converges within two
rounds, if so many are allowed. -/
theorem merge_once_converges (hr : s.Reachable) (hac : s.arena.Acyclic)
    (hclosed : s.arena.Closed) (hroot : root ∈ s.arena.graphIds)
    (hno : s.arena.NoCollision root) : ∃ s' merged,
      s.mergeEqual root = (s', .ok merged) ∧ s'.mergeEqual root = (s', .ok false) ∧
      ∀ c : Config, c.passes = [.merge] → 2 ≤ c.maxRounds → ∃ report,
        s.optimize c root = (s', .ok report) ∧ report.converged = true ∧
        report.rounds.length ≤ 2 := by
  obtain ⟨merged, hmerged⟩ := (mergeSteps_mergeEqual hr hac hroot).2
  have hfirst : s.mergeEqual root = ((s.mergeEqual root).1, .ok merged) := Prod.ext rfl hmerged
  have hagain := mergeEqual_mergeEqual hr (hr.orderly hac hclosed) hroot hno
  refine ⟨_, merged, hfirst, hagain, fun c hps hmax => ?_⟩
  have hround := runRound_merge hps hfirst
  have hround' := runRound_merge hps hagain
  cases hchanged : merged && c.reports .merge with
  | false =>
    rw [hchanged] at hround
    exact ⟨_, runRounds_of_quiet hround rfl _, rfl, Nat.le_succ _⟩
  | true =>
    rw [hchanged] at hround
    obtain ⟨more, hmore⟩ : ∃ more, c.maxRounds - 1 = more + 1 := ⟨c.maxRounds - 2, by omega⟩
    refine ⟨⟨[[(.merge, true)], [(.merge, false)]], true⟩, ?_, rfl, Nat.le_refl _⟩
    simp [optimize, hmore, runRounds, hround, runRounds_of_quiet hround' rfl more, Except.map]

end

/-- Two equal sums are merged once. -/
theorem merge_once_converges_twinSums :
    (twinSums.mergeEqual ⟨0⟩).2 = .ok true ∧
    (twinSums.optimize { passes := [.merge], maxRounds := 2 } ⟨0⟩).2 =
      .ok ⟨[[(.merge, true)], [(.merge, false)]], true⟩ ∧
    ∃ s' merged, twinSums.mergeEqual ⟨0⟩ = (s', .ok merged) ∧
      s'.mergeEqual ⟨0⟩ = (s', .ok false) ∧
      ∀ c : Config, c.passes = [.merge] → 2 ≤ c.maxRounds → ∃ report,
        twinSums.optimize c ⟨0⟩ = (s', .ok report) ∧ report.converged = true ∧
        report.rounds.length ≤ 2 := by
  have hr := reachedAcyclic_twinSums
  have hclosed : twinSums.arena.Closed := of_decide_eq_true (by cbv)
  have hno : twinSums.arena.NoCollision ⟨0⟩ :=
    Arena.noCollision_of_distinguishes hr.acyclic (by cbv)
  exact ⟨by cbv, by cbv, merge_once_converges hr.reachable hr.acyclic hclosed (by decide) hno⟩

end Store

end Midend
