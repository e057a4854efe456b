import Mathlib
import Midend.Optimize
import Midend.Proofs.Demand.Cuts
import Midend.Proofs.Merge.Steps

/-!
# Quiet rounds

A pass that finds nothing to change still makes the root a root or the only root, and drops what is
not reached any more. A pass run before it in the same round has seen a store with more live nodes,
but this gives it nothing to change later.
-/

namespace Midend

namespace Live

variable {a : Arena} {l : Live} {g : GraphId} {roots : List GraphId}

theorem acquireGraph_of_mem (h : g ∈ l.graphs) : l.acquireGraph a g = l := by
  simp [acquireGraph, acquire, h]

theorem prune_of_reachable (h : ∀ g ∈ l.graphs, g ∈ a.reachable roots) : l.prune a roots = l := by
  have hdead : l.graphs.toList.filter (· ∉ a.reachable roots) = [] :=
    List.filter_eq_nil_iff.mpr fun g hg => by simp [h g hg]
  rw [prune, hdead]
  rfl

end Live

namespace Store

variable {s s' : Store} {root : GraphId} {c : Config} {p q : Pass} {n : NodeId}

/-! ### Roots that are roots already -/

theorem addRoot_eq_self (hroot : root ∈ s.roots) (hlive : root ∈ s.live.graphs) :
    s.addRoot root = s := by
  rw [addRoot, OrderedSet.insert_of_mem hroot, Live.acquireGraph_of_mem hlive]

theorem mem_graphs_addRoot (s : Store) (root : GraphId) : root ∈ (s.addRoot root).live.graphs :=
  Live.mem_graphs_acquire (Or.inr List.mem_cons_self)

theorem addRoot_addRoot (s : Store) (root : GraphId) :
    (s.addRoot root).addRoot root = s.addRoot root :=
  addRoot_eq_self (OrderedSet.mem_insert.mpr (Or.inl rfl)) (s.mem_graphs_addRoot root)

theorem mem_graphs_of_addRoot_eq (h : s.addRoot root = s) : root ∈ s.live.graphs :=
  h ▸ s.mem_graphs_addRoot root

theorem mem_roots_keepRoots (s : Store) (root : GraphId) : root ∈ (s.keepRoots [root]).roots :=
  OrderedSet.mem_ofList.mpr List.mem_cons_self

theorem mem_graphs_keepRoots (s : Store) (root : GraphId) :
    root ∈ (s.keepRoots [root]).live.graphs :=
  Live.mem_graphs_prune.mpr ⟨mem_graphs_acquireGraphs (Or.inl List.mem_cons_self),
    Arena.mem_reachable.mpr ⟨root, s.mem_roots_keepRoots root, Arena.Leads.refl _ root⟩⟩

theorem addRoot_keepRoots (s : Store) (root : GraphId) :
    (s.keepRoots [root]).addRoot root = s.keepRoots [root] :=
  addRoot_eq_self (s.mem_roots_keepRoots root) (s.mem_graphs_keepRoots root)

theorem keepRoots_keepRoots (s : Store) (root : GraphId) :
    (s.keepRoots [root]).keepRoots [root] = s.keepRoots [root] := by
  have hreached : ∀ g ∈ (s.keepRoots [root]).live.graphs,
      g ∈ s.arena.reachable (OrderedSet.ofList [root]).toList := fun g hg =>
    (Live.mem_graphs_prune.mp hg).2
  have hacq : [root].foldl (Live.acquireGraph s.arena) (s.keepRoots [root]).live =
      (s.keepRoots [root]).live := Live.acquireGraph_of_mem (s.mem_graphs_keepRoots root)
  calc (s.keepRoots [root]).keepRoots [root]
      = ⟨s.arena, ([root].foldl (Live.acquireGraph s.arena) (s.keepRoots [root]).live).prune
          s.arena (OrderedSet.ofList [root]).toList, .ofList [root]⟩ := rfl
    _ = ⟨s.arena, (s.keepRoots [root]).live, .ofList [root]⟩ := by
      rw [hacq, Live.prune_of_reachable hreached]
    _ = s.keepRoots [root] := rfl

theorem nodes_keepRoots_subset (hlive : root ∈ s.live.graphs)
    (hn : n ∈ (s.keepRoots [root]).live.nodes) : n ∈ s.live.nodes := by
  have hn' := Live.nodes_prune_subset hn
  rwa [List.foldl_cons, List.foldl_nil, Live.acquireGraph_of_mem hlive] at hn'

theorem graphs_keepRoots_subset {g : GraphId} (hlive : root ∈ s.live.graphs)
    (hg : g ∈ (s.keepRoots [root]).live.graphs) : g ∈ s.live.graphs := by
  have hg' := (Live.mem_graphs_prune.mp hg).1
  rwa [List.foldl_cons, List.foldl_nil, Live.acquireGraph_of_mem hlive] at hg'

/-! ### Merging without effect -/

theorem mergeInto_of_unmergeable {main : NodeId} {others : List NodeId}
    (h : s.Unmergeable (main :: others)) : s.mergeInto main others = (s, .ok 0) := by
  induction others with
  | nil => rfl
  | cons other rest ih =>
    have hnot : ¬ (main ∈ s.live.nodes ∧ other ∈ s.live.nodes ∧
        s.arena.mergeable main other = true) := fun ⟨hmain, hother, hm⟩ => by
      rw [h other List.mem_cons_self hmain hother] at hm
      cases hm
    rw [mergeInto, if_neg hnot, ih fun m hm => h m (List.mem_cons_of_mem other hm)]

theorem mergeGroups_of_unmergeable {gs : List (List NodeId)} (h : ∀ ms ∈ gs, s.Unmergeable ms) :
    s.mergeGroups gs = (s, .ok 0) := by
  induction gs with
  | nil => rfl
  | cons ms rest ih =>
    have hrest := ih fun ms' hms => h ms' (List.mem_cons_of_mem ms hms)
    cases ms with
    | nil => exact hrest
    | cons main others =>
      simp [mergeGroups, mergeInto_of_unmergeable (h _ List.mem_cons_self), hrest, Except.map]

/-- With fewer nodes live there is less to merge. -/
theorem Unmergeable.of_subset {ms : List NodeId} (h : s.Unmergeable ms)
    (harena : s'.arena = s.arena) (hnodes : ∀ n ∈ s'.live.nodes, n ∈ s.live.nodes) :
    s'.Unmergeable ms := by
  cases ms with
  | nil => trivial
  | cons main others =>
    intro other hother hmain hlive
    rw [harena]
    exact h other hother (hnodes main hmain) (hnodes other hlive)

theorem mergeEqual_eq_false_iff [Hashable Shape] : s.mergeEqual root = (s', .ok false) ↔
    s' = s.addRoot root ∧ ∃ groups, s.arena.groups root = .ok groups ∧
      ∀ ms ∈ groups.map Prod.snd, (s.addRoot root).Unmergeable ms := by
  have harena : (s.addRoot root).arena.groups root = s.arena.groups root := rfl
  cases hgroups : s.arena.groups root with
  | error f => simp [mergeEqual, groupNodes, harena, hgroups]
  | ok groups =>
    simp only [mergeEqual, groupNodes, harena, hgroups, Except.ok.injEq, exists_eq_left']
    constructor
    · intro h
      obtain ⟨hs, hfalse⟩ := Prod.mk.inj h
      obtain ⟨k, hk⟩ : ∃ k, ((s.addRoot root).mergeGroups (groups.map Prod.snd)).2 = .ok k := by
        cases hm : ((s.addRoot root).mergeGroups (groups.map Prod.snd)).2 with
        | ok k => exact ⟨k, rfl⟩
        | error f => simp [hm, Except.map] at hfalse
      obtain rfl : k = 0 := by simpa [hk, Except.map] using hfalse
      exact mergeGroups_eq_zero (Prod.ext hs hk)
    · rintro ⟨rfl, hall⟩
      simp [mergeGroups_of_unmergeable hall, Except.map]

/-! ### Cutting without effect -/

theorem cutEdges_eq_zero {es : List Edge} (h : s.cutEdges es = (s', .ok 0)) : s' = s := by
  induction es with
  | nil => exact (Prod.mk.inj h).1.symm
  | cons e es ih =>
    rcases cutEdges_cons_eq_ok h with ⟨hrest, -⟩ | ⟨-, -, j, -, -, -, -, hj⟩
    · exact ih hrest
    · cases hj

theorem cutGraphs_eq_zero {gs : List (GraphId × List Edge)} (h : s.cutGraphs gs = (s', .ok 0)) :
    s' = s := by
  induction gs with
  | nil => exact (Prod.mk.inj h).1.symm
  | cons x gs ih =>
    rcases cutGraphs_cons_eq_ok h with ⟨-, hrest⟩ | ⟨s₁, i, j, hcut, hrest, hk⟩
    · exact ih hrest
    · obtain ⟨rfl, rfl⟩ := Nat.add_eq_zero_iff.mp hk.symm
      obtain rfl := cutEdges_eq_zero hcut
      exact ih hrest

theorem cutDead_eq_zero (h : s.cutDead root = (s', .ok 0)) : s' = s.keepRoots [root] := by
  unfold cutDead at h
  dsimp only at h
  split at h
  · simp at h
  · exact cutGraphs_eq_zero h

/-! ### Passes at rest -/

section

variable [Hashable Shape]

/-- Whether a pass reports no change and leaves the store as it is. -/
def AtRest (s : Store) (c : Config) (root : GraphId) (p : Pass) : Prop :=
  s.runPass c root p = (s, .ok false)

theorem runPass_merge_eq_false_iff (hrep : c.reports .merge = true) :
    s.runPass c root .merge = (s', .ok false) ↔ s.mergeEqual root = (s', .ok false) := by
  cases hr : s.mergeEqual root with
  | mk s₁ r => cases r <;> simp [runPass, hrep, hr, Except.map]

theorem runPass_cut_eq_false_iff (hrep : c.reports .cut = true) :
    s.runPass c root .cut = (s', .ok false) ↔ s.cutDead root = (s', .ok 0) := by
  cases hr : s.cutDead root with
  | mk s₁ r => cases r <;> simp [runPass, hrep, hr, Except.map]

theorem atRest_of_runPass (hrep : c.reports p = true)
    (h : s.runPass c root p = (s', .ok false)) : s'.AtRest c root p := by
  cases p with
  | merge =>
    rw [runPass_merge_eq_false_iff hrep, mergeEqual_eq_false_iff] at h
    obtain ⟨rfl, groups, hgroups, hall⟩ := h
    rw [AtRest, runPass_merge_eq_false_iff hrep, mergeEqual_eq_false_iff, addRoot_addRoot]
    exact ⟨rfl, groups, hgroups, hall⟩
  | cut =>
    rw [runPass_cut_eq_false_iff hrep] at h
    obtain rfl := cutDead_eq_zero h
    rw [AtRest, runPass_cut_eq_false_iff hrep]
    rw [← h, cutDead, cutDead, keepRoots_keepRoots]

/-- A further pass that changes nothing leaves a pass at rest: it may only take live nodes away. -/
theorem AtRest.after (hp : s.AtRest c root p) (hrep : c.reports p = true)
    (hrep' : c.reports q = true) (h : s.runPass c root q = (s', .ok false)) :
    s'.AtRest c root p := by
  have hroot : s.addRoot root = s := by
    cases p with
    | merge =>
      rw [AtRest, runPass_merge_eq_false_iff hrep, mergeEqual_eq_false_iff] at hp
      exact hp.1.symm
    | cut =>
      rw [AtRest, runPass_cut_eq_false_iff hrep] at hp
      rw [cutDead_eq_zero hp, addRoot_keepRoots]
  cases q with
  | merge =>
    rw [runPass_merge_eq_false_iff hrep', mergeEqual_eq_false_iff] at h
    rwa [h.1, hroot]
  | cut =>
    rw [runPass_cut_eq_false_iff hrep'] at h
    obtain rfl := cutDead_eq_zero h
    cases p with
    | merge =>
      rw [AtRest, runPass_merge_eq_false_iff hrep, mergeEqual_eq_false_iff] at hp ⊢
      obtain ⟨-, groups, hgroups, hall⟩ := hp
      rw [hroot] at hall
      rw [addRoot_keepRoots]
      exact ⟨rfl, groups, hgroups, fun ms hms => (hall ms hms).of_subset rfl fun n hn =>
        nodes_keepRoots_subset (mem_graphs_of_addRoot_eq hroot) hn⟩
    | cut =>
      rw [AtRest, runPass_cut_eq_false_iff hrep] at hp
      have heq := cutDead_eq_zero hp
      rw [← heq]
      exact (runPass_cut_eq_false_iff hrep).mpr hp

/-! ### Rounds at rest -/

theorem runRound_of_atRest {ps : List Pass} (h : ∀ p ∈ ps, s.AtRest c root p) :
    s.runRound c root ps = (s, .ok (ps.map fun p => (p, false))) := by
  induction ps with
  | nil => rfl
  | cons p ps ih =>
    have hp : s.runPass c root p = (s, .ok false) := h p List.mem_cons_self
    simp [runRound, hp, ih fun q hq => h q (List.mem_cons_of_mem p hq), Except.map]

/-- A round is its first pass and a round of the others. -/
theorem runRound_cons_eq_ok {ps : List Pass} {round : Round}
    (h : s.runRound c root (p :: ps) = (s', .ok round)) : ∃ s₁ changed rest,
      s.runPass c root p = (s₁, .ok changed) ∧ s₁.runRound c root ps = (s', .ok rest) ∧
      round = (p, changed) :: rest := by
  unfold runRound at h
  split at h
  · simp at h
  · next s₁ changed hpass =>
    cases hr : s₁.runRound c root ps with
    | mk s₂ r =>
      cases r with
      | error f => simp [hr, Except.map] at h
      | ok rest =>
        simp only [hr, Except.map, Prod.mk.injEq, Except.ok.injEq] at h
        obtain ⟨rfl, rfl⟩ := h
        exact ⟨s₁, changed, rest, hpass, hr, rfl⟩

/-- A quiet round leaves each of its passes at rest, and those that were at rest before. -/
theorem atRest_of_runRound {ps : List Pass} {round : Round} (hps : ∀ p ∈ ps, c.reports p = true)
    (h : s.runRound c root ps = (s', .ok round)) (hquiet : round.any Prod.snd = false) :
    (∀ p ∈ ps, s'.AtRest c root p) ∧
      ∀ p, c.reports p = true → s.AtRest c root p → s'.AtRest c root p := by
  induction ps generalizing s round with
  | nil =>
    obtain rfl := (Prod.mk.inj h).1
    exact ⟨fun p hp => absurd hp List.not_mem_nil, fun p _ hp => hp⟩
  | cons q ps ih =>
    obtain ⟨s₁, changed, rest, hpass, hrest, rfl⟩ := runRound_cons_eq_ok h
    obtain ⟨rfl, hquiet'⟩ : changed = false ∧ rest.any Prod.snd = false := by
      simpa only [List.any_cons, Bool.or_eq_false_iff] using hquiet
    have hq := hps q List.mem_cons_self
    obtain ⟨hall, hkeep⟩ := ih (fun p hp => hps p (List.mem_cons_of_mem q hp)) hrest hquiet'
    refine ⟨fun p hp => ?_, fun p hrep hp => hkeep p hrep (hp.after hrep hq hpass)⟩
    rcases List.mem_cons.mp hp with rfl | hp
    · exact hkeep p hq (atRest_of_runPass hq hpass)
    · exact hall p hp

/-- A run is quiet in its first round, or changes something and ends, or goes on with one round
less. -/
theorem runRounds_eq_ok {more : Nat} {report : Report}
    (h : s.runRounds c root more = (s', .ok report)) : ∃ (s₁ : Store) (round : Round),
      s.runRound c root c.passes = (s₁, .ok round) ∧
      ((round.any Prod.snd = false ∧ s' = s₁ ∧ report = ⟨[round], true⟩) ∨
        (round.any Prod.snd = true ∧ more = 0 ∧ s' = s₁ ∧ report = ⟨[round], false⟩) ∨
        ∃ less rest, round.any Prod.snd = true ∧ more = less + 1 ∧
          s₁.runRounds c root less = (s', .ok rest) ∧
          report = ⟨round :: rest.rounds, rest.converged⟩) := by
  cases hround : s.runRound c root c.passes with
  | mk s₁ r =>
    cases r with
    | error f => cases more <;> simp [runRounds, hround] at h
    | ok round =>
      refine ⟨s₁, round, rfl, ?_⟩
      cases hany : round.any Prod.snd with
      | false =>
        refine Or.inl ⟨rfl, ?_⟩
        cases more <;> simpa [runRounds, hround, hany, eq_comm] using h
      | true =>
        refine Or.inr ?_
        cases more with
        | zero =>
          refine Or.inl ⟨rfl, rfl, ?_⟩
          simpa [runRounds, hround, hany, eq_comm] using h
        | succ less =>
          simp only [runRounds, hround, hany, if_true] at h
          obtain ⟨hs, hreport⟩ := Prod.mk.inj h
          cases hrest : (s₁.runRounds c root less).2 with
          | error f => simp [hrest, Except.map] at hreport
          | ok rest =>
            simp only [hrest, Except.map, Except.ok.injEq] at hreport
            exact Or.inr ⟨less, rest, rfl, rfl, Prod.ext hs hrest, hreport.symm⟩

/-- The last round of a run that converged was quiet. -/
theorem exists_quiet_of_converged {more : Nat} {report : Report}
    (h : s.runRounds c root more = (s', .ok report)) (hconv : report.converged = true) :
    ∃ (s₁ : Store) (round : Round),
      s₁.runRound c root c.passes = (s', .ok round) ∧ round.any Prod.snd = false := by
  induction more generalizing s report with
  | zero =>
    obtain ⟨s₁, round, hround, ⟨hquiet, rfl, rfl⟩ | ⟨-, -, -, rfl⟩ | ⟨less, -, -, hmore, -⟩⟩ :=
      runRounds_eq_ok h
    · exact ⟨s, round, hround, hquiet⟩
    · cases hconv
    · cases hmore
  | succ more ih =>
    obtain ⟨s₁, round, hround, ⟨hquiet, rfl, rfl⟩ | ⟨-, hmore, -⟩ |
      ⟨less, rest, -, hmore, hrest, rfl⟩⟩ := runRounds_eq_ok h
    · exact ⟨s, round, hround, hquiet⟩
    · cases hmore
    · obtain rfl := Nat.succ.inj hmore
      exact ih hrest hconv

/-- If every pass that is run reports its changes, then a converged result is a fixed point: to
optimize it again takes one round, in which no pass reports a change, and changes nothing in the
store, neither a slot nor a node nor what is live. -/
theorem optimize_of_converged {report : Report} (hrep : ∀ p ∈ c.passes, c.reports p = true)
    (hok : s.optimize c root = (s', .ok report)) (hconv : report.converged = true) :
    s'.optimize c root = (s', .ok ⟨[c.passes.map fun p => (p, false)], true⟩) := by
  obtain ⟨s₁, round, hround, hquiet⟩ := exists_quiet_of_converged hok hconv
  have hrest := runRound_of_atRest (atRest_of_runRound hrep hround hquiet).1
  have hnone : (c.passes.map fun p => (p, false)).any Prod.snd = false := by simp
  unfold optimize
  cases c.maxRounds - 1 with
  | zero => simp [runRounds, hrest]
  | succ more => simp [runRounds, hrest]

end

/-- Two equal sums are merged in the first round; the second round is quiet, and so is any other. -/
theorem optimize_of_converged_twinSums :
    (twinSums.optimize { reportCuts := true } ⟨0⟩).2 =
      .ok ⟨[[(.merge, true), (.cut, false)], [(.merge, false), (.cut, false)]], true⟩ ∧
    (twinSums.optimize { reportCuts := true } ⟨0⟩).1.optimize { reportCuts := true } ⟨0⟩ =
      ((twinSums.optimize { reportCuts := true } ⟨0⟩).1,
        .ok ⟨[[(.merge, false), (.cut, false)]], true⟩) := by
  have hok : (twinSums.optimize { reportCuts := true } ⟨0⟩).2 =
      .ok ⟨[[(.merge, true), (.cut, false)], [(.merge, false), (.cut, false)]], true⟩ := by cbv
  exact ⟨hok, optimize_of_converged (by decide) (Prod.ext rfl hok) rfl⟩

end Store

end Midend
