import Mathlib
import Midend.Proofs.Merge.Absorbed
import Midend.Proofs.Optimize.Cutting
import Midend.Proofs.Optimize.Quiet
import Midend.Proofs.Store.Closed

/-!
# Rounds come to an end

A cut makes a node live, its placeholder, and fills a slot with it that was not filled so before; a
merge takes a live node away and makes no filled slot empty. So twice the number of slots without a
placeholder and the number of live nodes together go down with every change, which bounds the rounds
before a quiet one.
-/

namespace Midend

namespace Arena

variable {a b : Arena} {n m : NodeId} {e : Edge} {E : Edge → Prop}

/-- The slots that hold something else than a placeholder. -/
def wholeSlots (a : Arena) : Finset Edge :=
  (((a.nodeIds.flatMap a.slots).filter fun (m, _) => a.value? m ≠ some .dead).map Prod.snd).toFinset

theorem mem_wholeSlots : e ∈ a.wholeSlots ↔ ∃ m, a.slot? e = some m ∧ a.value? m ≠ some .dead := by
  simp only [wholeSlots, List.mem_toFinset, List.mem_map, List.mem_filter, List.mem_flatMap,
    Prod.exists, exists_eq_right, decide_eq_true_eq, mem_slots]
  refine exists_congr fun m => and_congr_left fun _ => ⟨fun ⟨n, _, _, hm⟩ => hm, fun hm => ?_⟩
  exact ⟨e.owner, mem_nodeIds_of_slot? hm, rfl, hm⟩

/-- Slots that hold a placeholder or what they held before are whole only if they were. -/
theorem CutTo.wholeSlots_subset (h : a.CutTo b E) (hfit : a.Refitted b) :
    b.wholeSlots ⊆ a.wholeSlots := by
  intro e he
  obtain ⟨m, hm, hv⟩ := mem_wholeSlots.mp he
  obtain ⟨m', hm', -⟩ := hfit.slots hm
  rcases h.slots (mem_nodeIds_of_slot? hm') with hs | ⟨-, k, hk, hdead⟩
  · obtain rfl : m' = m := Option.some.inj (hm'.symm.trans (hs.symm.trans hm))
    refine mem_wholeSlots.mpr ⟨m', hm', fun hdead => hv ?_⟩
    exact (h.value (mem_nodeIds_of_value? hdead)).trans hdead
  · obtain rfl : k = m := Option.some.inj (hk.symm.trans hm)
    exact absurd hdead hv

/-- Merging keeps placeholders in place. -/
theorem Merged.wholeSlots_subset (h : a.Merged b) (hfit : a.Refitted b)
    (hex : ∀ n ∈ a.nodeIds, ∃ u, a.Unfolds n u) : b.wholeSlots ⊆ a.wholeSlots := by
  intro e he
  obtain ⟨m, hm, hv⟩ := mem_wholeSlots.mp he
  obtain ⟨m', hm', -⟩ := hfit.slots hm
  refine mem_wholeSlots.mpr ⟨m', hm', fun hdead => hv ?_⟩
  have hu := (h.unfolds_slot (hex _ (mem_nodeIds_of_slot? hm')) hm' hm _).mpr
    (.constant (kind?_of_value? hdead))
  exact value?_of_kind? (unfolds_constant_iff.mp hu).1

/-- Cuts close no cycle. -/
theorem CutTo.acyclic (h : a.CutTo b E) (hfit : a.Refitted b) (ha : a.Acyclic) : b.Acyclic := by
  have hold : ∀ {x y}, b.Uses x y → b.value? y = some .dead ∨ a.Uses x y := by
    intro x y hxy
    obtain ⟨i, hi⟩ := exists_slot?_of_mem hxy
    obtain ⟨m, hm, -⟩ := hfit.slots hi
    rcases h.slots (mem_nodeIds_of_slot? hm) with hs | ⟨-, k, hk, hdead⟩
    · exact Or.inr (mem_inputs_of_slot? (hs.symm.trans hi))
    · exact Or.inl (Option.some.inj (hk.symm.trans hi) ▸ hdead)
  have hstop : ∀ {x y}, b.value? x = some .dead → ¬ b.Uses x y := fun hx hxy => by
    simp [Uses, inputs_eq_nil_of_value? hx] at hxy
  have htrans : ∀ {x y}, Relation.TransGen b.Uses x y →
      b.value? y = some .dead ∨ Relation.TransGen a.Uses x y := by
    intro x y hxy
    induction hxy with
    | single hu => exact (hold hu).imp_right .single
    | tail _ hu ih =>
      rcases ih with hdead | ih
      · exact absurd hu (hstop hdead)
      · exact (hold hu).imp_right ih.tail
  intro n hn
  rcases htrans hn with hdead | hn'
  · obtain ⟨k, hk, -⟩ := Relation.TransGen.head'_iff.mp hn
    exact hstop hdead hk
  · exact ha n hn'

end Arena

namespace Store

variable {s s' : Store} {root : GraphId} {c : Config} {p : Pass} {n new : NodeId} {e : Edge}
  {k : Nat}

/-! ### What goes down -/

/-- What every reported change makes smaller. -/
def weight (s : Store) : Nat := 2 * s.arena.wholeSlots.card + s.live.nodes.size

theorem size_le_of_subset {l l' : OrderedSet NodeId} (h : ∀ n ∈ l, n ∈ l') : l.size ≤ l'.size :=
  (List.subperm_of_subset l.nodup h).length_le

theorem size_le_insert {l l' : OrderedSet NodeId} (h : ∀ n ∈ l, n = new ∨ n ∈ l') :
    l.size ≤ l'.size + 1 := by
  have hsub : l.toList ⊆ new :: l'.toList := fun n hn => List.mem_cons.mpr (h n hn)
  exact (List.subperm_of_subset l.nodup hsub).length_le

theorem weight_le_of_live (harena : s'.arena = s.arena)
    (hnodes : ∀ n ∈ s'.live.nodes, n ∈ s.live.nodes) : s'.weight ≤ s.weight := by
  have := size_le_of_subset hnodes
  simp only [weight, harena]
  omega

/-- A cut slot counts more than the placeholder that becomes live. -/
theorem weight_setEdge_dead {t : Option Ty} {m : NodeId} (hr : s.Reachable)
    (hm : s.arena.slot? e = some m) (hv : s.arena.value? m ≠ some .dead)
    (hok : (s.constantWith .dead t).2.setEdge e (s.constantWith .dead t).1 = .ok s') :
    s'.weight + 1 ≤ s.weight := by
  obtain ⟨-, hcut, k, hk, hdead⟩ := cutTo_setEdge (E := fun _ => True) hr trivial hok
  have hsub := hcut.arena.wholeSlots_subset (refitted_setEdge_dead hok)
  have hwhole : e ∈ s.arena.wholeSlots := Arena.mem_wholeSlots.mpr ⟨m, hm, hv⟩
  have hgone : e ∉ s'.arena.wholeSlots := fun he => by
    obtain ⟨k', hk', hv'⟩ := Arena.mem_wholeSlots.mp he
    exact hv' (Option.some.inj (hk.symm.trans hk') ▸ hdead)
  have hcard := Finset.card_lt_card (Finset.ssubset_iff_subset_ne.mpr
    ⟨hsub, fun heq => hgone (heq ▸ hwhole)⟩)
  have hsize := size_le_insert (live_setEdge hok (s.value?_constantWith .dead t) rfl).1
  have hlive : (s.constantWith .dead t).2.live = s.live := rfl
  rw [hlive] at hsize
  simp only [weight]
  omega

theorem weight_cutEdges {es : List Edge} (hr : s.Reachable) (h : s.cutEdges es = (s', .ok k)) :
    s'.weight + k ≤ s.weight := by
  induction es generalizing s k with
  | nil =>
    obtain ⟨rfl, hk⟩ := Prod.mk.inj h
    obtain rfl := Except.ok.inj hk
    exact Nat.le_refl _
  | cons e es ih =>
    rcases cutEdges_cons_eq_ok h with ⟨hrest, -⟩ | ⟨m, s₁, j, hm, hv, hok, hrest, rfl⟩
    · exact ih hr hrest
    · have hone := weight_setEdge_dead hr hm hv hok
      have hothers := ih (cutTo_setEdge (E := fun _ => True) hr trivial hok).1 hrest
      omega

theorem weight_cutGraphs {gs : List (GraphId × List Edge)} (hr : s.Reachable)
    (h : s.cutGraphs gs = (s', .ok k)) : s'.weight + k ≤ s.weight := by
  induction gs generalizing s k with
  | nil =>
    obtain ⟨rfl, hk⟩ := Prod.mk.inj h
    obtain rfl := Except.ok.inj hk
    exact Nat.le_refl _
  | cons x gs ih =>
    rcases cutGraphs_cons_eq_ok h with ⟨-, hrest⟩ | ⟨s₁, i, j, hcut, hrest, rfl⟩
    · exact ih hr hrest
    · have hone := weight_cutEdges hr hcut
      have hothers := ih (cutEdges_spec hr hcut).1 hrest
      omega

/-! ### Passes -/

/-- What holds of a store on which passes over one of its roots are run. -/
structure Running (root : GraphId) (s : Store) : Prop where
  reachable : s.Reachable
  orderly : s.arena.Orderly
  root_mem : root ∈ s.arena.graphIds
  is_root : root ∈ s.roots

theorem Running.live_root (h : s.Running root) : root ∈ s.live.graphs :=
  h.reachable.settled.roots_live root h.is_root

theorem Running.cutDead (h : s.Running root) (hok : s.cutDead root = (s', .ok k)) :
    s'.Running root ∧ s'.weight + k ≤ s.weight := by
  obtain ⟨ds, -, hr', hcut, -⟩ := cutDead_spec h.reachable h.orderly.acyclic h.root_mem hok
  have hfit : s.arena.Refitted s'.arena := by
    have hfit := s.refitted_cutDead root
    rwa [hok] at hfit
  have hkeep : (s.keepRoots [root]).weight ≤ s.weight :=
    weight_le_of_live rfl fun n hn => nodes_keepRoots_subset h.live_root hn
  have hweight : s'.weight + k ≤ (s.keepRoots [root]).weight := by
    unfold Store.cutDead at hok
    simp only at hok
    split at hok
    · cases (Prod.mk.inj hok).2
    · exact weight_cutGraphs (h.reachable.keepRoot h.root_mem) hok
  have ha' : s'.arena.Orderly := ⟨Arena.CutTo.acyclic hcut.arena hfit h.orderly.acyclic,
    hfit.owned h.orderly.owned, hr'.settled.wellFormed⟩
  refine ⟨⟨hr', ha', hfit.graphIds ▸ h.root_mem, ?_⟩, Nat.le_trans hweight hkeep⟩
  rw [hcut.roots]
  exact s.mem_roots_keepRoots root

/-! ### The first pass -/

/-- What a pass makes of its root before it looks for changes. -/
def enlist (s : Store) (root : GraphId) : Pass → Store
  | .merge => s.addRoot root
  | .cut => s.keepRoots [root]

theorem running_enlist (hr : s.Reachable) (hac : s.arena.Acyclic) (hclosed : s.arena.Closed)
    (hroot : root ∈ s.arena.graphIds) (p : Pass) : (s.enlist root p).Running root := by
  have ha := hr.orderly hac hclosed
  cases p with
  | merge =>
    exact ⟨hr.step (.addRoot hroot), ha, hroot, OrderedSet.mem_insert.mpr (Or.inl rfl)⟩
  | cut => exact ⟨hr.keepRoot hroot, ha, hroot, s.mem_roots_keepRoots root⟩

/-- No more than this can be reported, whatever the first pass makes live. -/
theorem weight_enlist_le (h : (s.enlist root p).Running root) :
    (s.enlist root p).weight ≤ 2 * s.arena.wholeSlots.card + s.arena.nodes.size := by
  have harena : (s.enlist root p).arena = s.arena := by cases p <;> rfl
  have hsub : (s.enlist root p).live.nodes.toList ⊆ s.arena.nodeIds := fun n hn =>
    harena ▸ h.reachable.settled.agrees.mem_nodeIds hn
  have hlen := (List.subperm_of_subset (s.enlist root p).live.nodes.nodup hsub).length_le
  simp only [Arena.nodeIds, List.length_map, List.length_range] at hlen
  simp only [weight, harena, OrderedSet.size]
  omega

/-! ### Changes of a pass -/

section

variable [Hashable Shape]

theorem Running.mergeEqual {merged : Bool} (h : s.Running root)
    (hok : s.mergeEqual root = (s', .ok merged)) :
    s'.Running root ∧ s'.weight + merged.toNat ≤ s.weight := by
  have hex : s.Unfoldable := fun n hn => h.orderly.exists_unfolds hn
  have hself : s.addRoot root = s := addRoot_eq_self h.is_root h.live_root
  have hsize := size_mergeEqual_le h.reachable h.orderly h.root_mem hok
  have hfit := refitted_mergeEqual h.reachable h.orderly.acyclic h.root_mem
  have ha' := orderly_mergeEqual h.reachable h.orderly h.root_mem
  obtain ⟨_, _, -, -, -, hrun⟩ := exists_mergeRun h.reachable h.orderly h.root_mem
  have hroots := hrun.roots
  obtain ⟨hr', hm⟩ := merged_mergeEqual h.reachable hex h.root_mem
  rw [hok] at hfit hr' hm ha' hroots
  rw [hself] at hsize hroots
  have hcard : s'.arena.wholeSlots.card ≤ s.arena.wholeSlots.card :=
    Finset.card_le_card (hm.wholeSlots_subset hfit hex)
  refine ⟨⟨hr', ha', hfit.graphIds ▸ h.root_mem, hroots ▸ h.is_root⟩, ?_⟩
  simp only [weight]
  omega

theorem Running.runPass {changed : Bool} (h : s.Running root)
    (hok : s.runPass c root p = (s', .ok changed)) :
    s'.Running root ∧ s'.weight + changed.toNat ≤ s.weight := by
  cases p with
  | merge =>
    cases hr : s.mergeEqual root with
    | mk s₁ r =>
      cases r with
      | error f => simp [Store.runPass, hr, Except.map] at hok
      | ok merged =>
        simp only [Store.runPass, hr, Except.map, Prod.mk.injEq, Except.ok.injEq] at hok
        obtain ⟨rfl, rfl⟩ := hok
        obtain ⟨hrun, hle⟩ := h.mergeEqual hr
        refine ⟨hrun, le_trans ?_ hle⟩
        cases merged <;> cases c.reports .merge <;> simp
  | cut =>
    cases hr : s.cutDead root with
    | mk s₁ r =>
      cases r with
      | error f => simp [Store.runPass, hr, Except.map] at hok
      | ok k =>
        simp only [Store.runPass, hr, Except.map, Prod.mk.injEq, Except.ok.injEq] at hok
        obtain ⟨rfl, rfl⟩ := hok
        obtain ⟨hrun, hle⟩ := h.cutDead hr
        refine ⟨hrun, le_trans ?_ hle⟩
        cases k <;> cases c.reports .cut <;> simp

/-! ### Rounds -/

theorem Running.runRound {ps : List Pass} {round : Round} (h : s.Running root)
    (hok : s.runRound c root ps = (s', .ok round)) :
    s'.Running root ∧ s'.weight + (round.any Prod.snd).toNat ≤ s.weight := by
  induction ps generalizing s round with
  | nil =>
    obtain ⟨rfl, hround⟩ := Prod.mk.inj hok
    obtain rfl := Except.ok.inj hround
    exact ⟨h, Nat.le_refl _⟩
  | cons p ps ih =>
    obtain ⟨s₁, changed, rest, hpass, hrest, rfl⟩ := runRound_cons_eq_ok hok
    obtain ⟨h₁, hone⟩ := h.runPass hpass
    obtain ⟨h', hothers⟩ := ih h₁ hrest
    refine ⟨h', ?_⟩
    have hany : (changed || rest.any Prod.snd).toNat ≤
        changed.toNat + (rest.any Prod.snd).toNat := by
      cases changed <;> cases rest.any Prod.snd <;> simp
    simp only [List.any_cons]
    omega

theorem Running.runRounds {more : Nat} {report : Report} (h : s.Running root)
    (hok : s.runRounds c root more = (s', .ok report)) :
    report.rounds.length ≤ s.weight + 1 ∧ (s.weight ≤ more → report.converged = true) ∧
      (report.converged = false → ∀ round ∈ report.rounds, round.any Prod.snd = true) := by
  induction more generalizing s report with
  | zero =>
    obtain ⟨s₁, round, hround, ⟨hquiet, -, rfl⟩ | ⟨hany, -, -, rfl⟩ | ⟨less, -, -, hmore, -⟩⟩ :=
      runRounds_eq_ok hok
    · exact ⟨by simp, fun _ => rfl, fun hconv => by cases hconv⟩
    · obtain ⟨-, hle⟩ := h.runRound hround
      simp only [hany, Bool.toNat_true] at hle
      refine ⟨by simp, fun hzero => by omega, fun _ round hmem => ?_⟩
      exact List.mem_singleton.mp hmem ▸ hany
    · cases hmore
  | succ more ih =>
    obtain ⟨s₁, round, hround, ⟨hquiet, -, rfl⟩ | ⟨-, hmore, -⟩ | ⟨less, rest, hany, hmore, hrest,
      rfl⟩⟩ := runRounds_eq_ok hok
    · exact ⟨by simp, fun _ => rfl, fun hconv => by cases hconv⟩
    · cases hmore
    · obtain rfl := Nat.succ.inj hmore
      obtain ⟨h₁, hle⟩ := h.runRound hround
      obtain ⟨hlen, hconv, hchanged⟩ := ih h₁ hrest
      simp only [hany, Bool.toNat_true] at hle
      refine ⟨?_, fun hbound => hconv (by omega), fun hfalse round hmem => ?_⟩
      · simp only [List.length_cons]
        omega
      · rcases List.mem_cons.mp hmem with rfl | hmem
        · exact hany
        · exact hchanged hfalse round hmem

/-! ### The bound -/

theorem runPass_enlist (s : Store) (c : Config) (root : GraphId) (p : Pass) :
    (s.enlist root p).runPass c root p = s.runPass c root p := by
  cases p with
  | merge => simp only [enlist, Store.runPass, Store.mergeEqual, groupNodes, addRoot_addRoot]
  | cut => simp only [enlist, Store.runPass, Store.cutDead, keepRoots_keepRoots]

theorem runRounds_enlist {ps : List Pass} (hps : c.passes = p :: ps) (more : Nat) :
    (s.enlist root p).runRounds c root more = s.runRounds c root more := by
  have hround : (s.enlist root p).runRound c root c.passes = s.runRound c root c.passes := by
    rw [hps, Store.runRound, Store.runRound, runPass_enlist]
  cases more <;> simp only [Store.runRounds, hround]

/-- Optimizing a closed program without cycles converges if enough rounds are allowed, how many
depends on the store alone. It never takes more rounds than allowed, and if it stops without having
converged then every round reported a change. -/
theorem exists_rounds_converged (hr : s.Reachable) (hac : s.arena.Acyclic)
    (hclosed : s.arena.Closed) (hroot : root ∈ s.arena.graphIds) :
    ∃ bound, ∀ (c : Config) (report : Report), (s.optimize c root).2 = .ok report →
      (bound ≤ c.maxRounds → report.converged = true ∧ report.rounds.length ≤ bound) ∧
      report.rounds.length ≤ max 1 c.maxRounds ∧
      (report.converged = false → ∀ round ∈ report.rounds, round.any Prod.snd = true) := by
  refine ⟨2 * s.arena.wholeSlots.card + s.arena.nodes.size + 1, fun c report hok => ?_⟩
  have hmax := (length_rounds_optimize hok).2
  have hrun : s.runRounds c root (c.maxRounds - 1) = ((s.optimize c root).1, .ok report) :=
    Prod.ext rfl hok
  cases hps : c.passes with
  | nil =>
    -- a round without passes is quiet
    obtain ⟨s₁, round, hround, hcases⟩ := runRounds_eq_ok hrun
    rw [hps] at hround
    obtain rfl := Except.ok.inj (Prod.mk.inj hround).2
    rcases hcases with ⟨-, -, rfl⟩ | ⟨hany, -⟩ | ⟨_, _, hany, -⟩
    · exact ⟨fun _ => ⟨rfl, by simp⟩, hmax, fun hconv => by cases hconv⟩
    · cases hany
    · cases hany
  | cons p ps =>
    have hstart := running_enlist hr hac hclosed hroot p
    have hweight := weight_enlist_le hstart
    rw [← runRounds_enlist hps] at hrun
    obtain ⟨hlen, hconv, hchanged⟩ := hstart.runRounds hrun
    exact ⟨fun hbound => ⟨hconv (by omega), by omega⟩, hmax, hchanged⟩

end

theorem exists_rounds_converged_twinSums :
    (twinSums.optimize {} ⟨0⟩).2 =
      .ok ⟨[[(.merge, true), (.cut, false)], [(.merge, false), (.cut, false)]], true⟩ ∧
    ∃ bound, ∀ (c : Config) (report : Report), (twinSums.optimize c ⟨0⟩).2 = .ok report →
      (bound ≤ c.maxRounds → report.converged = true ∧ report.rounds.length ≤ bound) ∧
      report.rounds.length ≤ max 1 c.maxRounds ∧
      (report.converged = false → ∀ round ∈ report.rounds, round.any Prod.snd = true) := by
  have hr := reachedAcyclic_twinSums
  have hclosed : twinSums.arena.Closed := of_decide_eq_true (by cbv)
  exact ⟨by cbv, exists_rounds_converged hr.reachable hr.acyclic hclosed (by decide)⟩

end Store

end Midend
