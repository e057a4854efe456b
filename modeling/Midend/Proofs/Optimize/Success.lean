import Mathlib
import Midend.Optimize
import Midend.Proofs.Optimize.Cutting

/-!
# Programs on which every pass succeeds

Whether dead parts can be cut depends on the annotations in function position, and a merge may put
a node there whose annotation tells less. There are programs that merging spoils, and programs that
the cut itself spoils; none does if annotations tell no difference between nodes that compute the
same.
-/

namespace Midend

namespace Store

open Arena (Descends)

variable {s₀ s : Store} {a : Arena} {root : GraphId} {n : NodeId} {c : Config}

/-- What holds of a store that passes over `root` made of an arena. -/
structure Underway (a : Arena) (root : GraphId) (s : Store) : Prop where
  reached : s.ReachedAcyclic
  root_mem : root ∈ s.arena.graphIds
  descends : a.Descends root s.arena

theorem ReachedAcyclic.keepRoots (h : s.ReachedAcyclic) (hroot : root ∈ s.arena.graphIds) :
    (s.keepRoots [root]).ReachedAcyclic :=
  ReachedThrough.step h (.keepRoots fun _ hg => List.mem_singleton.mp hg ▸ hroot) h.acyclic

/-- Dead parts can be cut exactly if every apply that the root returns can be resolved. -/
theorem exists_cutDead_iff_clear (h : s.ReachedAcyclic) (hroot : root ∈ s.arena.graphIds) :
    (∃ k, (s.cutDead root).2 = .ok k) ↔ ∀ n, s.arena.Returned [root] n → s.arena.Clear n := by
  rw [exists_cutDead_iff (h.keepRoots hroot).settled h.acyclic]
  simp only [mem_nodes_keepRoots_iff h hroot]
  refine ⟨fun hall n hn => hall n (Or.inr hn), fun hall n hn => ?_⟩
  rcases hn with ⟨g, -, hp⟩ | hn
  · -- the parameters of reachable graphs are live too, but they are no applies
    have hpar := (h.settled.wellFormed.mem_parameters.mp hp).1
    intro happ
    simp only [Arena.isParameter, decide_eq_true_eq] at hpar
    simp [Arena.isApply, hpar] at happ
  · exact hall n hn

/-! ### Runs of passes -/

section

variable (hr : s₀.ReachedAcyclic) (ht : s₀.arena.Tidy) (hplain : s₀.arena.BuildsPlainly [root])
  (hex : s₀.arena.Exchangeable [root]) (hcut : ∃ k, (s₀.cutDead root).2 = .ok k)

theorem Underway.mergeEqual [Hashable Shape] (h : s.Underway a root) :
    (∃ merged, (s.mergeEqual root).2 = .ok merged) ∧ Underway a root (s.mergeEqual root).1 := by
  have hreach := h.reached.reachable
  have hac := h.reached.acyclic
  obtain ⟨-, hok⟩ := mergeSteps_mergeEqual hreach hac h.root_mem
  have hdesc := descends_mergeEqual hreach hac h.root_mem
  exact ⟨hok, h.reached.steps (stepsAcyclic_mergeEqual hreach hac h.root_mem),
    hdesc.refitted.graphIds ▸ h.root_mem, h.descends.trans hdesc⟩

include hr ht hplain hex hcut

theorem Underway.cutDead (h : Underway s₀.arena root s) :
    (∃ k, (s.cutDead root).2 = .ok k) ∧ Underway s₀.arena root (s.cutDead root).1 := by
  have hroot : root ∈ s₀.arena.graphIds := h.descends.refitted.graphIds ▸ h.root_mem
  have hclear := (exists_cutDead_iff_clear hr hroot).mp hcut
  obtain ⟨k, hok⟩ := (exists_cutDead_iff_clear h.reached h.root_mem).mpr fun n hn =>
    h.descends.clear hr.settled.wellFormed hr.acyclic ht hplain hex hclear hn
  have heq : s.cutDead root = ((s.cutDead root).1, .ok k) := Prod.ext rfl hok
  obtain ⟨ds, -, -, hcut', -⟩ := cutDead_spec h.reached.reachable h.reached.acyclic h.root_mem heq
  have hdesc := descends_cutDead h.reached (h.descends.refitted.owned ht.owned) h.root_mem heq
  exact ⟨⟨k, hok⟩, hcut'.reachedAcyclic (h.reached.keepRoots h.root_mem),
    hdesc.refitted.graphIds ▸ h.root_mem, h.descends.trans hdesc⟩

variable [Hashable Shape]

theorem Underway.runPass (h : Underway s₀.arena root s) (p : Pass) :
    (∃ changed, (s.runPass c root p).2 = .ok changed) ∧
      Underway s₀.arena root (s.runPass c root p).1 := by
  cases p with
  | merge =>
    obtain ⟨⟨merged, hok⟩, hnext⟩ := h.mergeEqual
    exact ⟨⟨merged && c.reports .merge, by simp [Store.runPass, hok, Except.map]⟩, hnext⟩
  | cut =>
    obtain ⟨⟨k, hok⟩, hnext⟩ := h.cutDead hr ht hplain hex hcut
    exact ⟨⟨0 < k && c.reports .cut, by simp [Store.runPass, hok, Except.map]⟩, hnext⟩

theorem Underway.runRound (h : Underway s₀.arena root s) (ps : List Pass) :
    (∃ round, (s.runRound c root ps).2 = .ok round) ∧
      Underway s₀.arena root (s.runRound c root ps).1 := by
  induction ps generalizing s with
  | nil => exact ⟨⟨[], rfl⟩, h⟩
  | cons p ps ih =>
    obtain ⟨⟨changed, hok⟩, hnext⟩ := h.runPass hr ht hplain hex hcut (c := c) p
    obtain ⟨⟨round, hround⟩, hlast⟩ := ih hnext
    have heq : s.runPass c root p = ((s.runPass c root p).1, .ok changed) := Prod.ext rfl hok
    rw [Store.runRound, heq]
    exact ⟨⟨(p, changed) :: round, by simp [hround, Except.map]⟩, hlast⟩

theorem Underway.exists_runRounds (h : Underway s₀.arena root s) (more : Nat) :
    ∃ report, (s.runRounds c root more).2 = .ok report := by
  induction more generalizing s with
  | zero =>
    obtain ⟨⟨round, hok⟩, -⟩ := h.runRound hr ht hplain hex hcut (c := c) c.passes
    have heq : s.runRound c root c.passes = ((s.runRound c root c.passes).1, .ok round) :=
      Prod.ext rfl hok
    rw [Store.runRounds, heq]
    exact ⟨_, rfl⟩
  | succ more ih =>
    obtain ⟨⟨round, hok⟩, hnext⟩ := h.runRound hr ht hplain hex hcut (c := c) c.passes
    have heq : s.runRound c root c.passes = ((s.runRound c root c.passes).1, .ok round) :=
      Prod.ext rfl hok
    rw [Store.runRounds, heq]
    dsimp only
    split
    · obtain ⟨report, hrest⟩ := ih hnext
      simp only [hrest, Except.map]
      exact ⟨_, rfl⟩
    · exact ⟨_, rfl⟩

end

end Store

namespace Program

variable {spec : Spec} {p : Program}

/-- The program of a description, if it is accepted. -/
def loaded (spec : Spec) : Program :=
  match build spec with
  | .ok p => p
  | .error _ => ⟨.empty, ⟨0⟩, []⟩

theorem build_eq_loaded (h : (build spec).isOk = true) : build spec = .ok (loaded spec) := by
  unfold loaded
  cases hbuild : build spec with
  | ok p => rfl
  | error e => simp [hbuild, Except.isOk, Except.toBool] at h

/-- A program whose dead parts can be cut, and whose annotations tell no difference between nodes
that compute the same, can be merged and cut after that, and be optimized in any configuration. -/
theorem passes_succeed_of_cutDead [Hashable Shape] (hbuild : build spec = .ok p)
    (hcut : ∃ k, (p.store.cutDead p.root).2 = .ok k)
    (hplain : p.store.arena.BuildsPlainly [p.root]) (hex : p.store.arena.Exchangeable [p.root]) :
    (∃ merged, (p.store.mergeEqual p.root).2 = .ok merged) ∧
    (∃ k, ((p.store.mergeEqual p.root).1.cutDead p.root).2 = .ok k) ∧
    ∀ c, ∃ report, (p.store.optimize c p.root).2 = .ok report := by
  obtain ⟨hloaded, hroot⟩ := loaded_build hbuild
  have hstart : p.store.Underway p.store.arena p.root := ⟨hloaded.reached, hroot, .refl _ _⟩
  obtain ⟨hmerged, hnext⟩ := hstart.mergeEqual
  obtain ⟨hcut', -⟩ := hnext.cutDead hloaded.reached hloaded.tidy hplain hex hcut
  exact ⟨hmerged, hcut', fun c =>
    hstart.exists_runRounds hloaded.reached hloaded.tidy hplain hex hcut _⟩

/-- A pair of two equal calls. -/
def twiceCalled : Spec :=
  ⟨some "main", [
    ⟨"f", [⟨"z", none⟩], [], "z"⟩,
    ⟨"main", [⟨"x", none⟩], [
      ⟨"y", none, some ["f", "x"], none⟩,
      ⟨"z", none, some ["f", "x"], none⟩,
      ⟨"out", none, some ["make_tuple", "y", "z"], none⟩], "out"⟩]⟩

theorem passes_succeed_of_cutDead_twiceCalled :
    ((loaded twiceCalled).store.mergeEqual (loaded twiceCalled).root).2 = .ok true ∧
    (∃ k, (((loaded twiceCalled).store.mergeEqual (loaded twiceCalled).root).1.cutDead
      (loaded twiceCalled).root).2 = .ok k) ∧
    ∀ c, ∃ report,
      ((loaded twiceCalled).store.optimize c (loaded twiceCalled).root).2 = .ok report := by
  have hbuild : build twiceCalled = .ok (loaded twiceCalled) := build_eq_loaded (by cbv)
  have hcut : ((loaded twiceCalled).store.cutDead (loaded twiceCalled).root).2 = .ok 0 := by cbv
  have hmerged :
      ((loaded twiceCalled).store.mergeEqual (loaded twiceCalled).root).2 = .ok true := by cbv
  -- every annotation is the one that a constant has by itself
  have htypes : ∀ n ∈ (loaded twiceCalled).store.arena.nodeIds,
      (loaded twiceCalled).store.arena.type? n =
        ((loaded twiceCalled).store.arena.value? n).bind Value.type? :=
    List.map_inj_left.mp (by cbv)
  have hwf := (loaded_build hbuild).1.wellFormed
  have hex : (loaded twiceCalled).store.arena.Exchangeable [(loaded twiceCalled).root] :=
    Arena.exchangeable_of_type?_eq fun n m hn hm hal => by
      rw [htypes m (hm.mem_nodeIds hwf), htypes n (hn.mem_nodeIds hwf), hal.value?_eq]
  have hplain : (loaded twiceCalled).store.arena.BuildsPlainly [(loaded twiceCalled).root] := by
    rintro f p hf hv hp ⟨ts, t, hts, ht, hcallee⟩
    rw [htypes f (hf.mem_nodeIds hwf), hv] at hts
    rcases hp with rfl | rfl | rfl
    all_goals
      obtain rfl := Option.some.inj hts
      obtain rfl := List.mem_singleton.mp ht
      cases hcallee
  exact ⟨hmerged, (passes_succeed_of_cutDead hbuild ⟨0, hcut⟩ hplain hex).2⟩

/-- A partial application that is only kept, without annotation, before an equal one that is called
and annotated. -/
def calledAfterKept : Spec :=
  ⟨some "main", [
    ⟨"f", [⟨"z", some (.name "i64")⟩], [], "z"⟩,
    ⟨"main", [⟨"x", some (.name "i64")⟩], [
      ⟨"kept", none, some ["partial", "f"], none⟩,
      ⟨"called", none, some ["partial", "f"], some (.function [.bound "f" []])⟩,
      ⟨"y", none, some ["called", "x"], some (.name "i64")⟩,
      ⟨"out", none, some ["make_tuple", "kept", "y"], none⟩], "out"⟩]⟩

/-- A tuple that is made by an operation annotated as mapping, over a graph that nobody reads. -/
def mappingTuple : Spec :=
  ⟨some "main", [
    ⟨"f", [⟨"z", some (.name "i64")⟩], [], "z"⟩,
    ⟨"g", [⟨"x", some (.name "i64")⟩], [
      ⟨"pair_of", some (.object [("prim", .string "make_tuple")]), none,
        some (.function [.name "array_map"])⟩,
      ⟨"fn", some (.object [("graph", .string "f")]), none, none⟩,
      ⟨"t", none, some ["pair_of", "fn", "x"], none⟩], "t"⟩,
    ⟨"main", [⟨"x", some (.name "i64")⟩], [
      ⟨"one", some (.number (.whole 1)), none, none⟩,
      ⟨"r", none, some ["g", "x"], none⟩,
      ⟨"out", none, some ["tuple_getitem", "r", "one"], some (.name "i64")⟩], "out"⟩]⟩

/-- After a merge the partial application that is kept stands in function position; after a cut a
placeholder stands where the function to be mapped was. Either way the next cut fails. -/
theorem passes_fail_after_cutDead :
    (build calledAfterKept = .ok (loaded calledAfterKept) ∧
      ((loaded calledAfterKept).store.cutDead (loaded calledAfterKept).root).2 = .ok 0 ∧
      (((loaded calledAfterKept).store.mergeEqual (loaded calledAfterKept).root).1.cutDead
        (loaded calledAfterKept).root).2 = .error (.notAFunction ⟨6⟩)) ∧
    build mappingTuple = .ok (loaded mappingTuple) ∧
      ((loaded mappingTuple).store.cutDead (loaded mappingTuple).root).2 = .ok 1 ∧
      ((loaded mappingTuple).store.optimize { passes := [.cut, .cut] }
        (loaded mappingTuple).root).2 = .error (.nothingMapped ⟨6⟩) := by
  refine ⟨⟨build_eq_loaded ?_, ?_, ?_⟩, build_eq_loaded ?_, ?_, ?_⟩
  all_goals cbv

end Program

end Midend
