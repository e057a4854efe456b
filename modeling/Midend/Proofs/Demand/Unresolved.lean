import Mathlib
import Midend.Proofs.Arena.Redirected
import Midend.Proofs.Demand.Resolved
import Midend.Proofs.Store.Calls

/-!
# When the analysis fails

An apply that does not index by a constant is unresolved if nothing or no function is applied, or if
one of the targets of the function has no callee or maps what is no function with callees.
-/

namespace Midend

namespace Arena

variable {a : Arena} {n key : NodeId} {args : List NodeId} {bound : List Ty} {ts : List Target}
  {t : Target}

/-! ### Index applies -/

/-- Whether a node is a constant that selects a part: a position or a symbolic key. -/
def SelectsPart (a : Arena) (key : NodeId) : Prop :=
  (∃ i : Int, 0 ≤ i ∧ a.value? key = some (.int i)) ∨ ∃ k, a.value? key = some (.key k)

/-- Whether `n` takes the part of a tuple or of an environment that a constant selects. -/
def SelectsByConstant (a : Arena) (n : NodeId) : Prop :=
  ∃ f base key, a.SelectsPart key ∧
    ((a.value? f = some (.prim .tupleGet) ∧ a.inputs n = [f, base, key]) ∨
      ∃ default, a.value? f = some (.prim .envGet) ∧ a.inputs n = [f, base, key, default])

theorem isSome_step?_iff : (a.step? key).isSome = true ↔ a.SelectsPart key := by
  unfold step? SelectsPart
  cases a.value? key with
  | none => simp
  | some v => cases v <;> simp [Step.ofValue?]

theorem isSome_indexing?_iff : (a.indexing? n).isSome = true ↔ a.SelectsByConstant n := by
  constructor
  · intro h
    obtain ⟨ix, hix⟩ := Option.isSome_iff_exists.mp h
    obtain ⟨f, key, hstep, hcases⟩ := indexing?_eq_some hix
    have hkey : a.SelectsPart key := isSome_step?_iff.mp (by simp [hstep])
    cases hcases with
    | inl h =>
      obtain ⟨f', hf', hv⟩ := applied?_eq_some_iff.mp h.1
      obtain rfl : f = f' := by simpa [h.2.1] using hf'
      exact ⟨f, ix.base, key, hkey, Or.inl ⟨hv, h.2.1⟩⟩
    | inr h =>
      obtain ⟨default, happ, hin, -⟩ := h
      obtain ⟨f', hf', hv⟩ := applied?_eq_some_iff.mp happ
      obtain rfl : f = f' := by simpa [hin] using hf'
      exact ⟨f, ix.base, key, hkey, Or.inr ⟨default, hv, hin⟩⟩
  · intro h
    obtain ⟨f, base, key, hkey, hcases⟩ := h
    have hstep : (a.step? key).isSome = true := isSome_step?_iff.mpr hkey
    cases hcases with
    | inl h =>
      have happ : a.applied? n = some .tupleGet :=
        applied?_eq_some_iff.mpr ⟨f, by rw [h.2]; rfl, h.1⟩
      simpa [indexing?, happ, h.2] using hstep
    | inr h =>
      obtain ⟨default, hv, hin⟩ := h
      have happ : a.applied? n = some .envGet :=
        applied?_eq_some_iff.mpr ⟨f, by rw [hin]; rfl, hv⟩
      simpa [indexing?, happ, hin] using hstep

/-! ### Unresolved calls -/

/-- What a call maps is annotated with the first bound argument, or else like the first argument of
the call. -/
def mappedType? (a : Arena) (args : List NodeId) (bound : List Ty) : Option Ty :=
  bound.head?.or (args.head?.bind a.type?)

/-- The reasons why it cannot be told what an apply runs. -/
inductive Unresolved (a : Arena) (n : NodeId) : Prop
  | nothingApplied : a.inputs n = [] → Unresolved a n
  | notAFunction {f : NodeId} {args : List NodeId} : a.inputs n = f :: args →
      (a.type? f).bind Ty.targets? = none → Unresolved a n
  | unknownTarget {f : NodeId} {args : List NodeId} {ts : List Target} {t : Target} :
      a.inputs n = f :: args → (a.type? f).bind Ty.targets? = some ts → t ∈ ts →
      t.innermost = .unknown → Unresolved a n
  | nothingMapped {f : NodeId} {args : List NodeId} {ts : List Target} {t : Target}
      {bound : List Ty} : a.inputs n = f :: args → (a.type? f).bind Ty.targets? = some ts →
      t ∈ ts → t.callee = .ok (.prim .arrayMap, bound) →
      (a.mappedType? args bound).bind Ty.targets? = none → Unresolved a n
  | unknownMapped {f : NodeId} {args : List NodeId} {ts us : List Target} {t u : Target}
      {bound : List Ty} : a.inputs n = f :: args → (a.type? f).bind Ty.targets? = some ts →
      t ∈ ts → t.callee = .ok (.prim .arrayMap, bound) →
      (a.mappedType? args bound).bind Ty.targets? = some us → u ∈ us →
      u.innermost = .unknown → Unresolved a n

theorem innermost_ne_unknown {r : Callee × List Ty} (hc : t.callee = .ok r) :
    t.innermost ≠ .unknown := by
  intro hu
  rw [Target.callee_eq_error_iff.mpr ⟨hu, rfl⟩] at hc
  cases hc

theorem exists_calledGraphs_iff :
    (∃ gs, calledGraphs ts = .ok gs) ↔ ∀ t ∈ ts, t.innermost ≠ .unknown := by
  induction ts with
  | nil => simp [calledGraphs]
  | cons t ts ih =>
    rw [List.forall_mem_cons, ← ih, calledGraphs]
    cases hc : t.callee with
    | error f => simp [(Target.callee_eq_error_iff.mp hc).1]
    | ok r =>
      have ht : t.innermost ≠ .unknown := innermost_ne_unknown hc
      cases hrest : calledGraphs ts with
      | error f => simp [Except.map]
      | ok gs => simp [Except.map, ht]

theorem mappedGraphs_eq_elim : a.mappedGraphs n args bound =
    ((a.mappedType? args bound).bind Ty.targets?).elim (.error (.nothingMapped n)) calledGraphs := by
  unfold mappedGraphs mappedType?
  cases bound with
  | nil =>
    simp only [List.head?_nil, Option.none_or]
    cases (args.head?.bind a.type?).bind Ty.targets? <;> rfl
  | cons t bound =>
    simp only [List.head?_cons, Option.some_or]
    cases (some t).bind Ty.targets? <;> rfl

theorem mappedGraphs_eq_ok_iff :
    (∃ gs, a.mappedGraphs n args bound = .ok gs) ↔
      ∃ us, (a.mappedType? args bound).bind Ty.targets? = some us ∧
        ∀ u ∈ us, u.innermost ≠ .unknown := by
  rw [mappedGraphs_eq_elim]
  cases (a.mappedType? args bound).bind Ty.targets? with
  | none => simp
  | some us => simp [exists_calledGraphs_iff]

theorem runs_iff : a.Runs n args t ↔ t.innermost ≠ .unknown ∧
    ∀ bound, t.callee = .ok (.prim .arrayMap, bound) →
      ∃ us, (a.mappedType? args bound).bind Ty.targets? = some us ∧
        ∀ u ∈ us, u.innermost ≠ .unknown := by
  unfold Runs
  cases hc : t.callee with
  | error f => simp [(Target.callee_eq_error_iff.mp hc).1]
  | ok r =>
    have ht : t.innermost ≠ .unknown := innermost_ne_unknown hc
    obtain ⟨c, bound⟩ := r
    simp [ht, mappedGraphs_eq_ok_iff]

/-- An apply is unresolved exactly if it is not resolved. -/
theorem unresolved_iff : a.Unresolved n ↔ ¬ a.Resolves n (a.inputs n) := by
  constructor
  · intro h hres
    obtain ⟨f, args, ts, hin, hts, hall⟩ := hres
    cases h with
    | nothingApplied hin' => simp [hin'] at hin
    | notAFunction hin' hts' =>
      obtain ⟨rfl, rfl⟩ := List.cons.inj (hin.symm.trans hin')
      simp [hts] at hts'
    | unknownTarget hin' hts' ht hu =>
      obtain ⟨rfl, rfl⟩ := List.cons.inj (hin.symm.trans hin')
      obtain rfl := Option.some.inj (hts.symm.trans hts')
      exact (runs_iff.mp (hall _ ht)).1 hu
    | nothingMapped hin' hts' ht hc hmap =>
      obtain ⟨rfl, rfl⟩ := List.cons.inj (hin.symm.trans hin')
      obtain rfl := Option.some.inj (hts.symm.trans hts')
      obtain ⟨us, hus, -⟩ := (runs_iff.mp (hall _ ht)).2 _ hc
      simp [hmap] at hus
    | unknownMapped hin' hts' ht hc hus' hu hunknown =>
      obtain ⟨rfl, rfl⟩ := List.cons.inj (hin.symm.trans hin')
      obtain rfl := Option.some.inj (hts.symm.trans hts')
      obtain ⟨us, hus, hknown⟩ := (runs_iff.mp (hall _ ht)).2 _ hc
      obtain rfl := Option.some.inj (hus.symm.trans hus')
      exact hknown _ hu hunknown
  · intro h
    by_contra hnot
    apply h
    cases hin : a.inputs n with
    | nil => exact absurd (.nothingApplied hin) hnot
    | cons f args =>
      cases hts : (a.type? f).bind Ty.targets? with
      | none => exact absurd (.notAFunction hin hts) hnot
      | some ts =>
        refine ⟨f, args, ts, rfl, hts, fun t ht => runs_iff.mpr ⟨fun hu => ?_, fun bound hc => ?_⟩⟩
        · exact hnot (.unknownTarget hin hts ht hu)
        · cases hus : (a.mappedType? args bound).bind Ty.targets? with
          | none => exact absurd (.nothingMapped hin hts ht hc hus) hnot
          | some us =>
            exact ⟨us, rfl, fun u hu hunknown =>
              hnot (.unknownMapped hin hts ht hc hus hu hunknown)⟩

theorem not_clear_iff : ¬ a.Clear n ↔
    a.isApply n = true ∧ ¬ a.SelectsByConstant n ∧ a.Unresolved n := by
  simp only [Clear, isSome_indexing?_iff, unresolved_iff, Classical.not_imp, not_or]

end Arena

namespace Store

variable {s : Store} {root : GraphId}

/-- Once the analysis has succeeded nothing fails any more. -/
theorem cutDead_eq_error_iff {f : Fault} :
    (s.cutDead root).2 = .error f ↔ (s.keepRoots [root]).deadEdges root = .error f := by
  unfold cutDead
  cases hdead : (s.keepRoots [root]).deadEdges root with
  | error f' => simp [hdead]
  | ok dead =>
    obtain ⟨k, hk⟩ := (s.keepRoots [root]).exists_cutGraphs dead
    simp [hdead, hk]

/-- Cutting dead parts fails exactly if an apply that is live under the root is unresolved and does
not index by a constant. Then nothing but the roots has changed; and no cut fails once the parts to
be cut are known. -/
theorem cutDead_fails_iff (h : s.Reachable) (hac : s.arena.Acyclic)
    (hroot : root ∈ s.arena.graphIds) :
    ((∃ f, (s.cutDead root).2 = .error f) ↔ ∃ n ∈ (s.keepRoots [root]).live.nodes,
      s.arena.isApply n = true ∧ ¬ s.arena.SelectsByConstant n ∧ s.arena.Unresolved n) ∧
    (∀ f, (s.cutDead root).2 = .error f →
      (s.cutDead root).1 = s.keepRoots [root] ∧ (s.cutDead root).1.arena = s.arena) ∧
    ∀ dead, (s.keepRoots [root]).deadEdges root = .ok dead → ∃ k, (s.cutDead root).2 = .ok k := by
  have hsettled : (s.keepRoots [root]).Settled True :=
    h.settled.keepRoots (Or.inl trivial) fun g hg => List.mem_singleton.mp hg ▸ hroot
  have hok : (∃ f, (s.cutDead root).2 = .error f) ↔ ¬ ∃ k, (s.cutDead root).2 = .ok k := by
    cases (s.cutDead root).2 <;> simp
  refine ⟨?_, fun f hf => ?_, fun dead hdead => ?_⟩
  · rw [hok, exists_cutDead_iff hsettled hac]
    simp only [not_forall, Arena.not_clear_iff, exists_prop]
  · have hfail : s.cutDead root = (s.keepRoots [root], .error f) :=
      cutDead_of_error (cutDead_eq_error_iff.mp hf)
    rw [hfail]
    exact ⟨rfl, rfl⟩
  · cases hres : (s.cutDead root).2 with
    | ok k => exact ⟨k, rfl⟩
    | error f => simp [cutDead_eq_error_iff.mp hres] at hdead

/-- A graph that applies an operation without annotation. -/
def unannotated : Store := Store.empty.performAll
  [.newGraph "main", .addParameter ⟨0⟩ none, .constant (.prim .add) none,
    .apply ⟨0⟩ [⟨1⟩, ⟨0⟩] none, .setOutput ⟨0⟩ ⟨2⟩]

/-- The application is live and has no annotation in function position. -/
theorem cutDead_fails_iff_unannotated :
    (∃ f, (unannotated.cutDead ⟨0⟩).2 = .error f) ∧
      (unannotated.cutDead ⟨0⟩).1.arena = unannotated.arena := by
  have hcalled : unannotated.Called := Called.start.performAll (of_decide_eq_true (by cbv))
  have hin : unannotated.arena.inputs ⟨2⟩ = [⟨1⟩, ⟨0⟩] := by cbv
  have hlive : (⟨2⟩ : NodeId) ∈ (unannotated.keepRoots [⟨0⟩]).live.nodes :=
    of_decide_eq_true (by cbv)
  have hother : ¬ unannotated.arena.SelectsByConstant ⟨2⟩ := by
    have hnone : (unannotated.arena.indexing? ⟨2⟩).isSome = false := by cbv
    simp [← Arena.isSome_indexing?_iff, hnone]
  have hunresolved : unannotated.arena.Unresolved ⟨2⟩ := .notAFunction hin (by cbv)
  obtain ⟨hfails, hsame, -⟩ := cutDead_fails_iff hcalled.reachable (of_decide_eq_true (by cbv))
    (of_decide_eq_true (by cbv) : (⟨0⟩ : GraphId) ∈ unannotated.arena.graphIds)
  obtain ⟨f, hf⟩ := hfails.mpr ⟨⟨2⟩, hlive, by cbv, hother, hunresolved⟩
  exact ⟨⟨f, hf⟩, (hsame f hf).2⟩

end Store

end Midend
