import Mathlib
import Midend.Proofs.Arena.Refitted
import Midend.Proofs.Demand.Resolved
import Midend.Proofs.Merge.Sound
import Midend.Proofs.Program.Loaded

/-!
# What passes leave of an arena

A pass may cut the output of a graph and the parts of tuples and environments that it returns. All
other slots under the root keep what they compute: where the root still reaches them they hold a
node of the same graph that unfolds to the same tree.
-/

namespace Midend

/-- Whether a placeholder occurs in the tree. -/
inductive Unfolding.Stunted : Unfolding → Prop
  | dead (key : Option TypeKey) : Stunted (.constant .dead key)
  | apply {us : List Unfolding} {u : Unfolding} : u ∈ us → Stunted u → Stunted (.apply us)

namespace Arena

variable {a b c : Arena} {root : GraphId} {roots : List GraphId} {n m f : NodeId} {e : Edge}
  {u : Unfolding} {p : Prim}

theorem Unfolds.mem_nodeIds (h : a.Unfolds n u) : n ∈ a.nodeIds := by
  cases h with
  | constant hk => exact mem_nodeIds_of_kind? hk
  | parameter hk => exact mem_nodeIds_of_kind? hk
  | apply hk _ _ => exact mem_nodeIds_of_kind? hk

theorem Unfolds.not_stunted (h : a.Unfolds n u) (hdead : ∀ m, a.value? m ≠ some .dead) :
    ¬ u.Stunted := by
  induction h with
  | @constant n v hk =>
    rintro ⟨⟩
    exact hdead n (value?_of_kind? hk)
  | parameter hk => rintro ⟨⟩
  | @apply n inputs us hk hlen _ ih =>
    intro hs
    obtain _ | ⟨hmem, hu⟩ := hs
    obtain ⟨i, hi, rfl⟩ := List.mem_iff_getElem.mp hmem
    have hi' : i < inputs.length := hlen ▸ hi
    exact ih i _ _ (List.getElem?_eq_getElem hi') (List.getElem?_eq_getElem hi) hu

/-! ### Slots that may be cut -/

/-- Whether `n` returns an output or builds a part of one. -/
def Opens (a : Arena) (n : NodeId) : Prop :=
  (∃ g, a.ret? g = some n) ∨ a.applied? n = some .makeTuple ∨ a.applied? n = some .envSet

/-- What passes over `root` may make of an arena. -/
structure Descends (root : GraphId) (a b : Arena) : Prop where
  refitted : a.Refitted b
  returned : ∀ {n}, b.Returned [root] n → b.value? n ≠ some .dead → a.Returned [root] n
  unfolds : ∀ {n u}, b.Unfolds n u → ¬ u.Stunted → a.Unfolds n u
  kept : ∀ {e m}, b.Returned [root] e.owner → ¬ (1 ≤ e.index ∧ a.Opens e.owner) →
    a.slot? e = some m → ∃ m', b.slot? e = some m' ∧
      (a.isApply m = true → b.isApply m' = true ∧ b.owner? m' = a.owner? m) ∧
      ∀ u, b.Unfolds m' u ↔ a.Unfolds m u

theorem Descends.refl (root : GraphId) (a : Arena) : a.Descends root a :=
  ⟨.refl a, fun hn _ => hn, fun hu _ => hu,
    fun {_ m} _ _ hm => ⟨m, hm, fun happ => ⟨happ, rfl⟩, fun _ => Iff.rfl⟩⟩

theorem Descends.applied?_eq (h : a.Descends root b) (hn : b.Returned [root] n)
    (hp : b.applied? n = some p) : a.applied? n = some p := by
  obtain ⟨f', hf', hv⟩ := applied?_eq_some_iff.mp hp
  have hslot' : b.slot? ⟨n, 0⟩ = some f' := by rw [slot?, ← List.head?_eq_getElem?]; exact hf'
  obtain ⟨f, hf, -⟩ := h.refitted.slots hslot'
  obtain ⟨f'', hf'', -, hu⟩ := h.kept (e := ⟨n, 0⟩) hn (fun hop => by simp at hop) hf
  obtain rfl : f' = f'' := Option.some.inj (hslot'.symm.trans hf'')
  have hfu := (hu _).mp (.constant (kind?_of_value? hv))
  refine applied?_eq_some_iff.mpr ⟨f, ?_, value?_of_kind? (unfolds_constant_iff.mp hfu).1⟩
  rw [List.head?_eq_getElem?]
  exact hf

theorem Descends.opens (h : a.Descends root b) (hn : b.Returned [root] n) (hop : b.Opens n) :
    a.Opens n := by
  rcases hop with ⟨g, hr⟩ | hp | hp
  · exact Or.inl ⟨g, h.refitted.ret?.symm.trans hr⟩
  · exact Or.inr (Or.inl (h.applied?_eq hn hp))
  · exact Or.inr (Or.inr (h.applied?_eq hn hp))

/-- A change of this kind after another one is one. -/
theorem Descends.trans (h : a.Descends root b) (h' : b.Descends root c) : a.Descends root c := by
  have hreturned : ∀ {n}, c.Returned [root] n → c.value? n ≠ some .dead →
      b.Returned [root] n ∧ b.value? n ≠ some .dead := fun {n} hn hv =>
    ⟨h'.returned hn hv, fun hb =>
      hv ((h'.refitted.value (mem_nodeIds_of_value? hb)).trans hb)⟩
  refine ⟨h.refitted.trans h'.refitted, fun hn hv => ?_,
    fun hu hs => h.unfolds (h'.unfolds hu hs) hs, fun {e m} he hop hm => ?_⟩
  · obtain ⟨hb, hbv⟩ := hreturned hn hv
    exact h.returned hb hbv
  · have howner : e.owner ∈ a.nodeIds := mem_nodeIds_of_slot? hm
    have happ : a.isApply e.owner = true := isApply_of_mem_inputs (mem_inputs_of_slot? hm)
    -- an apply is no placeholder, so the arena between reaches it too
    have hvalue : c.value? e.owner ≠ some .dead := by
      rw [(h.refitted.trans h'.refitted).value howner, value?_eq_none_of_isApply happ]
      simp
    obtain ⟨hb, -⟩ := hreturned he hvalue
    obtain ⟨m₁, hm₁, hown₁, hu₁⟩ := h.kept hb hop hm
    obtain ⟨m₂, hm₂, hown₂, hu₂⟩ := h'.kept he (fun hopb => hop ⟨hopb.1, h.opens hb hopb.2⟩) hm₁
    refine ⟨m₂, hm₂, fun hmapp => ?_, fun u => (hu₂ u).trans (hu₁ u)⟩
    obtain ⟨happ₁, ho₁⟩ := hown₁ hmapp
    obtain ⟨happ₂, ho₂⟩ := hown₂ happ₁
    exact ⟨happ₂, ho₂.trans ho₁⟩

/-! ### Resolved calls -/

/-- Whether no operation that returns an output or builds a part of one is annotated as mapping the
first argument of a call. -/
def BuildsPlainly (a : Arena) (roots : List GraphId) : Prop :=
  ∀ f p, a.Returned roots f → a.value? f = some (.prim p) →
    p = .ret ∨ p = .makeTuple ∨ p = .envSet → ¬ a.MapsArgument f

/-- Whether a resolved call stays resolved when nodes that compute the same stand for its inputs. -/
def Exchangeable (a : Arena) (roots : List GraphId) : Prop :=
  ∀ n ms, a.Returned roots n → a.Resolves n (a.inputs n) → List.Forall₂ a.Alike (a.inputs n) ms →
    (∀ m ∈ ms, a.Returned roots m) → a.Resolves n ms

theorem Alike.refl (hu : ∃ u, a.Unfolds n u) : a.Alike n n := by
  obtain ⟨u, hu⟩ := hu
  exact ⟨⟨u, hu, hu⟩, fun happ => ⟨happ, rfl⟩⟩

theorem Alike.value?_eq (h : a.Alike n m) : a.value? m = a.value? n := by
  obtain ⟨⟨u, hn, hm⟩, -⟩ := h
  have hsame : ∀ {k j v}, a.Unfolds k u → a.Unfolds j u → a.value? k = some v →
      a.value? j = some v := by
    intro k j v hk hj hv
    obtain rfl := hk.unique (.constant (kind?_of_value? hv))
    exact value?_of_kind? (unfolds_constant_iff.mp hj).1
  cases hv : a.value? n with
  | some v => exact hsame hn hm hv
  | none =>
    cases hv' : a.value? m with
    | none => rfl
    | some v => exact absurd (hv.symm.trans (hsame hm hn hv')) (by simp)

/-- Nodes may stand for each other if those that compute the same are annotated alike. -/
theorem exchangeable_of_type?_eq (h : ∀ n m, a.Returned roots n → a.Returned roots m →
    a.Alike n m → a.type? m = a.type? n) : a.Exchangeable roots := by
  intro n ms hn hres hal hms
  refine hres.congr (List.forall₂_iff_get.mpr ⟨hal.length_eq, fun i hi hi' => ?_⟩)
  exact h _ _ (hn.input (List.get_mem _ ⟨i, hi⟩)) (hms _ (List.get_mem _ ⟨i, hi'⟩)) (hal.get hi hi')

section

variable (h : a.Descends root b) (hwf : a.WellFormed) (hac : a.Acyclic) (ht : a.Tidy)
include h hwf hac ht

/-- What stands in a slot that cannot be cut computes what stood there, and is annotated as
before. -/
theorem Descends.alike (hn : b.Returned [root] e.owner) (hop : ¬ (1 ≤ e.index ∧ a.Opens e.owner))
    (hm : a.slot? e = some m) : ∃ m', b.slot? e = some m' ∧ a.Alike m m' ∧
      a.Returned [root] m' ∧ b.type? m' = a.type? m' ∧ b.value? m' = a.value? m' := by
  obtain ⟨m', hm', hown, hu⟩ := h.kept hn hop hm
  obtain ⟨u, hmu⟩ := hac.exists_unfolds hwf (hwf.slot_mem hm)
  have hmu' := h.unfolds ((hu u).mpr hmu) (hmu.not_stunted ht.undead)
  have hmem := hmu'.mem_nodeIds
  have hvalue := h.refitted.value hmem
  refine ⟨m', hm', ⟨⟨u, hmu, hmu'⟩, fun happ => ?_⟩, ?_, h.refitted.type hmem, hvalue⟩
  · rw [← h.refitted.isApply hmem, ← h.refitted.owner hmem]
    exact hown happ
  · exact h.returned (hn.input (mem_inputs_of_slot? hm')) (hvalue ▸ ht.undead m')

theorem Descends.value?_slot {m' : NodeId} {v : Value} (hn : b.Returned [root] e.owner)
    (hop : ¬ (1 ≤ e.index ∧ a.Opens e.owner)) (hm : a.slot? e = some m)
    (hm' : b.slot? e = some m') (hv : a.value? m = some v) : b.value? m' = some v := by
  obtain ⟨m'', hm'', hal, -, -, hsame⟩ := h.alike hwf hac ht hn hop hm
  obtain rfl : m' = m'' := Option.some.inj (hm'.symm.trans hm'')
  rw [hsame, hal.value?_eq, hv]

/-- The function of an apply is never cut. -/
theorem Descends.applied?_of_applied? (hn : b.Returned [root] n) (hp : a.applied? n = some p) :
    b.applied? n = some p := by
  obtain ⟨f, hf, hv⟩ := applied?_eq_some_iff.mp hp
  have hlen := h.refitted.length (mem_nodeIds_of_mem_inputs (List.mem_of_head? hf))
  rw [List.head?_eq_getElem?] at hf
  have hlt : 0 < (b.inputs n).length := hlen ▸ (List.getElem?_eq_some_iff.mp hf).1
  have hf' : b.slot? ⟨n, 0⟩ = some (b.inputs n)[0] := List.getElem?_eq_getElem hlt
  refine applied?_eq_some_iff.mpr ⟨_, List.head?_eq_getElem?.trans hf', ?_⟩
  exact h.value?_slot hwf hac ht (e := ⟨n, 0⟩) hn (fun hop => by simp at hop) hf hf' hv

theorem Descends.forall₂_alike (hn : b.Returned [root] n) (hop : ¬ a.Opens n)
    (hmem : n ∈ a.nodeIds) : List.Forall₂ a.Alike (a.inputs n) (b.inputs n) ∧
      ∀ m ∈ b.inputs n, a.Returned [root] m ∧ b.type? m = a.type? m := by
  have hlen := h.refitted.length hmem
  have hall : ∀ (i : Nat) m, (a.inputs n)[i]? = some m → ∃ m', (b.inputs n)[i]? = some m' ∧
      a.Alike m m' ∧ a.Returned [root] m' ∧ b.type? m' = a.type? m' ∧
      b.value? m' = a.value? m' := fun i m hm =>
    h.alike hwf hac ht (e := ⟨n, i⟩) hn (fun hop' => hop hop'.2) hm
  constructor
  · refine List.forall₂_iff_get.mpr ⟨hlen.symm, fun i hi hi' => ?_⟩
    obtain ⟨m', hm', hal, -⟩ := hall i _ (List.getElem?_eq_getElem hi)
    rw [List.getElem?_eq_getElem hi', Option.some.injEq] at hm'
    simpa only [List.get_eq_getElem, hm'] using hal
  · intro m hm
    obtain ⟨i, hi, rfl⟩ := List.mem_iff_getElem.mp hm
    obtain ⟨m', hm', -, hret, htype, -⟩ := hall i _ (List.getElem?_eq_getElem (hlen ▸ hi))
    rw [List.getElem?_eq_getElem hi, Option.some.injEq] at hm'
    exact hm' ▸ ⟨hret, htype⟩

/-- An apply that indexes still does: its function and its key are the same constants. -/
theorem Descends.isSome_indexing? (hn : b.Returned [root] n) (hix : (a.indexing? n).isSome = true) :
    (b.indexing? n).isSome = true := by
  obtain ⟨ix, hix⟩ := Option.isSome_iff_exists.mp hix
  obtain ⟨f, key, hkey, hcases⟩ := indexing?_eq_some hix
  have hmem := mem_nodeIds_of_mem_inputs (base_mem_inputs hix)
  have hlen := h.refitted.length hmem
  -- what indexes applies another operation than what may be cut
  have hop : ¬ a.Opens n := by
    rintro (⟨g, hr⟩ | hp | hp)
    · have hp := ht.returns hr
      rcases hcases with ⟨happ, -, -⟩ | ⟨d, happ, -, -⟩ <;> simp [happ] at hp
    all_goals rcases hcases with ⟨happ, -, -⟩ | ⟨d, happ, -, -⟩ <;> simp [happ] at hp
  have happlied : ∀ {p}, a.applied? n = some p → b.applied? n = some p :=
    h.applied?_of_applied? hwf hac ht hn
  have hstep : ∀ key', (b.inputs n)[2]? = some key' → b.step? key' = some ix.step := by
    intro key' hkey'
    obtain ⟨v, hv, hstep⟩ := Option.bind_eq_some_iff.mp hkey
    have hin : (a.inputs n)[2]? = some key := by
      rcases hcases with ⟨-, hin, -⟩ | ⟨d, -, hin, -⟩ <;> rw [hin] <;> rfl
    rw [step?, h.value?_slot hwf hac ht (e := ⟨n, 2⟩) hn (fun hop' => hop hop'.2) hin hkey' hv]
    exact hstep
  rcases hcases with ⟨happ, hin, -⟩ | ⟨d, happ, hin, -⟩
  · rw [hin] at hlen
    obtain ⟨f', base', key', hin'⟩ := List.length_eq_three.mp hlen
    simp only [Arena.indexing?, happlied happ, hin', hstep key' (by rw [hin']; rfl)]
    rfl
  · rw [hin] at hlen
    match hin' : b.inputs n, hlen with
    | [f', base', key', d'], _ =>
      simp only [Arena.indexing?, happlied happ, hin', hstep key' (by rw [hin']; rfl)]
      rfl

/-- The function of an apply that returns an output or builds a part of one is as good as before,
and needs none of the arguments. -/
theorem Descends.resolves_of_opens (hplain : a.BuildsPlainly [root]) (hex : a.Exchangeable [root])
    (hn : b.Returned [root] n) (hna : a.Returned [root] n) (hop : a.Opens n)
    (hres : a.Resolves n (a.inputs n)) : b.Resolves n (b.inputs n) := by
  obtain ⟨p, hp, hprim⟩ : ∃ p, a.applied? n = some p ∧
      (p = .ret ∨ p = .makeTuple ∨ p = .envSet) := by
    rcases hop with ⟨g, hr⟩ | hp | hp
    · exact ⟨_, ht.returns hr, Or.inl rfl⟩
    · exact ⟨_, hp, Or.inr (Or.inl rfl)⟩
    · exact ⟨_, hp, Or.inr (Or.inr rfl)⟩
  obtain ⟨f, hf, hv⟩ := applied?_eq_some_iff.mp hp
  obtain ⟨args, hin⟩ : ∃ args, a.inputs n = f :: args := List.head?_eq_some_iff.mp hf
  obtain ⟨f', hf', hal, hret, htype, -⟩ := h.alike hwf hac ht (e := ⟨n, 0⟩) hn
    (fun hop' => by simp at hop') (by rw [slot?, hin]; rfl)
  have hargs : ∀ m ∈ args, m ∈ a.inputs n := fun m hm => by simp [hin, hm]
  have hres' : a.Resolves n (f' :: args) := by
    refine hex n (f' :: args) hna hres ?_ fun m hm => ?_
    · rw [hin]
      refine .cons hal (List.forall₂_same.mpr fun m hm => .refl ?_)
      exact hac.exists_unfolds hwf (hwf.input_mem (hargs m hm))
    · rcases List.mem_cons.mp hm with rfl | hm
      · exact hret
      · exact hna.input (hargs m hm)
  have hmaps := hplain f' p hret (hal.value?_eq.trans hv) hprim
  obtain ⟨args', hin'⟩ : ∃ args', b.inputs n = f' :: args' := by
    rw [slot?, ← List.head?_eq_getElem?] at hf'
    exact List.head?_eq_some_iff.mp hf'
  rw [hin']
  exact hres'.of_not_mapsArgument hmaps htype args'

/-- Every call is still resolved: the inputs of one that builds no part of an output are all as good
as before. -/
theorem Descends.clear (hplain : a.BuildsPlainly [root]) (hex : a.Exchangeable [root])
    (hclear : ∀ n, a.Returned [root] n → a.Clear n) (hn : b.Returned [root] n) : b.Clear n := by
  intro happ
  have hvalue : b.value? n = none := value?_eq_none_of_isApply happ
  have hna : a.Returned [root] n := h.returned hn (by simp [hvalue])
  have hnb : n ∈ b.nodeIds := by
    refine Decidable.byContradiction fun hnot => ?_
    simp [isApply, b.kind?_eq_none hnot] at happ
  have hmem : n ∈ a.nodeIds := h.refitted.mem_nodeIds hnb (by simp [hvalue])
  rcases hclear n hna (h.refitted.isApply hmem ▸ happ) with hix | hres
  · exact Or.inl (h.isSome_indexing? hwf hac ht hn hix)
  · refine Or.inr ?_
    by_cases hop : a.Opens n
    · exact h.resolves_of_opens hwf hac ht hplain hex hn hna hop hres
    · obtain ⟨hal, hall⟩ := h.forall₂_alike hwf hac ht hn hop hmem
      exact (hex n _ hna hres hal fun m hm => (hall m hm).1).congr
        (List.forall₂_same.mpr fun m hm => (hall m hm).2)

end

end Arena

end Midend
