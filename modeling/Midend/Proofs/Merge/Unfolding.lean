import Midend.Merge
import Midend.Proofs.Arena.Named
import Midend.Proofs.Arena.WellFormed

/-!
# Unfoldings

The tree that a node stands for when sharing is forgotten: payload and type key of a constant, the
number of a parameter, the trees of an apply's inputs. A node has at most one, and one if the inputs
form no cycle.
-/

namespace Midend

/-- What a node computes, written out as a tree. -/
inductive Unfolding where
  | constant (value : Value) (key : Option TypeKey)
  | parameter (n : NodeId)
  | apply (inputs : List Unfolding)

/-- Whether a constant of the tree names a graph. -/
inductive Unfolding.Names : Unfolding → GraphId → Prop
  | constant (g : GraphId) (key : Option TypeKey) : Names (.constant (.graph g) key) g
  | apply {us : List Unfolding} {u : Unfolding} {g : GraphId} : u ∈ us → Names u g →
      Names (.apply us) g

/-- The shape of a node that unfolds to the tree, over the hashes of what it uses. -/
def Unfolding.shape [Hashable Shape] : Unfolding → Shape
  | .constant v key => .constant v key
  | .parameter n => .parameter n
  | .apply us => .apply (us.map fun u => hash u.shape)

namespace Arena

/-- Whether a node unfolds to a tree. -/
inductive Unfolds (a : Arena) : NodeId → Unfolding → Prop
  | constant {n : NodeId} {v : Value} : a.kind? n = some (.constant v) →
      Unfolds a n (.constant v (a.typeKey? n))
  | parameter {n : NodeId} : a.kind? n = some .parameter → Unfolds a n (.parameter n)
  | apply {n : NodeId} {inputs : List NodeId} {us : List Unfolding} :
      a.kind? n = some (.apply inputs) → inputs.length = us.length →
      (∀ (i : Nat) m u, inputs[i]? = some m → us[i]? = some u → Unfolds a m u) →
        Unfolds a n (.apply us)

variable {a : Arena} {n m old new : NodeId} {g : GraphId} {u w : Unfolding} {e : Edge}

/-- A node has at most one unfolding. -/
theorem Unfolds.unique (h : a.Unfolds n u) (h' : a.Unfolds n w) : u = w := by
  induction h generalizing w with
  | constant hk =>
    cases h' with
    | constant hk' =>
      rw [hk, Option.some.injEq, NodeKind.constant.injEq] at hk'
      rw [hk']
    | parameter hk' => simp [hk] at hk'
    | apply hk' _ _ => simp [hk] at hk'
  | parameter hk =>
    cases h' with
    | constant hk' => simp [hk] at hk'
    | parameter _ => rfl
    | apply hk' _ _ => simp [hk] at hk'
  | @apply n inputs us hk hlen _ ih =>
    cases h' with
    | constant hk' => simp [hk] at hk'
    | parameter hk' => simp [hk] at hk'
    | @apply _ inputs' ws hk' hlen' hall' =>
      have hin : inputs' = inputs := by simpa [hk] using hk'.symm
      subst hin
      have heq : us = ws := by
        refine List.ext_getElem (hlen.symm.trans hlen') fun i hi hi' => ?_
        have hlt : i < inputs'.length := hlen ▸ hi
        exact ih i inputs'[i] us[i] (List.getElem?_eq_getElem hlt) (List.getElem?_eq_getElem hi)
          (hall' i inputs'[i] ws[i] (List.getElem?_eq_getElem hlt) (List.getElem?_eq_getElem hi'))
      rw [heq]

theorem unfolds_constant_iff {v : Value} {key : Option TypeKey} :
    a.Unfolds n (.constant v key) ↔ a.kind? n = some (.constant v) ∧ a.typeKey? n = key := by
  constructor
  · generalize hu : Unfolding.constant v key = u
    rintro (hk | hk | ⟨hk, -, -⟩)
    · obtain ⟨rfl, rfl⟩ := Unfolding.constant.inj hu
      exact ⟨hk, rfl⟩
    · cases hu
    · cases hu
  · rintro ⟨hk, rfl⟩
    exact .constant hk

theorem unfolds_parameter_iff :
    a.Unfolds n (.parameter m) ↔ n = m ∧ a.kind? n = some .parameter := by
  constructor
  · rintro (hk | hk | hk)
    exact ⟨rfl, hk⟩
  · rintro ⟨rfl, hk⟩
    exact .parameter hk

theorem unfolds_apply_iff {us : List Unfolding} : a.Unfolds n (.apply us) ↔
    ∃ inputs, a.kind? n = some (.apply inputs) ∧ inputs.length = us.length ∧
      ∀ (i : Nat) m u, inputs[i]? = some m → us[i]? = some u → a.Unfolds m u := by
  constructor
  · rintro (hk | hk | ⟨hk, hlen, hall⟩)
    exact ⟨_, hk, hlen, hall⟩
  · rintro ⟨inputs, hk, hlen, hall⟩
    exact .apply hk hlen hall

/-- Where the inputs form no cycle every node has an unfolding. -/
theorem Acyclic.exists_unfolds (hac : a.Acyclic) (hwf : a.WellFormed) (hn : n ∈ a.nodeIds) :
    ∃ u, a.Unfolds n u := by
  induction n using hac.induction with
  | step n ih =>
    obtain ⟨d, hd⟩ := Option.isSome_iff_exists.mp (mem_nodeIds_iff_node?.mp hn)
    have hkind : a.kind? n = some d.kind := by simp [kind?, hd]
    cases hk : d.kind with
    | constant v => exact ⟨_, .constant (hkind.trans (congrArg some hk))⟩
    | parameter => exact ⟨_, .parameter (hkind.trans (congrArg some hk))⟩
    | apply inputs =>
      have happ : a.kind? n = some (.apply inputs) := hkind.trans (congrArg some hk)
      have hin : ∀ m ∈ inputs, ∃ u, a.Unfolds m u := by
        intro m hm
        rw [← inputs_of_kind? happ] at hm
        exact ih m hm (hwf.input_mem hm)
      obtain ⟨us, hlen, hus⟩ : ∃ us : List Unfolding, inputs.length = us.length ∧
          ∀ (i : Nat) m u, inputs[i]? = some m → us[i]? = some u → a.Unfolds m u := by
        clear happ hk
        induction inputs with
        | nil => exact ⟨[], rfl, fun i m u hm => by simp at hm⟩
        | cons x xs ihx =>
          obtain ⟨u, hu⟩ := hin x List.mem_cons_self
          obtain ⟨us, hlen, hus⟩ := ihx fun m hm => hin m (List.mem_cons_of_mem x hm)
          refine ⟨u :: us, congrArg (· + 1) hlen, fun i m w hm hw => ?_⟩
          cases i with
          | zero =>
            rw [List.getElem?_cons_zero, Option.some.injEq] at hm hw
            exact hm ▸ hw ▸ hu
          | succ i => exact hus i m w hm hw
      exact ⟨_, .apply happ hlen hus⟩

theorem typeKey?_setSlot (e : Edge) (new : NodeId) :
    (a.setSlot e new).typeKey? n = a.typeKey? n := by
  simp only [typeKey?, type?_setSlot]

/-- What stands in a slot may be exchanged for a node that unfolds to the same tree. The induction
is on the tree, since the exchanged node does not occur under the one it replaces. -/
theorem Unfolds.setSlot (hslot : a.slot? e = some old)
    (hsame : ∀ u, a.Unfolds old u → a.Unfolds new u) :
    ∀ u n, a.Unfolds n u → (a.setSlot e new).Unfolds n u
  | .constant v key, n, h => by
    cases h with
    | constant hk =>
      rw [← typeKey?_setSlot e new]
      exact .constant (kind?_of_value? ((a.value?_setSlot e new).trans (value?_of_kind? hk)))
  | .parameter _, n, h => by
    cases h with
    | parameter hk =>
      refine .parameter ?_
      rw [kind?_setSlot, hk]
      split <;> rfl
  | .apply us, n, h => by
    obtain ⟨inputs, hk, hlen, hall⟩ : ∃ inputs, a.kind? n = some (.apply inputs) ∧
        inputs.length = us.length ∧
        ∀ (i : Nat) m u, inputs[i]? = some m → us[i]? = some u → a.Unfolds m u := by
      cases h with
      | apply hk hlen hall => exact ⟨_, hk, hlen, hall⟩
    have hslots : ∀ i, (a.setSlot e new).slot? ⟨n, i⟩ =
        if ⟨n, i⟩ = e then some new else inputs[i]? := by
      intro i
      by_cases hi : (⟨n, i⟩ : Edge) = e
      · rw [if_pos hi, hi, slot?_setSlot_self new hslot]
      · rw [if_neg hi, slot?_setSlot_of_ne new hi, slot?, inputs_of_kind? hk]
    have hk' : (a.setSlot e new).kind? n = some (.apply ((a.setSlot e new).inputs n)) := by
      rw [kind?_setSlot, inputs_setSlot, hk, inputs_of_kind? hk]
      by_cases hn : n = e.owner
      · simp [hn]
      · simp [hn]
    have hlen' : ((a.setSlot e new).inputs n).length = us.length := by
      rw [← hlen, inputs_setSlot, inputs_of_kind? hk]
      split <;> simp
    refine .apply hk' hlen' fun i m u hm hu => ?_
    have hmem : u ∈ us := List.mem_of_getElem? hu
    have hsize : sizeOf u < sizeOf us := List.sizeOf_lt_of_mem hmem
    rw [show ((a.setSlot e new).inputs n)[i]? = (a.setSlot e new).slot? ⟨n, i⟩ from rfl,
      hslots] at hm
    by_cases hi : (⟨n, i⟩ : Edge) = e
    · rw [if_pos hi, Option.some.injEq] at hm
      have hold : inputs[i]? = some old := by
        rw [← hslot, ← hi, slot?, inputs_of_kind? hk]
      exact hm ▸ Unfolds.setSlot hslot hsame u new (hsame u (hall i old u hold hu))
    · rw [if_neg hi] at hm
      exact Unfolds.setSlot hslot hsame u m (hall i m u hm hu)
termination_by u => sizeOf u

/-! ### Graphs named in an unfolding -/

/-- The graphs that constants under a node name are those that its unfolding names. -/
theorem Unfolds.names_iff (h : a.Unfolds n u) :
    u.Names g ↔ ∃ m, a.Under n m ∧ a.heldGraph? m = some g := by
  induction h with
  | @constant n v hk =>
    constructor
    · rintro ⟨⟩
      exact ⟨n, Under.refl a n, heldGraph?_eq_some_iff.mpr (value?_of_kind? hk)⟩
    · rintro ⟨m, hu, hm⟩
      have hv := value?_of_kind? hk
      rw [← eq_of_under_of_inputs_eq_nil hu (inputs_eq_nil_of_value? hv),
        heldGraph?_eq_some_iff, hv, Option.some.injEq] at hm
      rw [hm]
      exact .constant g _
  | @parameter n hk =>
    constructor
    · rintro ⟨⟩
    · rintro ⟨m, hu, hm⟩
      have hpar : a.isParameter n = true := by simp [isParameter, hk]
      rw [← eq_of_under_of_inputs_eq_nil hu (inputs_eq_nil_of_isParameter hpar),
        heldGraph?_eq_some_iff] at hm
      simp [kind?_of_value? hm] at hk
  | @apply n inputs us hk hlen _ ih =>
    constructor
    · intro hnames
      obtain _ | ⟨hmem, hu⟩ := hnames
      obtain ⟨i, hi, hget⟩ := List.mem_iff_getElem.mp hmem
      have hi' : i < inputs.length := hlen ▸ hi
      obtain ⟨m, hm, hg⟩ := (ih i inputs[i] us[i] (List.getElem?_eq_getElem hi')
        (List.getElem?_eq_getElem hi)).mp (hget ▸ hu)
      refine ⟨m, Under.of_inputs ?_ hm, hg⟩
      rw [inputs_of_kind? hk]
      exact List.getElem_mem hi'
    · rintro ⟨m, hu, hg⟩
      rcases under_iff.mp hu with rfl | ⟨k, hmem, hm⟩
      · rw [heldGraph?_eq_some_iff] at hg
        simp [kind?_of_value? hg] at hk
      · rw [inputs_of_kind? hk] at hmem
        obtain ⟨i, hi, rfl⟩ := List.mem_iff_getElem.mp hmem
        have hi' : i < us.length := hlen ▸ hi
        refine .apply (List.getElem_mem hi') ((ih i inputs[i] us[i]
          (List.getElem?_eq_getElem hi) (List.getElem?_eq_getElem hi')).mpr ⟨m, hm, hg⟩)

end Arena

end Midend
