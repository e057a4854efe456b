import Midend.Proofs.Arena.Named
import Midend.Proofs.Arena.WellFormed

/-!
# Refitted slots

A pass changes an arena only in what slots hold: a node of the same graph as before, or a
placeholder that it has made.
-/

namespace Midend.Arena

variable {a b c : Arena} {n m r old new : NodeId} {g : GraphId} {e : Edge} {roots : List GraphId}

theorem Returned.mem_nodeIds (h : a.Returned roots n) (hwf : a.WellFormed) : n ∈ a.nodeIds := by
  obtain ⟨g, -, r, hr, hu⟩ := h
  exact hwf.mem_of_under (hwf.ret_mem hr) hu

/-! ### Ownership -/

/-- Whether just the constants float freely and a node uses nodes of its own graph and constants. -/
structure Owned (a : Arena) : Prop where
  input : ∀ {n m}, m ∈ a.inputs n → a.owner? m = a.owner? n ∨ a.owner? m = none
  free_iff : ∀ {n}, n ∈ a.nodeIds → (a.owner? n = none ↔ ∃ v, a.value? n = some v)

theorem Owned.under (h : a.Owned) (hr : a.owner? r = some g) (hu : a.Under r n) :
    a.owner? n = some g ∨ a.owner? n = none := by
  induction hu with
  | refl => exact Or.inl hr
  | @tail k n _ hn ih =>
    rcases ih with hk | hk
    · exact hk ▸ h.input hn
    · obtain ⟨v, hv⟩ := (h.free_iff (mem_nodeIds_of_mem_inputs hn)).mp hk
      have hnil := inputs_eq_nil_of_value? hv
      simp [Uses, hnil] at hn

/-- A return node is used by none of the nodes that return nodes of reachable graphs are over: the
user would lie under the very same return node. -/
theorem Owned.not_mem_inputs_of_ret (h : a.Owned) (hwf : a.WellFormed) (hac : a.Acyclic)
    (hn : a.Returned roots n) (hr : a.ret? g = some r) : r ∉ a.inputs n := by
  intro hin
  obtain ⟨g', -, r', hr', hu⟩ := hn
  have howner : a.owner? n = some g := by
    rcases h.input hin with ho | ho
    · exact ho.symm.trans (hwf.ret_owner hr)
    · simp [hwf.ret_owner hr] at ho
  rcases h.under (hwf.ret_owner hr') hu with ho | ho
  · obtain rfl : g = g' := Option.some.inj (howner.symm.trans ho)
    obtain rfl : r = r' := Option.some.inj (hr.symm.trans hr')
    exact hac.not_under hin hu
  · simp [howner] at ho

/-- Whether inputs form no cycle and nodes keep to the rules of ownership. -/
structure Orderly (a : Arena) : Prop where
  acyclic : a.Acyclic
  owned : a.Owned
  wellFormed : a.WellFormed

/-- Constants belong to no graph, and other inputs to the graph of the node that uses them. -/
theorem Orderly.owner_input (ha : a.Orderly) (hm : m ∈ a.inputs n) :
    a.owner? m = if (a.value? m).isSome then none else a.owner? n := by
  have hfree := ha.owned.free_iff (ha.wellFormed.input_mem hm)
  split
  · next hv => exact hfree.mpr (Option.isSome_iff_exists.mp hv)
  · next hv =>
    refine (ha.owned.input hm).resolve_right fun ho => hv ?_
    exact Option.isSome_iff_exists.mpr (hfree.mp ho)

/-! ### Changed slots -/

/-- Whether `b` is `a` with further placeholders and with other nodes in slots, each of the graph of
the node that it stands for or of none. -/
structure Refitted (a b : Arena) : Prop where
  nodeIds : ∀ {n}, n ∈ a.nodeIds → n ∈ b.nodeIds
  graphs : b.graphs = a.graphs
  value : ∀ {n}, n ∈ a.nodeIds → b.value? n = a.value? n
  type : ∀ {n}, n ∈ a.nodeIds → b.type? n = a.type? n
  owner : ∀ {n}, n ∈ a.nodeIds → b.owner? n = a.owner? n
  isApply : ∀ {n}, n ∈ a.nodeIds → b.isApply n = a.isApply n
  length : ∀ {n}, n ∈ a.nodeIds → (b.inputs n).length = (a.inputs n).length
  fresh : ∀ {n}, n ∈ b.nodeIds → n ∉ a.nodeIds → b.value? n = some .dead ∧ b.owner? n = none
  slots : ∀ {e m'}, b.slot? e = some m' →
    ∃ m, a.slot? e = some m ∧ (b.owner? m' = a.owner? m ∨ b.owner? m' = none)

theorem Refitted.refl (a : Arena) : a.Refitted a :=
  ⟨id, rfl, fun _ => rfl, fun _ => rfl, fun _ => rfl, fun _ => rfl, fun _ => rfl,
    fun hn hnot => absurd hn hnot, fun hm => ⟨_, hm, Or.inl rfl⟩⟩

theorem Refitted.trans (h : a.Refitted b) (h' : b.Refitted c) : a.Refitted c := by
  refine ⟨fun hn => h'.nodeIds (h.nodeIds hn), h'.graphs.trans h.graphs,
    fun hn => (h'.value (h.nodeIds hn)).trans (h.value hn),
    fun hn => (h'.type (h.nodeIds hn)).trans (h.type hn),
    fun hn => (h'.owner (h.nodeIds hn)).trans (h.owner hn),
    fun hn => (h'.isApply (h.nodeIds hn)).trans (h.isApply hn),
    fun hn => (h'.length (h.nodeIds hn)).trans (h.length hn), fun {n} hn hnot => ?_,
    fun {e m₂} hm₂ => ?_⟩
  · by_cases hb : n ∈ b.nodeIds
    · rw [h'.value hb, h'.owner hb]
      exact h.fresh hb hnot
    · exact h'.fresh hn hb
  · obtain ⟨m₁, hm₁, ho₂⟩ := h'.slots hm₂
    obtain ⟨m, hm, ho₁⟩ := h.slots hm₁
    refine ⟨m, hm, ?_⟩
    rcases ho₂ with ho₂ | ho₂
    · rw [ho₂]
      exact ho₁
    · exact Or.inr ho₂

theorem refitted_setSlot (hslot : a.slot? e = some old)
    (ho : a.owner? new = a.owner? old ∨ a.owner? new = none) : a.Refitted (a.setSlot e new) := by
  refine ⟨(a.mem_nodeIds_setSlot e new).mpr, rfl, fun _ => a.value?_setSlot e new,
    fun _ => a.type?_setSlot e new, fun _ => a.owner?_setSlot e new,
    fun _ => a.isApply_setSlot e new,
    fun {n} _ => ?_, fun hn hnot => absurd ((a.mem_nodeIds_setSlot e new).mp hn) hnot,
    fun {e' m'} hm' => ?_⟩
  · rw [inputs_setSlot]
    split <;> simp
  · rw [owner?_setSlot]
    by_cases he : e' = e
    · subst he
      rw [slot?_setSlot_self new hslot, Option.some.injEq] at hm'
      exact ⟨old, hslot, hm' ▸ ho⟩
    · rw [slot?_setSlot_of_ne new he] at hm'
      exact ⟨m', hm', Or.inl rfl⟩

theorem refitted_addNode (a : Arena) (t : Option Ty) :
    a.Refitted (a.addNode (.constant .dead) none t).2 := by
  have hnode : ∀ {n}, n ∈ a.nodeIds →
      (a.addNode (.constant .dead) none t).2.node? n = a.node? n := fun hn =>
    a.node?_addNode_of_mem _ _ _ hn
  have hnew : (a.addNode (.constant .dead) none t).2.node? ⟨a.nodes.size⟩ =
      some ⟨.constant .dead, none, t, none⟩ := by simp [node?_addNode]
  have hvalue : (a.addNode (.constant .dead) none t).2.value? ⟨a.nodes.size⟩ = some .dead := by
    simp [value?, kind?, hnew, NodeKind.value?]
  have howner : (a.addNode (.constant .dead) none t).2.owner? ⟨a.nodes.size⟩ = none := by
    simp [owner?, hnew]
  refine ⟨fun hn => (a.mem_nodeIds_addNode _ _ _).mpr (Or.inr hn), rfl,
    fun hn => value?_congr (hnode hn), fun hn => type?_congr (hnode hn),
    fun hn => owner?_congr (hnode hn), fun hn => ?_, fun hn => ?_, fun {n} hn hnot => ?_,
    fun {e m} hm => ?_⟩
  · simp only [Arena.isApply, kind?_congr (hnode hn)]
  · rw [inputs_congr (hnode hn)]
  · obtain rfl := ((a.mem_nodeIds_addNode _ _ _).mp hn).resolve_right hnot
    exact ⟨hvalue, howner⟩
  · have hmem : e.owner ∈ a.nodeIds := by
      refine ((a.mem_nodeIds_addNode _ _ _).mp (mem_nodeIds_of_slot? hm)).resolve_left fun heq => ?_
      have hin := mem_inputs_of_slot? hm
      rw [heq, inputs_eq_nil_of_value? hvalue] at hin
      cases hin
    refine ⟨m, (slot?_congr (inputs_congr (hnode hmem))).symm.trans hm, ?_⟩
    by_cases hsize : m = ⟨a.nodes.size⟩
    · exact Or.inr (hsize ▸ howner)
    · exact Or.inl (owner?_congr (by rw [node?_addNode, if_neg hsize]))

/-! ### What refitting keeps -/

theorem Refitted.ret? (h : a.Refitted b) : b.ret? g = a.ret? g :=
  ret?_congr (congrArg (fun graphs : Array Graph => graphs[g.index]?) h.graphs)

theorem Refitted.graphIds (h : a.Refitted b) : b.graphIds = a.graphIds := by
  simp only [Arena.graphIds, h.graphs]

theorem Refitted.kind?_eq (h : a.Refitted b) (hn : n ∈ a.nodeIds) (hin : b.inputs n = a.inputs n) :
    b.kind? n = a.kind? n := by
  have hv := h.value hn
  have happ := h.isApply hn
  obtain ⟨d, hd⟩ := Option.isSome_iff_exists.mp (mem_nodeIds_iff_node?.mp hn)
  obtain ⟨d', hd'⟩ := Option.isSome_iff_exists.mp (mem_nodeIds_iff_node?.mp (h.nodeIds hn))
  have hk : a.kind? n = some d.kind := by simp [kind?, hd]
  have hk' : b.kind? n = some d'.kind := by simp [kind?, hd']
  rw [hk, hk']
  simp only [value?, inputs, Arena.isApply, hk, hk', Option.bind_some] at hv happ hin
  generalize d.kind = x at hv happ hin ⊢
  generalize d'.kind = y at hv happ hin ⊢
  cases x <;> cases y <;> simp_all [NodeKind.value?, NodeKind.inputs]

theorem Refitted.owned (h : a.Refitted b) (ha : a.Owned) : b.Owned := by
  refine ⟨fun {n m'} hm' => ?_, fun {n} hn => ?_⟩
  · obtain ⟨i, hslot⟩ := exists_slot?_of_mem hm'
    obtain ⟨m, hm, ho⟩ := h.slots hslot
    rcases ho with ho | ho
    · rw [ho, h.owner (mem_nodeIds_of_slot? hm)]
      exact ha.input (mem_inputs_of_slot? hm)
    · exact Or.inr ho
  · by_cases hmem : n ∈ a.nodeIds
    · rw [h.owner hmem, h.value hmem]
      exact ha.free_iff hmem
    · obtain ⟨hv, ho⟩ := h.fresh hn hmem
      exact ⟨fun _ => ⟨_, hv⟩, fun _ => ho⟩

theorem Refitted.mem_nodeIds (h : a.Refitted b) (hn : n ∈ b.nodeIds)
    (hv : b.value? n ≠ some .dead) :
    n ∈ a.nodeIds :=
  Decidable.byContradiction fun hnot => hv (h.fresh hn hnot).1

end Midend.Arena
