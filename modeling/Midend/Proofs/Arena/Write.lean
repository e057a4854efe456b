import Midend.Store

/-!
# Reading an arena after a write

What the readers of an arena answer after a node or a graph was added, a slot was pointed elsewhere,
or the parts of a graph changed.
-/

namespace Midend

/-! ### From nodes and graphs to the other readers -/

namespace Arena

variable {a b : Arena} {n : NodeId} {g : GraphId}

theorem kind?_congr (h : b.node? n = a.node? n) : b.kind? n = a.kind? n := by
  simp only [kind?, h]

theorem inputs_congr (h : b.node? n = a.node? n) : b.inputs n = a.inputs n := by
  simp only [inputs, kind?_congr h]

theorem value?_congr (h : b.node? n = a.node? n) : b.value? n = a.value? n := by
  simp only [value?, kind?_congr h]

theorem heldGraph?_congr (h : b.value? n = a.value? n) : b.heldGraph? n = a.heldGraph? n := by
  simp only [heldGraph?, h]

theorem isParameter_congr (h : b.kind? n = a.kind? n) : b.isParameter n = a.isParameter n := by
  simp only [isParameter, h]

theorem owner?_congr (h : b.node? n = a.node? n) : b.owner? n = a.owner? n := by
  simp only [owner?, h]

theorem type?_congr (h : b.node? n = a.node? n) : b.type? n = a.type? n := by
  simp only [type?, h]

theorem parameters_congr (h : b.graph? g = a.graph? g) : b.parameters g = a.parameters g := by
  simp only [parameters, h]

theorem ret?_congr (h : b.graph? g = a.graph? g) : b.ret? g = a.ret? g := by
  simp only [ret?, h]

theorem anchors_congr (h : b.graph? g = a.graph? g) : b.anchors g = a.anchors g := by
  simp only [anchors, parameters_congr h, ret?_congr h]

theorem slot?_congr {e : Edge} (h : b.inputs e.owner = a.inputs e.owner) :
    b.slot? e = a.slot? e := by
  simp only [slot?, h]

theorem mem_inputs_of_slot? {e : Edge} {m : NodeId} (h : a.slot? e = some m) :
    m ∈ a.inputs e.owner :=
  List.mem_of_getElem? h

theorem exists_slot?_of_mem {m : NodeId} (h : m ∈ a.inputs n) : ∃ i, a.slot? ⟨n, i⟩ = some m := by
  obtain ⟨i, hi⟩ := List.mem_iff_getElem?.mp h
  exact ⟨i, hi⟩

theorem mem_nodeIds_of_kind? {k : NodeKind} (h : a.kind? n = some k) : n ∈ a.nodeIds := by
  by_cases hn : n ∈ a.nodeIds
  · exact hn
  · rw [a.kind?_eq_none hn] at h
    cases h

theorem mem_nodeIds_of_mem_inputs {m : NodeId} (h : m ∈ a.inputs n) : n ∈ a.nodeIds := by
  by_cases hn : n ∈ a.nodeIds
  · exact hn
  · rw [a.inputs_eq_nil hn] at h
    cases h

theorem mem_nodeIds_of_slot? {e : Edge} {m : NodeId} (h : a.slot? e = some m) :
    e.owner ∈ a.nodeIds :=
  mem_nodeIds_of_mem_inputs (mem_inputs_of_slot? h)

theorem kind?_of_value? {v : Value} (h : a.value? n = some v) :
    a.kind? n = some (.constant v) := by
  simp only [value?, Option.bind_eq_some_iff] at h
  obtain ⟨k, hk, hv⟩ := h
  cases k with
  | constant w => rw [hk, Option.some.inj hv]
  | parameter => cases hv
  | apply inputs => cases hv

theorem value?_of_kind? {v : Value} (h : a.kind? n = some (.constant v)) :
    a.value? n = some v := by
  simp [value?, h, NodeKind.value?]

theorem mem_nodeIds_of_value? {v : Value} (h : a.value? n = some v) : n ∈ a.nodeIds :=
  mem_nodeIds_of_kind? (kind?_of_value? h)

theorem inputs_of_kind? {inputs : List NodeId} (h : a.kind? n = some (.apply inputs)) :
    a.inputs n = inputs := by
  simp [Arena.inputs, h, NodeKind.inputs]

theorem value?_eq_none_of_isApply (h : a.isApply n = true) : a.value? n = none := by
  cases hv : a.value? n with
  | none => rfl
  | some v => simp [isApply, kind?_of_value? hv] at h

theorem inputs_eq_nil_of_value? {v : Value} (h : a.value? n = some v) : a.inputs n = [] := by
  simp [inputs, kind?_of_value? h, NodeKind.inputs]

theorem inputs_eq_nil_of_isParameter (h : a.isParameter n = true) : a.inputs n = [] := by
  have hk : a.kind? n = some .parameter := by simpa [isParameter] using h
  simp [inputs, hk, NodeKind.inputs]

theorem kind?_of_mem_inputs {m : NodeId} (h : m ∈ a.inputs n) :
    a.kind? n = some (.apply (a.inputs n)) := by
  cases hk : a.kind? n with
  | none => simp [inputs, hk] at h
  | some k =>
    cases k with
    | constant v => simp [inputs, hk, NodeKind.inputs] at h
    | parameter => simp [inputs, hk, NodeKind.inputs] at h
    | apply xs => simp [inputs, hk, NodeKind.inputs]

theorem heldGraph?_eq_some_iff : a.heldGraph? n = some g ↔ a.value? n = some (.graph g) := by
  simp only [heldGraph?, Option.bind_eq_some_iff]
  constructor
  · rintro ⟨v, hv, hg⟩
    cases v with
    | graph h => rw [hv, Option.some.inj hg]
    | _ => cases hg
  · exact fun h => ⟨.graph g, h, rfl⟩

theorem isApply_of_mem_inputs {m : NodeId} (h : m ∈ a.inputs n) : a.isApply n = true := by
  simp [isApply, kind?_of_mem_inputs h]

theorem kind?_of_isApply (h : a.isApply n = true) : a.kind? n = some (.apply (a.inputs n)) := by
  unfold isApply at h
  split at h
  · next inputs hk => rw [hk, inputs_of_kind? hk]
  · cases h

theorem applied?_eq_some_iff {p : Prim} :
    a.applied? n = some p ↔ ∃ f, (a.inputs n).head? = some f ∧ a.value? f = some (.prim p) := by
  simp only [applied?, Option.bind_eq_some_iff]
  constructor
  · rintro ⟨f, hf, v, hv, hp⟩
    cases v with
    | prim q => exact ⟨f, hf, by rw [hv, Option.some.inj hp]⟩
    | _ => cases hp
  · rintro ⟨f, hf, hv⟩
    exact ⟨f, hf, .prim p, hv, rfl⟩

theorem mem_anchors {m : NodeId} :
    m ∈ a.anchors g ↔ m ∈ a.parameters g ∨ a.ret? g = some m := by
  simp only [anchors, List.mem_append, Option.mem_toList]

theorem mem_graphIds_of_ret? {r : NodeId} (h : a.ret? g = some r) : g ∈ a.graphIds := by
  by_cases hg : g ∈ a.graphIds
  · exact hg
  · simp [ret?, a.graph?_eq_none hg] at h

theorem output?_eq_some_iff {out : NodeId} :
    a.output? g = some out ↔ ∃ r, a.ret? g = some r ∧ a.slot? ⟨r, 1⟩ = some out := by
  simp only [output?, Option.bind_eq_some_iff, slot?]

theorem mem_slots {m : NodeId} {e : Edge} :
    (m, e) ∈ a.slots n ↔ e.owner = n ∧ a.slot? e = some m := by
  obtain ⟨o, i⟩ := e
  simp only [slots, List.mem_map, Prod.exists, Prod.mk.injEq, Edge.mk.injEq,
    List.mem_zipIdx_iff_getElem?, slot?]
  constructor
  · rintro ⟨m', j, h, rfl, rfl, rfl⟩
    exact ⟨rfl, h⟩
  · rintro ⟨rfl, h⟩
    exact ⟨m, i, h, rfl, rfl, rfl⟩

/-! ### Adding a node or a graph -/

variable (a) in
/-- A new node is read at its own number only. -/
theorem node?_addNode (k : NodeKind) (o : Option GraphId) (t : Option Ty) (m : NodeId) :
    (a.addNode k o t).2.node? m =
      if m = ⟨a.nodes.size⟩ then some ⟨k, o, t, none⟩ else a.node? m := by
  obtain ⟨i⟩ := m
  simp only [node?, addNode, Array.getElem?_push, NodeId.mk.injEq]

variable (a) in
theorem node?_addNode_of_mem (k : NodeKind) (o : Option GraphId) (t : Option Ty)
    (h : n ∈ a.nodeIds) : (a.addNode k o t).2.node? n = a.node? n := by
  have hlt := a.mem_nodeIds.mp h
  have hne : n ≠ ⟨a.nodes.size⟩ := by
    rintro rfl
    exact Nat.lt_irrefl _ hlt
  rw [node?_addNode, if_neg hne]

variable (a) in
theorem graph?_addNode (k : NodeKind) (o : Option GraphId) (t : Option Ty) :
    (a.addNode k o t).2.graph? g = a.graph? g := rfl

variable (a) in
theorem mem_nodeIds_addNode (k : NodeKind) (o : Option GraphId) (t : Option Ty) :
    n ∈ (a.addNode k o t).2.nodeIds ↔ n = ⟨a.nodes.size⟩ ∨ n ∈ a.nodeIds := by
  obtain ⟨i⟩ := n
  simp only [mem_nodeIds, addNode, Array.size_push, NodeId.mk.injEq]
  omega

variable (a) in
theorem not_mem_nodeIds_size : (⟨a.nodes.size⟩ : NodeId) ∉ a.nodeIds := by
  simp [mem_nodeIds]

variable (a) in
theorem node?_size : a.node? ⟨a.nodes.size⟩ = none := by simp [node?]

variable (a) in
theorem graph?_addGraph (name : String) (h : GraphId) :
    (a.addGraph name).2.graph? h =
      if h = ⟨a.graphs.size⟩ then some ⟨name, [], none⟩ else a.graph? h := by
  obtain ⟨i⟩ := h
  simp only [graph?, addGraph, Array.getElem?_push, GraphId.mk.injEq]

variable (a) in
theorem mem_graphIds_addGraph (name : String) :
    g ∈ (a.addGraph name).2.graphIds ↔ g = ⟨a.graphs.size⟩ ∨ g ∈ a.graphIds := by
  obtain ⟨i⟩ := g
  simp only [mem_graphIds, addGraph, Array.size_push, GraphId.mk.injEq]
  omega

/-! ### Changing a node or a graph -/

variable (a) in
theorem node?_modifyNode (m : NodeId) (f : Node → Node) :
    (a.modifyNode m f).node? n = if n = m then (a.node? n).map f else a.node? n := by
  obtain ⟨i⟩ := n
  obtain ⟨j⟩ := m
  simp only [node?, modifyNode, Array.getElem?_modify, NodeId.mk.injEq]
  by_cases h : j = i
  · simp [h]
  · simp [h, Ne.symm h]

variable (a) in
theorem mem_nodeIds_modifyNode (m : NodeId) (f : Node → Node) :
    n ∈ (a.modifyNode m f).nodeIds ↔ n ∈ a.nodeIds := by
  simp [mem_nodeIds, modifyNode]

variable (a) in
theorem graph?_modifyGraph (h : GraphId) (f : Graph → Graph) :
    (a.modifyGraph h f).graph? g = if g = h then (a.graph? g).map f else a.graph? g := by
  obtain ⟨i⟩ := g
  obtain ⟨j⟩ := h
  simp only [graph?, modifyGraph, Array.getElem?_modify, GraphId.mk.injEq]
  by_cases h : j = i
  · simp [h]
  · simp [h, Ne.symm h]

variable (a) in
theorem mem_graphIds_modifyGraph (h : GraphId) (f : Graph → Graph) :
    g ∈ (a.modifyGraph h f).graphIds ↔ g ∈ a.graphIds := by
  simp [mem_graphIds, modifyGraph]

/-! ### Changing a slot -/

variable (a) in
theorem kind?_setSlot (e : Edge) (new : NodeId) :
    (a.setSlot e new).kind? n =
      if n = e.owner then (a.kind? n).map fun k => match k with
        | .apply inputs => .apply (inputs.set e.index new)
        | k => k
      else a.kind? n := by
  simp only [kind?, setSlot, node?_modifyNode]
  by_cases h : n = e.owner
  · simp only [h, if_true, Option.map_map]
    congr 1
    funext d
    obtain ⟨k, o, t, l⟩ := d
    cases k <;> rfl
  · simp only [h, if_false]

variable (a) in
/-- A slot that changes is read at its owner only. -/
theorem inputs_setSlot (e : Edge) (new : NodeId) :
    (a.setSlot e new).inputs n =
      if n = e.owner then (a.inputs n).set e.index new else a.inputs n := by
  simp only [inputs, kind?_setSlot]
  by_cases h : n = e.owner
  · simp only [h, if_true]
    cases a.kind? e.owner with
    | none => rfl
    | some k => cases k <;> rfl
  · simp only [h, if_false]

variable (a) in
@[simp] theorem value?_setSlot (e : Edge) (new : NodeId) :
    (a.setSlot e new).value? n = a.value? n := by
  simp only [value?, kind?_setSlot]
  by_cases h : n = e.owner
  · simp only [h, if_true]
    cases a.kind? e.owner with
    | none => rfl
    | some k => cases k <;> rfl
  · simp only [h, if_false]

variable (a) in
@[simp] theorem isParameter_setSlot (e : Edge) (new : NodeId) :
    (a.setSlot e new).isParameter n = a.isParameter n := by
  simp only [isParameter, kind?_setSlot]
  by_cases h : n = e.owner
  · simp only [h, if_true]
    cases a.kind? e.owner with
    | none => rfl
    | some k => cases k <;> simp
  · simp only [h, if_false]

variable (a) in
@[simp] theorem isApply_setSlot (e : Edge) (new : NodeId) :
    (a.setSlot e new).isApply n = a.isApply n := by
  simp only [isApply, kind?_setSlot]
  by_cases h : n = e.owner
  · simp only [h, if_true]
    cases a.kind? e.owner with
    | none => rfl
    | some k => cases k <;> rfl
  · simp only [h, if_false]

private theorem bind_setSlot_field {α : Type} (e : Edge) (new : NodeId) (f : Node → Option α)
    (hf : ∀ d k, f { d with kind := k } = f d) :
    ((a.setSlot e new).node? n).bind f = (a.node? n).bind f := by
  simp only [setSlot, node?_modifyNode]
  by_cases h : n = e.owner
  · simp only [h, if_true, Option.bind_map]
    congr 1
    funext d
    obtain ⟨k, o, t, l⟩ := d
    cases k with
    | constant v => rfl
    | parameter => rfl
    | apply inputs => exact hf ⟨.apply inputs, o, t, l⟩ _
  · simp only [h, if_false]

variable (a) in
@[simp] theorem owner?_setSlot (e : Edge) (new : NodeId) :
    (a.setSlot e new).owner? n = a.owner? n :=
  bind_setSlot_field e new Node.owner fun _ _ => rfl

variable (a) in
@[simp] theorem type?_setSlot (e : Edge) (new : NodeId) :
    (a.setSlot e new).type? n = a.type? n :=
  bind_setSlot_field e new Node.type fun _ _ => rfl

variable (a) in
@[simp] theorem label?_setSlot (e : Edge) (new : NodeId) :
    (a.setSlot e new).label? n = a.label? n :=
  bind_setSlot_field e new Node.label fun _ _ => rfl

variable (a) in
@[simp] theorem heldGraph?_setSlot (e : Edge) (new : NodeId) :
    (a.setSlot e new).heldGraph? n = a.heldGraph? n :=
  heldGraph?_congr (a.value?_setSlot e new)

variable (a) in
@[simp] theorem graph?_setSlot (e : Edge) (new : NodeId) :
    (a.setSlot e new).graph? g = a.graph? g := rfl

variable (a) in
@[simp] theorem parameters_setSlot (e : Edge) (new : NodeId) :
    (a.setSlot e new).parameters g = a.parameters g := rfl

variable (a) in
@[simp] theorem ret?_setSlot (e : Edge) (new : NodeId) :
    (a.setSlot e new).ret? g = a.ret? g := rfl

variable (a) in
@[simp] theorem anchors_setSlot (e : Edge) (new : NodeId) :
    (a.setSlot e new).anchors g = a.anchors g := rfl

variable (a) in
@[simp] theorem mem_nodeIds_setSlot (e : Edge) (new : NodeId) :
    n ∈ (a.setSlot e new).nodeIds ↔ n ∈ a.nodeIds :=
  a.mem_nodeIds_modifyNode e.owner _

variable (a) in
@[simp] theorem mem_graphIds_setSlot (e : Edge) (new : NodeId) :
    g ∈ (a.setSlot e new).graphIds ↔ g ∈ a.graphIds := Iff.rfl

theorem slot?_setSlot_self {e : Edge} {old : NodeId} (new : NodeId) (h : a.slot? e = some old) :
    (a.setSlot e new).slot? e = some new := by
  have hlt : e.index < (a.inputs e.owner).length := by
    obtain ⟨hlt, _⟩ := List.getElem?_eq_some_iff.mp h
    exact hlt
  simp only [slot?, inputs_setSlot, if_true]
  exact List.getElem?_set_self hlt

theorem slot?_setSlot_of_ne {e e' : Edge} (new : NodeId) (h : e' ≠ e) :
    (a.setSlot e new).slot? e' = a.slot? e' := by
  obtain ⟨o, i⟩ := e
  obtain ⟨o', i'⟩ := e'
  simp only [slot?, inputs_setSlot]
  by_cases ho : o' = o
  · have hi : i ≠ i' := by
      rintro rfl
      exact h (by rw [ho])
    simp only [ho, if_true]
    exact List.getElem?_set_ne hi
  · simp only [ho, if_false]

theorem mem_inputs_setSlot {e : Edge} {new m : NodeId} (h : m ∈ (a.setSlot e new).inputs n) :
    m ∈ a.inputs n ∨ (n = e.owner ∧ m = new) := by
  rw [inputs_setSlot] at h
  by_cases hn : n = e.owner
  · rw [if_pos hn] at h
    rcases List.mem_or_eq_of_mem_set h with h | h
    · exact Or.inl h
    · exact Or.inr ⟨hn, h⟩
  · rw [if_neg hn] at h
    exact Or.inl h

end Arena

end Midend
