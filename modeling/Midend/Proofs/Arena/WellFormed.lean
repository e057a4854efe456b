import Midend.Proofs.Arena.Under

/-!
# Well-formed arenas

Inputs, owners and the graphs that constants name are in the arena; a graph's parameters are exactly
the parameters it owns; a return node is owned by its graph and has a function and an output.
-/

namespace Midend

/-- Numbers that occur in the arena stand for something in it, and graphs own their anchors. -/
structure Arena.WellFormed (a : Arena) : Prop where
  input_mem : ∀ {n m}, m ∈ a.inputs n → m ∈ a.nodeIds
  held_mem : ∀ {n g}, a.heldGraph? n = some g → g ∈ a.graphIds
  owner_mem : ∀ {n g}, a.owner? n = some g → g ∈ a.graphIds
  mem_parameters : ∀ {g n}, n ∈ a.parameters g ↔ a.isParameter n = true ∧ a.owner? n = some g
  ret_owner : ∀ {g r}, a.ret? g = some r → a.owner? r = some g
  ret_inputs : ∀ {g r}, a.ret? g = some r → ∃ f out, a.inputs r = [f, out]

namespace Arena

variable {a : Arena} {n m : NodeId} {g : GraphId}

namespace WellFormed

theorem slot_mem (h : a.WellFormed) {e : Edge} (he : a.slot? e = some m) : m ∈ a.nodeIds :=
  h.input_mem (mem_inputs_of_slot? he)

theorem ret_mem (h : a.WellFormed) {r : NodeId} (hr : a.ret? g = some r) : r ∈ a.nodeIds := by
  obtain ⟨f, out, hi⟩ := h.ret_inputs hr
  exact mem_nodeIds_of_mem_inputs (m := f) (by simp [hi])

theorem exists_output (h : a.WellFormed) {r : NodeId} (hr : a.ret? g = some r) :
    ∃ out, a.slot? ⟨r, 1⟩ = some out := by
  obtain ⟨f, out, hi⟩ := h.ret_inputs hr
  exact ⟨out, by simp [slot?, hi]⟩

theorem owner_of_mem_anchors (h : a.WellFormed) (hn : n ∈ a.anchors g) : a.owner? n = some g := by
  rcases mem_anchors.mp hn with hp | hr
  · exact (h.mem_parameters.mp hp).2
  · exact h.ret_owner hr

theorem mem_of_under (h : a.WellFormed) (hn : n ∈ a.nodeIds) (hu : a.Under n m) : m ∈ a.nodeIds :=
  hu.mem_of_closed (P := (· ∈ a.nodeIds)) (fun _ _ _ hj => h.input_mem hj) hn

/-- A node that an anchor is over is the anchor itself or lies under the return node. -/
theorem under_ret_of_anchor (h : a.WellFormed) (hm : m ∈ a.anchors g) (hu : a.Under m n) :
    n ∈ a.parameters g ∨ ∃ r, a.ret? g = some r ∧ a.Under r n := by
  rcases mem_anchors.mp hm with hp | hr
  · have hpar := (h.mem_parameters.mp hp).1
    have := eq_of_under_of_inputs_eq_nil hu (inputs_eq_nil_of_isParameter hpar)
    exact Or.inl (this ▸ hp)
  · exact Or.inr ⟨m, hr, hu⟩

end WellFormed

theorem wellFormed_empty : Arena.empty.WellFormed := by
  have hnode : ∀ n, Arena.empty.node? n = none := fun n => by simp [node?, Arena.empty]
  have hgraph : ∀ g, Arena.empty.graph? g = none := fun g => by simp [graph?, Arena.empty]
  constructor
  all_goals
    simp [inputs, heldGraph?, value?, owner?, parameters, isParameter, ret?, kind?, hnode, hgraph]

/-! ### Same nodes or same graphs -/

theorem mem_nodeIds_iff_node? : n ∈ a.nodeIds ↔ (a.node? n).isSome = true := by
  simp [mem_nodeIds, node?]

theorem mem_graphIds_iff_graph? : g ∈ a.graphIds ↔ (a.graph? g).isSome = true := by
  simp [mem_graphIds, graph?]

theorem WellFormed.addGraph (h : a.WellFormed) (name : String) :
    (a.addGraph name).2.WellFormed := by
  have hnode : ∀ n, (a.addGraph name).2.node? n = a.node? n := fun _ => rfl
  have hfresh : (⟨a.graphs.size⟩ : GraphId) ∉ a.graphIds := by simp [mem_graphIds]
  have hmem : ∀ {g}, g ∈ a.graphIds → g ∈ (a.addGraph name).2.graphIds := fun hg =>
    (a.mem_graphIds_addGraph name).mpr (Or.inr hg)
  have hret : ∀ {g r}, (a.addGraph name).2.ret? g = some r → a.ret? g = some r := by
    intro g r hr
    by_cases hg : g = ⟨a.graphs.size⟩
    · simp [ret?, graph?_addGraph, hg] at hr
    · rwa [ret?, graph?_addGraph, if_neg hg] at hr
  refine ⟨h.input_mem, fun hg => hmem (h.held_mem hg), fun hg => hmem (h.owner_mem hg), ?_,
    fun hr => h.ret_owner (hret hr), fun hr => h.ret_inputs (hret hr)⟩
  intro g n
  by_cases hg : g = ⟨a.graphs.size⟩
  · have hnone : (a.addGraph name).2.parameters g = [] := by
      simp [parameters, graph?_addGraph, hg]
    rw [hnone]
    refine ⟨fun hn => absurd hn List.not_mem_nil, fun hn => ?_⟩
    exact absurd (hg ▸ h.owner_mem hn.2) hfresh
  · have hsame : (a.addGraph name).2.parameters g = a.parameters g :=
      parameters_congr (by rw [graph?_addGraph, if_neg hg])
    rw [hsame]
    exact h.mem_parameters

/-! ### A new node -/

variable {k : NodeKind} {o : Option GraphId} {t : Option Ty}

theorem inputs_addNode (h : n ∈ (a.addNode k o t).2.nodeIds) :
    (n = ⟨a.nodes.size⟩ ∧ (a.addNode k o t).2.inputs n = k.inputs) ∨
      (n ∈ a.nodeIds ∧ (a.addNode k o t).2.inputs n = a.inputs n) := by
  rcases (a.mem_nodeIds_addNode k o t).mp h with rfl | h
  · exact Or.inl ⟨rfl, by simp [inputs, kind?, node?_addNode]⟩
  · exact Or.inr ⟨h, inputs_congr (a.node?_addNode_of_mem k o t h)⟩

/-- A constant or an apply over nodes of the arena can be added. -/
theorem WellFormed.addNode (h : a.WellFormed) (hk : k ≠ .parameter)
    (hin : ∀ m ∈ k.inputs, m ∈ a.nodeIds)
    (hheld : ∀ g, k.value? = some (.graph g) → g ∈ a.graphIds)
    (ho : ∀ g, o = some g → g ∈ a.graphIds) : (a.addNode k o t).2.WellFormed := by
  have hnew : (a.addNode k o t).2.node? ⟨a.nodes.size⟩ = some ⟨k, o, t, none⟩ := by
    rw [node?_addNode, if_pos rfl]
  have hold : ∀ {n}, n ≠ ⟨a.nodes.size⟩ → (a.addNode k o t).2.node? n = a.node? n := fun hn => by
    rw [node?_addNode, if_neg hn]
  have hparam : ∀ n, (a.addNode k o t).2.isParameter n = a.isParameter n := by
    intro n
    by_cases hn : n = ⟨a.nodes.size⟩
    · subst hn
      simp [isParameter, kind?, hnew, a.node?_size, hk]
    · exact isParameter_congr (kind?_congr (hold hn))
  have hret : ∀ {g r}, a.ret? g = some r → r ≠ ⟨a.nodes.size⟩ := by
    rintro g r hr rfl
    exact a.not_mem_nodeIds_size (h.ret_mem hr)
  refine ⟨?_, ?_, ?_, ?_, ?_, ?_⟩
  · intro n m hm
    apply (a.mem_nodeIds_addNode k o t).mpr
    rcases inputs_addNode (mem_nodeIds_of_mem_inputs hm) with ⟨_, hi⟩ | ⟨_, hi⟩
    · exact Or.inr (hin m (hi ▸ hm))
    · exact Or.inr (h.input_mem (hi ▸ hm))
  · intro n g hg
    by_cases hn : n = ⟨a.nodes.size⟩
    · rw [heldGraph?_eq_some_iff, hn] at hg
      simp only [value?, kind?, hnew, Option.map_some, Option.bind_some] at hg
      exact hheld g hg
    · rw [heldGraph?_congr (value?_congr (hold hn))] at hg
      exact h.held_mem hg
  · intro n g hg
    by_cases hn : n = ⟨a.nodes.size⟩
    · rw [hn] at hg
      exact ho g (by simpa [owner?, hnew] using hg)
    · rw [owner?_congr (hold hn)] at hg
      exact h.owner_mem hg
  · intro g n
    rw [parameters_congr (a.graph?_addNode k o t), h.mem_parameters, hparam]
    by_cases hn : n = ⟨a.nodes.size⟩
    · subst hn
      simp [isParameter, kind?, a.node?_size]
    · rw [owner?_congr (hold hn)]
  · intro g r hr
    rw [ret?_congr (a.graph?_addNode k o t)] at hr
    rw [owner?_congr (hold (hret hr))]
    exact h.ret_owner hr
  · intro g r hr
    rw [ret?_congr (a.graph?_addNode k o t)] at hr
    rw [inputs_congr (hold (hret hr))]
    exact h.ret_inputs hr

/-! ### Changed annotations, labels and slots -/

/-- Changing what no other reader looks at. -/
theorem WellFormed.modifyNode (h : a.WellFormed) (m : NodeId) (f : Node → Node)
    (hkind : ∀ d, (f d).kind = d.kind) (howner : ∀ d, (f d).owner = d.owner) :
    (a.modifyNode m f).WellFormed := by
  have hk : ∀ n, (a.modifyNode m f).kind? n = a.kind? n := by
    intro n
    simp only [kind?, node?_modifyNode]
    split
    · simp [Function.comp_def, hkind]
    · rfl
  have ho : ∀ n, (a.modifyNode m f).owner? n = a.owner? n := by
    intro n
    simp only [owner?, node?_modifyNode]
    split
    · rw [Option.bind_map, show Node.owner ∘ f = Node.owner from funext howner]
    · rfl
  have hi : ∀ n, (a.modifyNode m f).inputs n = a.inputs n := fun n => by simp only [inputs, hk]
  have hv : ∀ n, (a.modifyNode m f).value? n = a.value? n := fun n => by simp only [value?, hk]
  refine ⟨?_, ?_, ?_, ?_, ?_, ?_⟩
  · intro n k hm
    rw [hi] at hm
    exact (a.mem_nodeIds_modifyNode m f).mpr (h.input_mem hm)
  · intro n g hg
    rw [heldGraph?_congr (hv n)] at hg
    exact h.held_mem hg
  · intro n g hg
    rw [ho] at hg
    exact h.owner_mem hg
  · intro g n
    rw [isParameter_congr (hk n), ho]
    exact h.mem_parameters
  · intro g r hr
    rw [ho]
    exact h.ret_owner hr
  · intro g r hr
    rw [hi]
    exact h.ret_inputs hr

theorem WellFormed.setSlot (h : a.WellFormed) {e : Edge} (hm : m ∈ a.nodeIds) :
    (a.setSlot e m).WellFormed := by
  refine ⟨?_, ?_, ?_, ?_, ?_, ?_⟩
  · intro n k hk
    rw [mem_nodeIds_setSlot]
    rcases mem_inputs_setSlot hk with hk | ⟨_, rfl⟩
    · exact h.input_mem hk
    · exact hm
  · intro n g hg
    rw [heldGraph?_setSlot] at hg
    exact h.held_mem hg
  · intro n g hg
    rw [owner?_setSlot] at hg
    exact h.owner_mem hg
  · intro g n
    rw [isParameter_setSlot, owner?_setSlot]
    exact h.mem_parameters
  · intro g r hr
    rw [owner?_setSlot]
    exact h.ret_owner hr
  · intro g r hr
    obtain ⟨f, out, hi⟩ := h.ret_inputs hr
    have hlen : ((a.setSlot e m).inputs r).length = 2 := by
      rw [inputs_setSlot]
      split <;> simp [hi]
    match hxs : (a.setSlot e m).inputs r with
    | [x, y] => exact ⟨x, y, rfl⟩
    | [] => simp [hxs] at hlen
    | [x] => simp [hxs] at hlen
    | x :: y :: z :: rest => simp [hxs] at hlen

/-! ### A new parameter or return node -/

theorem WellFormed.addParameter (h : a.WellFormed) (hg : g ∈ a.graphIds) :
    ((a.addNode .parameter (some g) t).2.modifyGraph g fun d =>
      { d with parameters := d.parameters ++ [⟨a.nodes.size⟩] }).WellFormed := by
  generalize hb : ((a.addNode .parameter (some g) t).2.modifyGraph g fun d =>
    { d with parameters := d.parameters ++ [⟨a.nodes.size⟩] }) = b
  have hnode : ∀ n, b.node? n =
      if n = ⟨a.nodes.size⟩ then some ⟨.parameter, some g, t, none⟩ else a.node? n := fun n => by
    rw [← hb]
    exact a.node?_addNode .parameter (some g) t n
  have hold : ∀ {n}, n ≠ ⟨a.nodes.size⟩ → b.node? n = a.node? n := fun hn => by
    rw [hnode, if_neg hn]
  have hids : ∀ {n}, n ∈ a.nodeIds → n ∈ b.nodeIds := fun hn => by
    rw [← hb]
    exact (a.mem_nodeIds_addNode .parameter (some g) t).mpr (Or.inr hn)
  have hgraphs : ∀ {g'}, g' ∈ a.graphIds → g' ∈ b.graphIds := fun hg' => by
    rw [← hb]
    exact (mem_graphIds_modifyGraph _ g _).mpr hg'
  have hgraph : ∀ g', b.graph? g' = if g' = g then (a.graph? g').map fun d =>
      { d with parameters := d.parameters ++ [⟨a.nodes.size⟩] } else a.graph? g' := fun g' => by
    rw [← hb]
    exact graph?_modifyGraph _ g _
  have hret : ∀ {g' r}, b.ret? g' = some r → a.ret? g' = some r := by
    intro g' r hr
    rw [ret?, hgraph] at hr
    by_cases hgg : g' = g
    · rw [if_pos hgg] at hr
      simpa [ret?, Option.bind_map, Function.comp_def] using hr
    · rwa [if_neg hgg] at hr
  have hretNe : ∀ {g' r}, a.ret? g' = some r → r ≠ ⟨a.nodes.size⟩ := by
    rintro g' r hr rfl
    exact a.not_mem_nodeIds_size (h.ret_mem hr)
  have hnew : b.node? ⟨a.nodes.size⟩ = some ⟨.parameter, some g, t, none⟩ := by
    rw [hnode, if_pos rfl]
  refine ⟨?_, ?_, ?_, ?_, ?_, ?_⟩
  · intro n m hm
    by_cases hn : n = ⟨a.nodes.size⟩
    · simp [hn, inputs, kind?, hnew, NodeKind.inputs] at hm
    · rw [inputs_congr (hold hn)] at hm
      exact hids (h.input_mem hm)
  · intro n g' hg'
    by_cases hn : n = ⟨a.nodes.size⟩
    · simp [hn, heldGraph?, value?, kind?, hnew, NodeKind.value?] at hg'
    · rw [heldGraph?_congr (value?_congr (hold hn))] at hg'
      exact hgraphs (h.held_mem hg')
  · intro n g' hg'
    by_cases hn : n = ⟨a.nodes.size⟩
    · have : some g = some g' := by simpa [hn, owner?, hnew] using hg'
      exact hgraphs (Option.some.inj this ▸ hg)
    · rw [owner?_congr (hold hn)] at hg'
      exact hgraphs (h.owner_mem hg')
  · intro g' n
    have hparams : n ∈ b.parameters g' ↔ n ∈ a.parameters g' ∨ (g' = g ∧ n = ⟨a.nodes.size⟩) := by
      rw [parameters, hgraph]
      by_cases hgg : g' = g
      · obtain ⟨d, hd⟩ := Option.isSome_iff_exists.mp (mem_graphIds_iff_graph?.mp hg)
        simp [hgg, parameters, hd]
      · simp [hgg, parameters]
    rw [hparams, h.mem_parameters]
    by_cases hn : n = ⟨a.nodes.size⟩
    · simp [hn, isParameter, kind?, owner?, hnew, a.node?_size, eq_comm]
    · simp [hn, isParameter_congr (kind?_congr (hold hn)), owner?_congr (hold hn)]
  · intro g' r hr
    rw [owner?_congr (hold (hretNe (hret hr)))]
    exact h.ret_owner (hret hr)
  · intro g' r hr
    rw [inputs_congr (hold (hretNe (hret hr)))]
    exact h.ret_inputs (hret hr)

/-- A node over a function and an output that the graph owns can be made its return node. -/
theorem WellFormed.setRet (h : a.WellFormed) {r f out : NodeId} (ho : a.owner? r = some g)
    (hi : a.inputs r = [f, out]) : (a.modifyGraph g fun d => { d with ret := some r }).WellFormed := by
  generalize hb : (a.modifyGraph g fun d => { d with ret := some r }) = b
  have hgraph : ∀ g', b.graph? g' =
      if g' = g then (a.graph? g').map fun d => { d with ret := some r } else a.graph? g' :=
    fun g' => by
      rw [← hb]
      exact graph?_modifyGraph a g _
  have hgraphs : ∀ {g'}, g' ∈ a.graphIds → g' ∈ b.graphIds := fun hg' => by
    rw [← hb]
    exact (a.mem_graphIds_modifyGraph g _).mpr hg'
  have hret : ∀ {g' r'}, b.ret? g' = some r' → (g' = g ∧ r' = r) ∨ a.ret? g' = some r' := by
    intro g' r' hr
    rw [ret?, hgraph] at hr
    by_cases hgg : g' = g
    · left
      rw [if_pos hgg, Option.bind_map, Option.bind_eq_some_iff] at hr
      obtain ⟨d, _, hd⟩ := hr
      exact ⟨hgg, (Option.some.inj hd).symm⟩
    · right
      rwa [if_neg hgg] at hr
  have hparams : ∀ g', b.parameters g' = a.parameters g' := by
    intro g'
    rw [parameters, hgraph]
    by_cases hgg : g' = g
    · simp [hgg, parameters, Function.comp_def]
    · simp [hgg, parameters]
  have hnode : ∀ n, b.node? n = a.node? n := fun n => by rw [← hb]; rfl
  refine ⟨?_, ?_, ?_, ?_, ?_, ?_⟩
  · intro n m hm
    rw [inputs_congr (hnode n)] at hm
    have := h.input_mem hm
    rwa [mem_nodeIds_iff_node?, ← hnode, ← mem_nodeIds_iff_node?] at this
  · intro n g' hg'
    rw [heldGraph?_congr (value?_congr (hnode n))] at hg'
    exact hgraphs (h.held_mem hg')
  · intro n g' hg'
    rw [owner?_congr (hnode n)] at hg'
    exact hgraphs (h.owner_mem hg')
  · intro g' n
    rw [hparams, isParameter_congr (kind?_congr (hnode n)), owner?_congr (hnode n)]
    exact h.mem_parameters
  · intro g' r' hr
    rw [owner?_congr (hnode r')]
    rcases hret hr with ⟨rfl, rfl⟩ | hr
    · exact ho
    · exact h.ret_owner hr
  · intro g' r' hr
    rw [inputs_congr (hnode r')]
    rcases hret hr with ⟨rfl, rfl⟩ | hr
    · exact ⟨f, out, hi⟩
    · exact h.ret_inputs hr

end Arena

end Midend
