import Midend.Demand.Cut
import Midend.Proofs.Demand.Needed
import Midend.Proofs.OrderedMap

/-!
# Cut slots

A cut points one slot at a new placeholder and only lets nodes and graphs cease to be live.
-/

namespace Midend

namespace Arena

variable {a b c : Arena} {E F : Edge → Prop} {n m : NodeId} {e : Edge} {g : GraphId} {t : Option Ty}

/-- Whether a slot holds a placeholder. -/
def HoldsDead (a : Arena) (e : Edge) : Prop := ∃ m, a.slot? e = some m ∧ a.value? m = some .dead

/-- Whether `b` is `a` with some of the slots `E` pointed at placeholders. -/
structure CutTo (a b : Arena) (E : Edge → Prop) : Prop where
  nodeIds : ∀ {n}, n ∈ a.nodeIds → n ∈ b.nodeIds
  graphs : b.graphs = a.graphs
  value : ∀ {n}, n ∈ a.nodeIds → b.value? n = a.value? n
  type : ∀ {n}, n ∈ a.nodeIds → b.type? n = a.type? n
  isApply : ∀ {n}, n ∈ a.nodeIds → b.isApply n = a.isApply n
  isParameter : ∀ {n}, n ∈ a.nodeIds → b.isParameter n = a.isParameter n
  length : ∀ {n}, n ∈ a.nodeIds → (b.inputs n).length = (a.inputs n).length
  slots : ∀ {e}, e.owner ∈ a.nodeIds → b.slot? e = a.slot? e ∨ E e ∧ b.HoldsDead e

theorem CutTo.refl (a : Arena) (E : Edge → Prop) : a.CutTo a E :=
  ⟨id, rfl, fun _ => rfl, fun _ => rfl, fun _ => rfl, fun _ => rfl, fun _ => rfl,
    fun _ => Or.inl rfl⟩

theorem HoldsDead.cutTo (h : a.CutTo b E) (hd : a.HoldsDead e) : b.HoldsDead e := by
  obtain ⟨m, hm, hv⟩ := hd
  rcases h.slots (mem_nodeIds_of_slot? hm) with hs | ⟨_, hs⟩
  · exact ⟨m, hs.trans hm, (h.value (mem_nodeIds_of_value? hv)).trans hv⟩
  · exact hs

theorem CutTo.trans (h : a.CutTo b E) (h' : b.CutTo c E) : a.CutTo c E := by
  refine ⟨fun hn => h'.nodeIds (h.nodeIds hn), h'.graphs.trans h.graphs,
    fun hn => (h'.value (h.nodeIds hn)).trans (h.value hn),
    fun hn => (h'.type (h.nodeIds hn)).trans (h.type hn),
    fun hn => (h'.isApply (h.nodeIds hn)).trans (h.isApply hn),
    fun hn => (h'.isParameter (h.nodeIds hn)).trans (h.isParameter hn),
    fun hn => (h'.length (h.nodeIds hn)).trans (h.length hn), fun he => ?_⟩
  rcases h.slots he with hs | ⟨hE, hd⟩
  · rcases h'.slots (h.nodeIds he) with hs' | hd'
    · exact Or.inl (hs'.trans hs)
    · exact Or.inr hd'
  · exact Or.inr ⟨hE, hd.cutTo h'⟩

theorem CutTo.mono (h : a.CutTo b E) (hEF : ∀ e, E e → F e) : a.CutTo b F :=
  ⟨h.nodeIds, h.graphs, h.value, h.type, h.isApply, h.isParameter, h.length,
    fun he => (h.slots he).imp_right fun hs => ⟨hEF _ hs.1, hs.2⟩⟩

/-- One slot goes over to a new placeholder. -/
theorem cutTo_setSlot (hslot : a.slot? e = some m) (hE : E e) :
    a.CutTo ((a.addNode (.constant .dead) none t).2.setSlot e ⟨a.nodes.size⟩) E ∧
      ((a.addNode (.constant .dead) none t).2.setSlot e ⟨a.nodes.size⟩).HoldsDead e := by
  have hnode : ∀ {n}, n ∈ a.nodeIds →
      (a.addNode (.constant .dead) none t).2.node? n = a.node? n := fun hn =>
    a.node?_addNode_of_mem _ _ _ hn
  have hslot' : (a.addNode (.constant .dead) none t).2.slot? e = some m :=
    (slot?_congr (inputs_congr (hnode (mem_nodeIds_of_slot? hslot)))).trans hslot
  have hdead : ((a.addNode (.constant .dead) none t).2.setSlot e ⟨a.nodes.size⟩).HoldsDead e := by
    refine ⟨⟨a.nodes.size⟩, slot?_setSlot_self _ hslot', ?_⟩
    rw [value?_setSlot]
    simp [value?, kind?, node?_addNode, NodeKind.value?]
  refine ⟨⟨fun hn => ?_, rfl, fun hn => ?_, fun hn => ?_, fun hn => ?_, fun hn => ?_, fun hn => ?_,
    fun {e'} he' => ?_⟩, hdead⟩
  · rw [mem_nodeIds_setSlot, mem_nodeIds_addNode]
    exact Or.inr hn
  · rw [value?_setSlot, value?_congr (hnode hn)]
  · rw [type?_setSlot, type?_congr (hnode hn)]
  · rw [isApply_setSlot]
    simp only [Arena.isApply, kind?_congr (hnode hn)]
  · rw [isParameter_setSlot, isParameter_congr (kind?_congr (hnode hn))]
  · rw [inputs_setSlot, inputs_congr (hnode hn)]
    split <;> simp
  · by_cases hee : e' = e
    · exact Or.inr ⟨hee ▸ hE, hee ▸ hdead⟩
    · exact Or.inl ((slot?_setSlot_of_ne _ hee).trans (slot?_congr (inputs_congr (hnode he'))))

/-! ### What cuts leave alone -/

/-- Cuts elsewhere leave the inputs of a node alone. -/
theorem CutTo.inputs_eq (h : a.CutTo b E) (hn : n ∈ a.nodeIds) (hE : ∀ e, E e → e.owner ≠ n) :
    b.inputs n = a.inputs n := by
  refine List.ext_getElem? fun i => ?_
  exact (h.slots (e := ⟨n, i⟩) hn).resolve_right fun hs => hE _ hs.1 rfl

theorem CutTo.ret? (h : a.CutTo b E) : b.ret? g = a.ret? g :=
  ret?_congr (congrArg (fun graphs : Array Graph => graphs[g.index]?) h.graphs)

theorem CutTo.applied? (h : a.CutTo b E) (hwf : a.WellFormed)
    (hin : b.inputs n = a.inputs n) : b.applied? n = a.applied? n := by
  simp only [Arena.applied?, hin]
  cases hf : (a.inputs n).head? with
  | none => rfl
  | some f =>
    have hmem : f ∈ a.nodeIds := hwf.input_mem (List.mem_of_mem_head? hf)
    simp only [Option.bind_some, h.value hmem]

/-- Cuts elsewhere leave the indexing of a node alone. -/
theorem CutTo.indexing? (h : a.CutTo b E) (hwf : a.WellFormed) (hn : n ∈ a.nodeIds)
    (hE : ∀ e, E e → e.owner ≠ n) : b.indexing? n = a.indexing? n := by
  have hin := h.inputs_eq hn hE
  have hstep : ∀ key ∈ a.inputs n, b.step? key = a.step? key := fun key hkey => by
    simp only [step?, h.value (hwf.input_mem hkey)]
  simp only [Arena.indexing?, h.applied? hwf hin, hin]
  split
  · next f base key happ hins => rw [hstep key (by simp [hins])]
  · next f base key default happ hins => rw [hstep key (by simp [hins])]
  · rfl

end Arena

/-! ### The index after a cut -/

/-- A constant that names no graph becomes live alone. -/
theorem Live.acquireNode_of_value {a : Arena} {l : Live} {n m : NodeId} {v : Value}
    (hv : a.value? n = some v) (hg : v.graph? = none) :
    (m ∈ (l.acquireNode a n).nodes → m = n ∨ m ∈ l.nodes) ∧
      (l.acquireNode a n).graphs = l.graphs := by
  have hheld : a.heldGraph? n = none := by simp [Arena.heldGraph?, hv, hg]
  have henter : l.enterNodes a [] [n] = (if n ∈ l.nodes then l else l.enterNode a n, []) := by
    rw [Live.enterNodes]
    by_cases hn : n ∈ l.nodes
    · simp [hn, Live.enterNodes]
    · simp [hn, hheld, Arena.inputs_eq_nil_of_value? hv, Live.enterNodes]
  have heq : l.acquireNode a n = if n ∈ l.nodes then l else l.enterNode a n := by
    rw [Live.acquireNode, Live.acquire]
    simp only [henter, List.map_nil, List.nil_append]
    rw [Live.acquire]
  rw [heq]
  split
  · exact ⟨Or.inr, rfl⟩
  · exact ⟨fun hm => OrderedSet.mem_insert.mp (nodes_enterNode a l n ▸ hm), graphs_enterNode a l n⟩

namespace Store

variable {s s' s'' : Store} {E F : Edge → Prop} {n m new : NodeId} {e : Edge} {g root : GraphId}
  {ds : OrderedMap NodeId (List Demand)}

/-- What changing a slot to a constant that names no graph does to the index. -/
theorem live_setEdge {v : Value} (h : s.setEdge e new = .ok s') (hv : s.arena.value? new = some v)
    (hg : v.graph? = none) :
    (∀ n ∈ s'.live.nodes, n = new ∨ n ∈ s.live.nodes) ∧
      ∀ g ∈ s'.live.graphs, g ∈ s.live.graphs := by
  obtain ⟨old, -, rfl⟩ := setEdge_eq_ok_iff.mp h
  split
  · exact ⟨fun n hn => Or.inr hn, fun g hg => hg⟩
  · have hacq := fun m => Live.acquireNode_of_value (m := m) (a := s.arena.setSlot e new)
      (l := s.live.addUse new e) ((s.arena.value?_setSlot e new).trans hv) hg
    have hmoved : (∀ n ∈ (movedUse { s with arena := s.arena.setSlot e new } e old new).1.nodes,
        n = new ∨ n ∈ s.live.nodes) ∧
        (movedUse { s with arena := s.arena.setSlot e new } e old new).1.graphs =
          s.live.graphs := by
      refine ⟨fun n hn => (hacq n).1 ?_, ?_⟩
      · have hn' := Live.nodes_release_subset (l := Live.dropUse _ old e) hn
        exact hn'
      · rw [movedUse, Live.graphs_release]
        exact (hacq new).2
    rw [moveUse_eq]
    split
    · refine ⟨fun n hn => hmoved.1 n (Live.nodes_prune_subset hn), fun g hg => ?_⟩
      exact hmoved.2 ▸ (Live.mem_graphs_prune.mp hg).1
    · exact ⟨hmoved.1, fun g hg => hmoved.2 ▸ hg⟩

/-- What cutting some of the slots `E` does to a store. -/
structure CutTo (s s' : Store) (E : Edge → Prop) : Prop where
  arena : s.arena.CutTo s'.arena E
  nodes : ∀ {n}, n ∈ s'.live.nodes → n ∈ s.arena.nodeIds → n ∈ s.live.nodes
  graphs : ∀ {g}, g ∈ s'.live.graphs → g ∈ s.live.graphs
  roots : s'.roots = s.roots
  reachedAcyclic : s.ReachedAcyclic → s'.ReachedAcyclic

theorem CutTo.refl (s : Store) (E : Edge → Prop) : s.CutTo s E :=
  ⟨Arena.CutTo.refl s.arena E, fun hn _ => hn, id, rfl, id⟩

theorem CutTo.trans (h : s.CutTo s' E) (h' : s'.CutTo s'' E) : s.CutTo s'' E :=
  ⟨h.arena.trans h'.arena, fun hn hmem => h.nodes (h'.nodes hn (h.arena.nodeIds hmem)) hmem,
    fun hg => h.graphs (h'.graphs hg), h'.roots.trans h.roots,
    fun hs => h'.reachedAcyclic (h.reachedAcyclic hs)⟩

theorem CutTo.mono (h : s.CutTo s' E) (hEF : ∀ e, E e → F e) : s.CutTo s' F :=
  ⟨h.arena.mono hEF, h.nodes, h.graphs, h.roots, h.reachedAcyclic⟩

theorem value?_constantWith (s : Store) (v : Value) (t : Option Ty) :
    (s.constantWith v t).2.arena.value? (s.constantWith v t).1 = some v := by
  simp [constantWith, newNode, Arena.value?, Arena.kind?, Arena.addNode, Arena.node?,
    NodeKind.value?]

/-- One slot of a store goes over to a new placeholder. -/
theorem cutTo_setEdge {t : Option Ty} (hs : s.Reachable) (hE : E e)
    (h : (s.constantWith .dead t).2.setEdge e (s.constantWith .dead t).1 = .ok s') :
    s'.Reachable ∧ s.CutTo s' E ∧ s'.arena.HoldsDead e := by
  have hvalue := s.value?_constantWith .dead t
  obtain ⟨hnodes, hgraphs⟩ := live_setEdge h hvalue rfl
  obtain ⟨old, hold, -⟩ := setEdge_eq_ok_iff.mp h
  have hmem : e.owner ∈ s.arena.nodeIds := by
    rcases (s.arena.mem_nodeIds_addNode _ _ _).mp (Arena.mem_nodeIds_of_slot? hold) with heq | hmem
    · have hin := Arena.mem_inputs_of_slot? hold
      rw [heq] at hin
      simp [constantWith, newNode, Arena.inputs, Arena.kind?, Arena.addNode, Arena.node?,
        NodeKind.inputs] at hin
    · exact hmem
  have hslot : s.arena.slot? e = some old := by
    rw [← hold]
    exact (Arena.slot?_congr (Arena.inputs_congr
      (s.arena.node?_addNode_of_mem _ _ _ hmem))).symm
  obtain ⟨hcut, hdead⟩ := Arena.cutTo_setSlot (t := t) hslot hE
  have harena : s'.arena = (s.arena.addNode (.constant .dead) none t).2.setSlot e
      ⟨s.arena.nodes.size⟩ := arena_setEdge h
  have hnew : (s.constantWith .dead t).1 ∈ (s.constantWith .dead t).2.arena.nodeIds :=
    (s.arena.mem_nodeIds_addNode _ _ _).mpr (Or.inl rfl)
  have hroots : s'.roots = (s.constantWith .dead t).2.roots := roots_setEdge h
  refine ⟨(hs.step (.constant t (by simp))).step (.setEdge hnew h),
    ⟨harena ▸ hcut, fun {n} hn hmem => ?_, fun hg => hgraphs _ hg, hroots,
      fun hreached => ?_⟩, harena ▸ hdead⟩
  · rcases hnodes n hn with rfl | hn
    · exact absurd hmem s.arena.not_mem_nodeIds_size
    · exact hn
  · have hconst := hreached.constantWith (v := .dead) (by simp) t
    refine ReachedThrough.step hconst (.setEdge hnew h) ?_
    rw [arena_setEdge h]
    exact hconst.acyclic.setSlot (Arena.inputs_eq_nil_of_value? hvalue)

/-! ### All cuts -/

/-- Cutting a list of slots passes over the first one, or cuts it and then the others. -/
theorem cutEdges_cons_eq_ok {es : List Edge} {k : Nat} (h : s.cutEdges (e :: es) = (s', .ok k)) :
    (s.cutEdges es = (s', .ok k) ∧ ∀ m, s.arena.slot? e = some m →
      e.owner ∉ s.live.nodes ∨ s.arena.value? m = some .dead) ∨
    ∃ (m : NodeId) (s₁ : Store) (j : Nat),
      s.arena.slot? e = some m ∧ s.arena.value? m ≠ some .dead ∧
      (s.constantWith .dead (placeholderType (s.arena.type? m))).2.setEdge e
        (s.constantWith .dead (placeholderType (s.arena.type? m))).1 = .ok s₁ ∧
      s₁.cutEdges es = (s', .ok j) ∧ k = j + 1 := by
  unfold cutEdges at h
  split at h
  · next hnone => exact Or.inl ⟨h, fun m hm => by simp [hnone] at hm⟩
  · next target htarget =>
    by_cases hc : e.owner ∉ s.live.nodes ∨ s.arena.value? target = some .dead
    · rw [if_pos hc] at h
      exact Or.inl ⟨h, fun m hm => Option.some.inj (htarget.symm.trans hm) ▸ hc⟩
    · rw [if_neg hc] at h
      simp only at h
      split at h
      · cases (Prod.mk.inj h).2
      · next s₁ hok =>
        obtain ⟨hs', hk⟩ := Prod.mk.inj h
        cases hres : (s₁.cutEdges es).2 with
        | error f => simp [hres, Except.map] at hk
        | ok j =>
          rw [hres] at hk
          exact Or.inr ⟨target, s₁, j, htarget, fun hdead => hc (Or.inr hdead), hok,
            Prod.ext hs' hres, (Except.ok.inj hk).symm⟩

theorem cutGraphs_cons_eq_ok {edges : List Edge} {gs : List (GraphId × List Edge)} {k : Nat}
    (h : s.cutGraphs ((g, edges) :: gs) = (s', .ok k)) :
    (g ∉ s.live.graphs ∧ s.cutGraphs gs = (s', .ok k)) ∨
    ∃ (s₁ : Store) (i j : Nat), s.cutEdges edges = (s₁, .ok i) ∧
      s₁.cutGraphs gs = (s', .ok j) ∧ k = i + j := by
  unfold cutGraphs at h
  by_cases hg : g ∈ s.live.graphs
  · rw [if_pos hg] at h
    split at h
    · cases (Prod.mk.inj h).2
    · next s₁ i hcut =>
      obtain ⟨hs', hk⟩ := Prod.mk.inj h
      cases hres : (s₁.cutGraphs gs).2 with
      | error f => simp [hres, Except.map] at hk
      | ok j =>
        rw [hres] at hk
        exact Or.inr ⟨s₁, i, j, hcut, Prod.ext hs' hres, (Except.ok.inj hk).symm⟩
  · rw [if_neg hg] at h
    exact Or.inl ⟨hg, h⟩

/-- What cutting a list of slots does, and that the cut slots of live nodes are all placeholders. -/
theorem cutEdges_spec {es : List Edge} {k : Nat} (hs : s.Reachable)
    (h : s.cutEdges es = (s', .ok k)) : s'.Reachable ∧ s.CutTo s' (· ∈ es) ∧
      ∀ e ∈ es, (∃ m, s.arena.slot? e = some m) → e.owner ∈ s'.live.nodes →
        s'.arena.HoldsDead e := by
  induction es generalizing s k with
  | nil =>
    obtain ⟨rfl, -⟩ := Prod.mk.inj h
    exact ⟨hs, CutTo.refl s _, fun e he => absurd he List.not_mem_nil⟩
  | cons e es ih =>
    have hmono : ∀ e', e' ∈ es → e' ∈ e :: es := fun e' he' => List.mem_cons_of_mem e he'
    rcases cutEdges_cons_eq_ok h with ⟨hrest, hskip⟩ | ⟨target, s₁, j, -, -, hok, hrest, -⟩
    · obtain ⟨hr, hcut, hall⟩ := ih hs hrest
      refine ⟨hr, hcut.mono hmono, fun e' he' hslot hlive => ?_⟩
      rcases List.mem_cons.mp he' with rfl | he'
      · obtain ⟨m, hm⟩ := hslot
        rcases hskip m hm with hc | hc
        · exact absurd (hcut.nodes hlive (Arena.mem_nodeIds_of_slot? hm)) hc
        · exact Arena.HoldsDead.cutTo hcut.arena ⟨m, hm, hc⟩
      · exact hall e' he' hslot hlive
    · obtain ⟨hr₁, hcut₁, hdead⟩ := cutTo_setEdge (E := (· ∈ e :: es)) hs List.mem_cons_self hok
      obtain ⟨hr, hcut, hall⟩ := ih hr₁ hrest
      refine ⟨hr, hcut₁.trans (hcut.mono hmono), fun e' he' hslot hlive => ?_⟩
      rcases List.mem_cons.mp he' with rfl | he'
      · exact hdead.cutTo hcut.arena
      · obtain ⟨m, hm⟩ := hslot
        refine hall e' he' ?_ hlive
        rcases hcut₁.arena.slots (Arena.mem_nodeIds_of_slot? hm) with hsame | ⟨_, m', hm', _⟩
        · exact ⟨m, hsame.trans hm⟩
        · exact ⟨m', hm'⟩

theorem cutGraphs_spec {gs : List (GraphId × List Edge)} {k : Nat} (hs : s.Reachable)
    (h : s.cutGraphs gs = (s', .ok k)) :
    s'.Reachable ∧ s.CutTo s' (fun e => ∃ x ∈ gs, e ∈ x.2) ∧
      ∀ x ∈ gs, x.1 ∈ s'.live.graphs → ∀ e ∈ x.2, (∃ m, s.arena.slot? e = some m) →
        e.owner ∈ s'.live.nodes → s'.arena.HoldsDead e := by
  induction gs generalizing s k with
  | nil =>
    obtain ⟨rfl, -⟩ := Prod.mk.inj h
    exact ⟨hs, CutTo.refl s _, fun x hx => absurd hx List.not_mem_nil⟩
  | cons x gs ih =>
    obtain ⟨g, edges⟩ := x
    have hmono : ∀ e', (∃ x ∈ gs, e' ∈ x.2) → ∃ x ∈ (g, edges) :: gs, e' ∈ x.2 :=
      fun e' ⟨x, hx, he⟩ => ⟨x, List.mem_cons_of_mem _ hx, he⟩
    rcases cutGraphs_cons_eq_ok h with ⟨hg, hrest⟩ | ⟨s₁, i, j, hcutg, hrest, -⟩
    · obtain ⟨hr, hcut, hall⟩ := ih hs hrest
      refine ⟨hr, hcut.mono hmono, fun x hx hlive => ?_⟩
      rcases List.mem_cons.mp hx with rfl | hx
      · exact absurd (hcut.graphs hlive) hg
      · exact hall x hx hlive
    · obtain ⟨hr₁, hcut₁, hall₁⟩ := cutEdges_spec hs hcutg
      obtain ⟨hr, hcut, hall⟩ := ih hr₁ hrest
      have hfirst := hcut₁.mono (F := fun e => ∃ x ∈ (g, edges) :: gs, e ∈ x.2)
        fun e he => ⟨(g, edges), List.mem_cons_self, he⟩
      refine ⟨hr, hfirst.trans (hcut.mono hmono), fun x hx hlive e he hslot howner => ?_⟩
      obtain ⟨m, hm⟩ := hslot
      have hmem := Arena.mem_nodeIds_of_slot? hm
      rcases List.mem_cons.mp hx with rfl | hx
      · refine Arena.HoldsDead.cutTo hcut.arena (hall₁ e he ⟨m, hm⟩ ?_)
        exact hcut.nodes howner (hcut₁.arena.nodeIds hmem)
      · refine hall x hx hlive e he ?_ howner
        rcases hcut₁.arena.slots hmem with hsame | ⟨_, m', hm', _⟩
        · exact ⟨m, hsame.trans hm⟩
        · exact ⟨m', hm'⟩

/-! ### Dead slots -/

/-- Whether a slot is recorded for a part of `g` that neither leads to a needed part nor lies within
one. -/
def DeadSlot (s : Store) (ds : OrderedMap NodeId (List Demand)) (root g : GraphId) (e : Edge) :
    Prop :=
  ∃ p pd, (s.recordOf ds).At (g, p) pd ∧ pd.edge = e ∧
    ∀ q, (g, q) ∈ s.needed ds root → ¬ (p <+: q ∨ q <+: p)

theorem deadEdges_spec {dead : List (GraphId × List Edge)} (h : s.deadEdges root = .ok dead) :
    ∃ ds, s.demands = .ok ds ∧
      ∀ g e, (∃ x ∈ dead, x.1 = g ∧ e ∈ x.2) ↔ s.DeadSlot ds root g e := by
  unfold deadEdges at h
  cases hdeps : s.dependencies with
  | error f => simp [hdeps, Except.map] at h
  | ok deps =>
    obtain ⟨ds, hds, rfl⟩ := dependencies_eq_ok_iff.mp hdeps
    rw [hdeps] at h
    obtain rfl := (Except.ok.inj h).symm
    refine ⟨ds, hds, fun g e => ?_⟩
    have hlive : ∀ p, (!partIsLive (s.needed ds root) g p) = true ↔
        ∀ q, (g, q) ∈ s.needed ds root → ¬ (p <+: q ∨ q <+: p) := by
      intro p
      rw [Bool.not_eq_true', ← Bool.not_eq_true, partIsLive_iff]
      exact ⟨fun hn q hq hpq => hn ⟨q, hq, hpq⟩, fun hall ⟨q, hq, hpq⟩ => hall q hq hpq⟩
    simp only [List.mem_filter, List.mem_map, Prod.exists]
    constructor
    · rintro ⟨g', edges, ⟨⟨g'', parts, hparts, heq⟩, -⟩, rfl, he⟩
      obtain ⟨rfl, rfl⟩ := Prod.mk.inj heq
      obtain ⟨⟨p, pd⟩, hmem, rfl⟩ := List.mem_map.mp he
      obtain ⟨hmem, hdead⟩ := List.mem_filter.mp hmem
      exact ⟨p, pd, ⟨parts, OrderedMap.mem_entries_iff.mp hparts,
        OrderedMap.mem_entries_iff.mp hmem⟩, rfl, (hlive p).mp hdead⟩
    · rintro ⟨p, pd, ⟨parts, hparts, hp⟩, rfl, hdead⟩
      have hmem : pd.edge ∈ (parts.entries.filter fun x =>
          !partIsLive (s.needed ds root) g x.1).map fun x => x.2.edge :=
        List.mem_map.mpr ⟨(p, pd), List.mem_filter.mpr
          ⟨OrderedMap.mem_entries_iff.mpr hp, (hlive p).mpr hdead⟩, rfl⟩
      refine ⟨g, _, ⟨⟨g, parts, OrderedMap.mem_entries_iff.mpr hparts, rfl⟩, ?_⟩, rfl, hmem⟩
      have hne : ((parts.entries.filter fun x =>
          !partIsLive (s.needed ds root) g x.1).map fun x => x.2.edge) ≠ [] :=
        List.ne_nil_of_mem hmem
      exact decide_eq_true hne

/-- Dead slots are arguments, and not of applies that index. -/
theorem Analysed.of_deadSlot (h : s.Analysed ds) (hd : s.DeadSlot ds root g e) :
    0 < e.index ∧ s.arena.indexing? e.owner = none := by
  obtain ⟨p, pd, hat, rfl, -⟩ := hd
  obtain ⟨r, out, m, -, -, -, -, -, hlisted⟩ := h.of_at hat
  refine ⟨?_, (h.owner_of_at hat).2.2⟩
  rcases hlisted with ⟨_, he⟩ | hlisted
  · simp [he]
  · exact hlisted.index_pos

section

variable (h : s.Analysed ds) (hcut : s.CutTo s' fun e => ∃ g, s.DeadSlot ds root g e)
  (hn : n ∈ s.arena.nodeIds)
include h hcut hn

/-- Cutting dead slots leaves the function of an apply alone. -/
theorem Analysed.slot?_function : s'.arena.slot? ⟨n, 0⟩ = s.arena.slot? ⟨n, 0⟩ :=
  (hcut.arena.slots hn).resolve_right fun ⟨⟨_, hd⟩, _⟩ =>
    absurd (h.of_deadSlot hd).1 (Nat.lt_irrefl 0)

theorem Analysed.callNames_of_cutTo (hnames : s'.arena.CallNames n g) : s.arena.CallNames n g := by
  obtain ⟨f, ts, t, bound, hf, hts, ht, hcallee⟩ := hnames
  rw [h.slot?_function hcut hn] at hf
  rw [hcut.arena.type (h.wellFormed.slot_mem hf)] at hts
  exact ⟨f, ts, t, bound, hf, hts, ht, hcallee⟩

theorem Analysed.indexing?_of_cutTo (hnone : s'.arena.indexing? n = none) :
    s.arena.indexing? n = none := by
  by_cases hdead : ∃ e, (∃ g, s.DeadSlot ds root g e) ∧ e.owner = n
  · obtain ⟨e, ⟨g, hd⟩, rfl⟩ := hdead
    exact (h.of_deadSlot hd).2
  · rw [← hnone, hcut.arena.indexing? h.wellFormed hn]
    exact fun e hd heq => hdead ⟨e, hd, heq⟩

end

/-- What `cutDead` does: the slots that are cut are dead, and dead slots whose graph and owner stay
live are cut. -/
theorem cutDead_spec {k : Nat} (hs : s.Reachable) (hac : s.arena.Acyclic)
    (hroot : root ∈ s.arena.graphIds) (h : s.cutDead root = (s', .ok k)) :
    ∃ ds, (s.keepRoots [root]).Analysed ds ∧ s'.Reachable ∧
      (s.keepRoots [root]).CutTo s' (fun e => ∃ g, (s.keepRoots [root]).DeadSlot ds root g e) ∧
      ∀ g e, (s.keepRoots [root]).DeadSlot ds root g e → g ∈ s'.live.graphs →
        e.owner ∈ s'.live.nodes → s'.arena.HoldsDead e := by
  have hr := hs.keepRoot hroot
  unfold cutDead at h
  simp only at h
  split at h
  · cases (Prod.mk.inj h).2
  · next dead hdead =>
    obtain ⟨ds, hds, hiff⟩ := deadEdges_spec hdead
    obtain ⟨hr', hcut, hall⟩ := cutGraphs_spec hr h
    have han : (s.keepRoots [root]).Analysed ds := ⟨hr.settled, hac, hds⟩
    refine ⟨ds, han, hr', hcut.mono fun e ⟨x, hx, he⟩ => ⟨x.1, (hiff x.1 e).mp ⟨x, hx, rfl, he⟩⟩,
      fun g e hd hg howner => ?_⟩
    obtain ⟨x, hx, rfl, he⟩ := (hiff g e).mpr hd
    obtain ⟨p, pd, hat, rfl, -⟩ := hd
    obtain ⟨r, out, m, -, -, -, hm, -⟩ := han.of_at hat
    exact hall x hx hg _ he ⟨m, hm⟩ howner

end Store

end Midend
