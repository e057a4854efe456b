import Midend.Proofs.Arena.Named
import Midend.Proofs.Arena.WellFormed
import Midend.Proofs.Live.Uses

/-!
# Agreement of the index with the arena

The index agrees with the arena when its uses are the filled slots of live nodes, inputs of live
nodes and anchors of live graphs are live, every live node is used or anchored, and the graphs that
live constants name are live. While the index is being changed some of this is still owed: `Slack`
says what, and an agenda lists what has yet to become live.
-/

namespace Midend.Live

/-- What is owed while the index is changed: uses recorded with a slot that holds something else,
live nodes without use or anchor, graphs that live constants name although they are not live. -/
structure Slack where
  stale : NodeId → Edge → Prop
  loose : NodeId → Prop
  lost : GraphId → Prop

/-- Nothing is owed, except that graphs named by live constants need not be live if `lax` holds. -/
def Slack.upTo (lax : Prop) : Slack := ⟨fun _ _ => False, fun _ => False, fun _ => lax⟩

/-- Whether a live graph keeps `n`. -/
def Anchored (a : Arena) (l : Live) (n : NodeId) : Prop := ∃ g ∈ l.graphs, n ∈ a.anchors g

/-- Whether `n` is live or has to become so. -/
def Due (l : Live) (agenda : List Wanted) (n : NodeId) : Prop := n ∈ l.nodes ∨ .node n ∈ agenda

/-- The index agrees with the arena up to what is owed and what is on the agenda. -/
structure Agrees (a : Arena) (l : Live) (slack : Slack) (agenda : List Wanted) : Prop where
  uses : ∀ n e, e ∈ l.usesOf n ↔ (e.owner ∈ l.nodes ∧ a.slot? e = some n) ∨ slack.stale n e
  inputs : ∀ n ∈ l.nodes, ∀ m ∈ a.inputs n, l.Due agenda m
  anchors : ∀ g ∈ l.graphs, ∀ n ∈ a.anchors g, l.Due agenda n
  kept : ∀ n, l.Due agenda n → ¬ l.Idle n ∨ l.Anchored a n ∨ slack.loose n
  held : ∀ n ∈ l.nodes, ∀ g, a.heldGraph? n = some g →
    g ∈ l.graphs ∨ .graph g ∈ agenda ∨ slack.lost g
  node_mem : ∀ n, l.Due agenda n → n ∈ a.nodeIds
  graph_mem : ∀ g, g ∈ l.graphs ∨ .graph g ∈ agenda → g ∈ a.graphIds

variable {a : Arena} {l : Live} {slack : Slack} {agenda : List Wanted} {n m : NodeId} {g : GraphId}

theorem agrees_empty (lax : Prop) : Agrees .empty empty (.upTo lax) [] := by
  have hn : ∀ n : NodeId, n ∉ empty.nodes := OrderedSet.not_mem_empty
  have hg : ∀ g : GraphId, g ∉ empty.graphs := OrderedSet.not_mem_empty
  constructor
  · intro n e
    simp [Slack.upTo, hn]
  · exact fun n h => absurd h (hn n)
  · exact fun g h => absurd h (hg g)
  · exact fun n h => absurd (h.resolve_right List.not_mem_nil) (hn n)
  · exact fun n h => absurd h (hn n)
  · exact fun n h => absurd (h.resolve_right List.not_mem_nil) (hn n)
  · exact fun g h => absurd (h.resolve_right List.not_mem_nil) (hg g)

/-! ### Reading an index that owes nothing -/

section Settled

variable (h : Agrees a l slack [])
include h

theorem Agrees.mem_of_input (hn : n ∈ l.nodes) (hm : m ∈ a.inputs n) : m ∈ l.nodes :=
  (h.inputs n hn m hm).resolve_right List.not_mem_nil

theorem Agrees.mem_of_anchor (hg : g ∈ l.graphs) (hn : n ∈ a.anchors g) : n ∈ l.nodes :=
  (h.anchors g hg n hn).resolve_right List.not_mem_nil

theorem Agrees.mem_nodeIds (hn : n ∈ l.nodes) : n ∈ a.nodeIds := h.node_mem n (Or.inl hn)

theorem Agrees.mem_graphIds (hg : g ∈ l.graphs) : g ∈ a.graphIds := h.graph_mem g (Or.inl hg)

theorem Agrees.mem_of_under (hn : n ∈ l.nodes) (hu : a.Under n m) : m ∈ l.nodes :=
  hu.mem_of_closed (fun _ hk _ hj => h.mem_of_input hk hj) hn

theorem Agrees.ret_mem {r : NodeId} (hg : g ∈ l.graphs) (hr : a.ret? g = some r) : r ∈ l.nodes :=
  h.mem_of_anchor hg (Arena.mem_anchors.mpr (Or.inr hr))

end Settled

theorem Agrees.mem_usesOf (h : Agrees a l slack []) (hs : ∀ n e, ¬ slack.stale n e) {e : Edge} :
    e ∈ l.usesOf n ↔ e.owner ∈ l.nodes ∧ a.slot? e = some n := by
  rw [h.uses n e]
  exact or_iff_left (hs n e)

theorem Agrees.mono {slack' : Slack} (h : Agrees a l slack agenda)
    (hstale : ∀ n e, slack.stale n e ↔ slack'.stale n e)
    (hloose : ∀ n, l.Due agenda n → slack.loose n → slack'.loose n)
    (hlost : ∀ g, slack.lost g → slack'.lost g) : Agrees a l slack' agenda := by
  refine ⟨?_, h.inputs, h.anchors, ?_, ?_, h.node_mem, h.graph_mem⟩
  · intro n e
    rw [h.uses n e, hstale n e]
  · intro n hn
    rcases h.kept n hn with hu | ha | hl
    · exact Or.inl hu
    · exact Or.inr (Or.inl ha)
    · exact Or.inr (Or.inr (hloose n hn hl))
  · intro n hn g hg
    rcases h.held n hn g hg with hh | hh | hh
    · exact Or.inl hh
    · exact Or.inr (Or.inl hh)
    · exact Or.inr (Or.inr (hlost g hh))

/-- Without cycles, following uses upwards from a live node ends at an anchor of a live graph. -/
theorem Agrees.exists_anchor (h : Agrees a l slack []) (hac : a.Acyclic)
    (hs : ∀ n e, ¬ slack.stale n e) (hl : ∀ n, ¬ slack.loose n) (hn : n ∈ l.nodes) :
    ∃ g ∈ l.graphs, ∃ m ∈ a.anchors g, a.Under m n := by
  induction n using hac.wellFounded_users.induction with
  | _ n ih =>
    rcases h.kept n (Or.inl hn) with hu | ⟨g, hg, hm⟩ | hloose
    · obtain ⟨e, he⟩ := not_idle_iff.mp hu
      obtain ⟨ho, hslot⟩ := (h.mem_usesOf hs).mp he
      have hin := Arena.mem_inputs_of_slot? hslot
      obtain ⟨g, hg, m, hm, hum⟩ := ih e.owner ⟨h.mem_nodeIds hn, hin⟩ ho
      exact ⟨g, hg, m, hm, hum.trans (Arena.under_of_mem_inputs hin)⟩
    · exact ⟨g, hg, n, hm, Arena.Under.refl a n⟩
    · exact absurd hloose (hl n)

/-! ### Becoming live -/

theorem idle_enterNode {k : NodeId} (h : (l.enterNode a n).Idle k) : l.Idle k :=
  fun e he => h e (mem_usesOf_enterNode.mpr (Or.inr he))

theorem Agrees.enterNode {held : List GraphId} {stack : List NodeId} {rest : List Wanted}
    (h : Agrees a l slack ((n :: stack).map .node ++ (held.map .graph ++ rest))) (hn : n ∉ l.nodes)
    (hwf : a.WellFormed) :
    Agrees a (l.enterNode a n) slack (((a.inputs n).reverse ++ stack).map .node ++
      ((held ++ (a.heldGraph? n).toList).map .graph ++ rest)) := by
  have hdueN : l.Due ((n :: stack).map .node ++ (held.map .graph ++ rest)) n := Or.inr (by simp)
  have hdue : ∀ k, (l.enterNode a n).Due (((a.inputs n).reverse ++ stack).map .node ++
      ((held ++ (a.heldGraph? n).toList).map .graph ++ rest)) k ↔
        k ∈ a.inputs n ∨ l.Due ((n :: stack).map .node ++ (held.map .graph ++ rest)) k := by
    intro k
    simp only [Due, nodes_enterNode, OrderedSet.mem_insert, List.mem_append, List.mem_map,
      List.mem_reverse, List.mem_cons, Wanted.node.injEq, exists_eq_right, reduceCtorEq, and_false,
      exists_false, false_or]
    grind
  constructor
  · intro k e
    rw [mem_usesOf_enterNode, h.uses k e, nodes_enterNode, OrderedSet.mem_insert]
    constructor
    · rintro (⟨ho, hs⟩ | ⟨ho, hs⟩ | hs)
      · exact Or.inl ⟨Or.inl ho, hs⟩
      · exact Or.inl ⟨Or.inr ho, hs⟩
      · exact Or.inr hs
    · rintro (⟨ho | ho, hs⟩ | hs)
      · exact Or.inl ⟨ho, hs⟩
      · exact Or.inr (Or.inl ⟨ho, hs⟩)
      · exact Or.inr (Or.inr hs)
  · intro k hk m hm
    rw [hdue]
    rcases OrderedSet.mem_insert.mp (nodes_enterNode a l n ▸ hk) with rfl | hk
    · exact Or.inl hm
    · exact Or.inr (h.inputs k hk m hm)
  · intro g hg k hk
    rw [graphs_enterNode] at hg
    exact (hdue k).mpr (Or.inr (h.anchors g hg k hk))
  · intro k hk
    rcases (hdue k).mp hk with hin | hk
    · obtain ⟨i, hi⟩ := Arena.exists_slot?_of_mem hin
      exact Or.inl (not_idle_iff.mpr ⟨⟨n, i⟩, mem_usesOf_enterNode.mpr (Or.inl ⟨rfl, hi⟩)⟩)
    · rcases h.kept k hk with hu | ha | hl
      · exact Or.inl fun hi => hu (idle_enterNode hi)
      · exact Or.inr (Or.inl (by simpa only [Anchored, graphs_enterNode] using ha))
      · exact Or.inr (Or.inr hl)
  · intro k hk g hg
    rw [graphs_enterNode]
    rcases OrderedSet.mem_insert.mp (nodes_enterNode a l n ▸ hk) with rfl | hk
    · exact Or.inr (Or.inl (by simp [hg]))
    · rcases h.held k hk g hg with hh | hh | hh
      · exact Or.inl hh
      · refine Or.inr (Or.inl ?_)
        simp only [List.mem_append, List.mem_map, reduceCtorEq, and_false, exists_false, false_or,
          Wanted.graph.injEq, exists_eq_right] at hh ⊢
        exact hh.imp_left Or.inl
      · exact Or.inr (Or.inr hh)
  · intro k hk
    rcases (hdue k).mp hk with hin | hk
    · exact hwf.input_mem hin
    · exact h.node_mem k hk
  · intro g hg
    rw [graphs_enterNode] at hg
    simp only [List.mem_append, List.mem_map, reduceCtorEq, and_false, exists_false, false_or,
      Wanted.graph.injEq, exists_eq_right, Option.mem_toList] at hg
    rcases hg with hg | (hg | hg) | hg
    · exact h.graph_mem g (Or.inl hg)
    · exact h.graph_mem g (Or.inr (by simp [hg]))
    · exact hwf.held_mem hg
    · exact h.graph_mem g (Or.inr (by simp [hg]))

/-- An agenda may forget what is live already. -/
theorem Agrees.forget_node {rest : List Wanted} (h : Agrees a l slack (.node n :: rest))
    (hn : n ∈ l.nodes) : Agrees a l slack rest := by
  have hdue : ∀ k, l.Due (.node n :: rest) k → l.Due rest k := by
    intro k hk
    rcases hk with hk | hk
    · exact Or.inl hk
    · rcases List.mem_cons.mp hk with hk | hk
      · exact Or.inl (Wanted.node.inj hk ▸ hn)
      · exact Or.inr hk
  have hdue' : ∀ k, l.Due rest k → l.Due (.node n :: rest) k := fun k hk =>
    hk.imp_right (List.mem_cons_of_mem _)
  refine ⟨h.uses, fun k hk m hm => hdue m (h.inputs k hk m hm),
    fun g hg k hk => hdue k (h.anchors g hg k hk), fun k hk => h.kept k (hdue' k hk), ?_,
    fun k hk => h.node_mem k (hdue' k hk),
    fun g hg => h.graph_mem g (hg.imp_right (List.mem_cons_of_mem _))⟩
  intro k hk g hg
  rcases h.held k hk g hg with hh | hh | hh
  · exact Or.inl hh
  · exact Or.inr (Or.inl (by simpa using hh))
  · exact Or.inr (Or.inr hh)

theorem Agrees.forget_graph {rest : List Wanted} (h : Agrees a l slack (.graph g :: rest))
    (hg : g ∈ l.graphs) : Agrees a l slack rest := by
  have hdue : ∀ k, l.Due (.graph g :: rest) k ↔ l.Due rest k := fun k => by simp [Due]
  refine ⟨h.uses, fun k hk m hm => (hdue m).mp (h.inputs k hk m hm),
    fun g hg k hk => (hdue k).mp (h.anchors g hg k hk), fun k hk => h.kept k ((hdue k).mpr hk), ?_,
    fun k hk => h.node_mem k ((hdue k).mpr hk),
    fun g hg => h.graph_mem g (hg.imp_right (List.mem_cons_of_mem _))⟩
  intro k hk g' hg'
  rcases h.held k hk g' hg' with hh | hh | hh
  · exact Or.inl hh
  · rcases List.mem_cons.mp hh with hh | hh
    · exact Or.inl (Wanted.graph.inj hh ▸ hg)
    · exact Or.inr (Or.inl hh)
  · exact Or.inr (Or.inr hh)

theorem Agrees.enterNodes {rest : List Wanted} (held : List GraphId) (stack : List NodeId)
    (hwf : a.WellFormed) (h : Agrees a l slack (stack.map .node ++ (held.map .graph ++ rest))) :
    Agrees a (l.enterNodes a held stack).1 slack
      ((l.enterNodes a held stack).2.map .graph ++ rest) := by
  fun_induction Live.enterNodes a l held stack with
  | case1 l held => exact h
  | case2 l held n stack hn ih => exact ih (h.forget_node hn)
  | case3 l held n stack hn ih => exact ih (h.enterNode hn hwf)

/-- A graph from the agenda becomes live, its anchors taking its place. -/
theorem Agrees.enterGraph {rest : List Wanted} (h : Agrees a l slack (.graph g :: rest))
    (hwf : a.WellFormed) :
    Agrees a { l with graphs := l.graphs.insert g } slack ((a.anchors g).map .node ++ rest) := by
  have hdue : ∀ k, Due { l with graphs := l.graphs.insert g } ((a.anchors g).map .node ++ rest) k ↔
      k ∈ a.anchors g ∨ l.Due (.graph g :: rest) k := by
    intro k
    simp only [Due, List.mem_append, List.mem_map, Wanted.node.injEq, exists_eq_right,
      List.mem_cons, reduceCtorEq, false_or]
    exact or_left_comm
  have hanch : ∀ k ∈ a.anchors g, k ∈ a.nodeIds := by
    intro k hk
    rcases Arena.mem_anchors.mp hk with hp | hr
    · have hkind : a.kind? k = some .parameter := by
        simpa [Arena.isParameter] using (hwf.mem_parameters.mp hp).1
      exact Arena.mem_nodeIds_of_kind? hkind
    · exact hwf.ret_mem hr
  refine ⟨h.uses, fun k hk m hm => (hdue m).mpr (Or.inr (h.inputs k hk m hm)), ?_, ?_, ?_, ?_, ?_⟩
  · intro g' hg' k hk
    rcases OrderedSet.mem_insert.mp hg' with rfl | hg'
    · exact (hdue k).mpr (Or.inl hk)
    · exact (hdue k).mpr (Or.inr (h.anchors g' hg' k hk))
  · intro k hk
    rcases (hdue k).mp hk with hk | hk
    · exact Or.inr (Or.inl ⟨g, OrderedSet.mem_insert.mpr (Or.inl rfl), hk⟩)
    · rcases h.kept k hk with hu | ⟨g', hg', hk'⟩ | hl
      · exact Or.inl hu
      · exact Or.inr (Or.inl ⟨g', OrderedSet.mem_insert.mpr (Or.inr hg'), hk'⟩)
      · exact Or.inr (Or.inr hl)
  · intro k hk g' hg'
    rcases h.held k hk g' hg' with hh | hh | hh
    · exact Or.inl (OrderedSet.mem_insert.mpr (Or.inr hh))
    · rcases List.mem_cons.mp hh with hh | hh
      · exact Or.inl (OrderedSet.mem_insert.mpr (Or.inl (Wanted.graph.inj hh)))
      · exact Or.inr (Or.inl (List.mem_append_right _ hh))
    · exact Or.inr (Or.inr hh)
  · intro k hk
    rcases (hdue k).mp hk with hk | hk
    · exact hanch k hk
    · exact h.node_mem k hk
  · intro g' hg'
    rcases hg' with hg' | hg'
    · rcases OrderedSet.mem_insert.mp hg' with rfl | hg'
      · exact h.graph_mem g' (Or.inr List.mem_cons_self)
      · exact h.graph_mem g' (Or.inl hg')
    · exact h.graph_mem g' (Or.inr (by simpa using Or.inr hg'))

theorem Agrees.want_graph (h : Agrees a l slack []) (hg : g ∈ a.graphIds) :
    Agrees a l slack [.graph g] := by
  have hdue : ∀ k, l.Due [.graph g] k ↔ l.Due [] k := fun k => by simp [Due]
  refine ⟨h.uses, fun k hk m hm => (hdue m).mpr (h.inputs k hk m hm),
    fun g hg k hk => (hdue k).mpr (h.anchors g hg k hk), fun k hk => h.kept k ((hdue k).mp hk), ?_,
    fun k hk => h.node_mem k ((hdue k).mp hk), ?_⟩
  · intro k hk g' hg'
    rcases h.held k hk g' hg' with hh | hh | hh
    · exact Or.inl hh
    · exact absurd hh List.not_mem_nil
    · exact Or.inr (Or.inr hh)
  · intro g' hg'
    rcases hg' with hg' | hg'
    · exact h.graph_mem g' (Or.inl hg')
    · exact Wanted.graph.inj (List.mem_singleton.mp hg') ▸ hg

/-- Working off the agenda leaves nothing of it to be done. -/
theorem Agrees.acquire (hwf : a.WellFormed) (h : Agrees a l slack agenda) :
    Agrees a (l.acquire a agenda) slack [] := by
  fun_induction Live.acquire a l agenda with
  | case1 l => exact h
  | case2 l n rest r =>
    rename_i ih
    exact ih (h.enterNodes [] [n] hwf)
  | case3 l g rest hg ih => exact ih (h.forget_graph hg)
  | case4 l g rest hg ih => exact ih (h.enterGraph hwf)

theorem mem_graphs_acquire (hg : g ∈ l.graphs ∨ .graph g ∈ agenda) :
    g ∈ (l.acquire a agenda).graphs := by
  fun_induction Live.acquire a l agenda with
  | case1 l => exact hg.resolve_right List.not_mem_nil
  | case2 l n rest r =>
    rename_i ih
    apply ih
    rw [graphs_enterNodes]
    refine hg.imp_right fun hg => ?_
    exact List.mem_append_right _ (by simpa using hg)
  | case3 l g' rest hg' ih =>
    apply ih
    rcases hg with hg | hg
    · exact Or.inl hg
    · rcases List.mem_cons.mp hg with hg | hg
      · exact Or.inl (Wanted.graph.inj hg ▸ hg')
      · exact Or.inr hg
  | case4 l g' rest hg' ih =>
    apply ih
    rcases hg with hg | hg
    · exact Or.inl (OrderedSet.mem_insert.mpr (Or.inr hg))
    · rcases List.mem_cons.mp hg with hg | hg
      · exact Or.inl (OrderedSet.mem_insert.mpr (Or.inl (Wanted.graph.inj hg)))
      · exact Or.inr (List.mem_append_right _ hg)

/-! ### Ceasing to be live -/

theorem releasable_iff (hwf : a.WellFormed) :
    l.releasable a n = true ↔ n ∈ l.nodes ∧ l.Idle n ∧ ¬ l.Anchored a n := by
  have hanch : l.Anchored a n ↔ ∃ g, a.owner? n = some g ∧ g ∈ l.graphs ∧
      (a.isParameter n = true ∨ a.ret? g = some n) := by
    constructor
    · rintro ⟨g, hg, hn⟩
      refine ⟨g, hwf.owner_of_mem_anchors hn, hg, ?_⟩
      exact (Arena.mem_anchors.mp hn).imp_left fun hp => (hwf.mem_parameters.mp hp).1
    · rintro ⟨g, ho, hg, hn⟩
      refine ⟨g, hg, Arena.mem_anchors.mpr (hn.imp_left fun hp => ?_)⟩
      exact hwf.mem_parameters.mpr ⟨hp, ho⟩
  rw [hanch, ← useCount_eq_zero_iff]
  unfold releasable
  by_cases hn : n ∈ l.nodes
  · by_cases hu : l.useCount n = 0
    · cases ho : a.owner? n with
      | none => simp [hn, hu]
      | some g => by_cases hg : g ∈ l.graphs <;> simp [hn, hu, hg]
    · simp [hn, hu, Nat.pos_of_ne_zero hu]
  · simp [hn]

/-- The slack during a release: the nodes of the stack may be loose. -/
def Slack.withLoose (slack : Slack) (stack : List NodeId) : Slack :=
  { slack with loose := fun n => n ∈ stack ∨ slack.loose n }

theorem Agrees.leaveNode {stack : List NodeId} (hwf : a.WellFormed)
    (hs : ∀ n e, ¬ slack.stale n e) (h : Agrees a l (slack.withLoose (n :: stack)) [])
    (hr : l.releasable a n = true) :
    Agrees a (l.leaveNode a n).1
      (slack.withLoose ((l.leaveNode a n).2.reverse ++ stack)) [] := by
  obtain ⟨hn, hidle, hfree⟩ := (releasable_iff hwf).mp hr
  have huse : ∀ {k e}, e ∈ l.usesOf k ↔ e.owner ∈ l.nodes ∧ a.slot? e = some k := h.mem_usesOf hs
  have hstay : ∀ {k}, k ∈ (l.leaveNode a n).1.nodes ↔ k ≠ n ∧ k ∈ l.nodes := by
    intro k
    rw [nodes_leaveNode, OrderedSet.mem_eraseFill]
  have hne : ∀ {k m}, k ∈ l.nodes → m ∈ a.inputs k → m ≠ n := by
    rintro k m hk hm rfl
    obtain ⟨i, hi⟩ := Arena.exists_slot?_of_mem hm
    exact hidle ⟨k, i⟩ (huse.mpr ⟨hk, hi⟩)
  constructor
  · intro k e
    rw [mem_usesOf_leaveNode hidle, huse, hstay]
    have hfalse : ¬ (slack.withLoose ((l.leaveNode a n).2.reverse ++ stack)).stale k e := hs k e
    grind
  · intro k hk m hm
    obtain ⟨_, hk⟩ := hstay.mp hk
    exact Or.inl (hstay.mpr ⟨hne hk hm, h.mem_of_input hk hm⟩)
  · intro g hg k hk
    rw [graphs_leaveNode] at hg
    refine Or.inl (hstay.mpr ⟨?_, h.mem_of_anchor hg hk⟩)
    rintro rfl
    exact hfree ⟨g, hg, hk⟩
  · intro k hk
    obtain ⟨hkn, hk⟩ := hstay.mp (hk.resolve_right List.not_mem_nil)
    by_cases hki : (l.leaveNode a n).1.Idle k
    · rcases h.kept k (Or.inl hk) with hu | ha | hl
      · -- its last use was a slot of the node that left
        obtain ⟨e, he⟩ := not_idle_iff.mp hu
        have hgone : e.owner = n ∧ a.slot? e = some k := by
          by_cases hc : e.owner = n ∧ a.slot? e = some k
          · exact hc
          · exact absurd ((mem_usesOf_leaveNode hidle).mpr ⟨hc, he⟩) (hki e)
        refine Or.inr (Or.inr (Or.inl ?_))
        exact List.mem_append_left _ (List.mem_reverse.mpr
          (mem_leaveNode_of_idle hgone.1 hgone.2 hki))
      · exact Or.inr (Or.inl (by simpa only [Anchored, graphs_leaveNode] using ha))
      · rcases hl with hl | hl
        · have := (List.mem_cons.mp hl).resolve_left hkn
          exact Or.inr (Or.inr (Or.inl (List.mem_append_right _ this)))
        · exact Or.inr (Or.inr (Or.inr hl))
    · exact Or.inl hki
  · intro k hk g hg
    rw [graphs_leaveNode]
    exact h.held k (hstay.mp hk).2 g hg
  · intro k hk
    exact h.mem_nodeIds (hstay.mp (hk.resolve_right List.not_mem_nil)).2
  · intro g hg
    rw [graphs_leaveNode] at hg
    exact h.graph_mem g hg

/-- After a release nothing of the stack is loose any more. -/
theorem Agrees.release {stack : List NodeId} (dropped : Bool) (hwf : a.WellFormed)
    (hs : ∀ n e, ¬ slack.stale n e) (h : Agrees a l (slack.withLoose stack) []) :
    Agrees a (l.release a dropped stack).1 slack [] := by
  fun_induction Live.release a l dropped stack with
  | case1 l dropped =>
    exact h.mono (fun _ _ => Iff.rfl) (fun n _ hl => hl.resolve_left List.not_mem_nil)
      fun _ hg => hg
  | case2 l dropped n rest hr r =>
    rename_i ih
    exact ih (h.leaveNode hwf hs hr)
  | case3 l dropped n rest hr ih =>
    refine ih ⟨h.uses, h.inputs, h.anchors, ?_, h.held, h.node_mem, h.graph_mem⟩
    intro k hk
    rcases h.kept k hk with hu | ha | hl | hl
    · exact Or.inl hu
    · exact Or.inr (Or.inl ha)
    · rcases List.mem_cons.mp hl with rfl | hl
      · by_cases hidle : l.Idle k
        · by_cases ha : l.Anchored a k
          · exact Or.inr (Or.inl ha)
          · have hk' := hk.resolve_right List.not_mem_nil
            exact absurd ((releasable_iff hwf).mpr ⟨hk', hidle, ha⟩) hr
        · exact Or.inl hidle
      · exact Or.inr (Or.inr (Or.inl hl))
    · exact Or.inr (Or.inr (Or.inr hl))

theorem nodes_release_subset {stack : List NodeId} {dropped : Bool}
    (hn : n ∈ (l.release a dropped stack).1.nodes) : n ∈ l.nodes := by
  fun_induction Live.release a l dropped stack with
  | case1 l dropped => exact hn
  | case2 l dropped k rest hr r =>
    rename_i ih
    have := ih hn
    rw [nodes_leaveNode, OrderedSet.mem_eraseFill] at this
    exact this.2
  | case3 l dropped k rest hr ih => exact ih hn

@[simp] theorem graphs_release (a : Arena) (l : Live) (dropped : Bool) (stack : List NodeId) :
    (l.release a dropped stack).1.graphs = l.graphs := by
  fun_induction Live.release a l dropped stack with
  | case1 l dropped => rfl
  | case2 l dropped k rest hr r =>
    rename_i ih
    rw [ih, graphs_leaveNode]
  | case3 l dropped k rest hr ih => exact ih

theorem Agrees.releaseAll {ns : List NodeId} (hwf : a.WellFormed) (hs : ∀ n e, ¬ slack.stale n e)
    (h : Agrees a l (slack.withLoose ns) []) : Agrees a (l.releaseAll a ns) slack [] := by
  induction ns generalizing l with
  | nil =>
    exact h.mono (fun _ _ => Iff.rfl) (fun n _ hl => hl.resolve_left List.not_mem_nil)
      fun _ hg => hg
  | cons n ns ih =>
    have hfirst : Agrees a l ((slack.withLoose ns).withLoose [n]) [] := by
      refine h.mono (fun _ _ => Iff.rfl) (fun k _ hl => ?_) fun _ hg => hg
      rcases hl with hl | hl
      · rcases List.mem_cons.mp hl with rfl | hl
        · exact Or.inl List.mem_cons_self
        · exact Or.inr (Or.inl hl)
      · exact Or.inr (Or.inr hl)
    exact ih (hfirst.release false hwf hs)

theorem nodes_releaseAll_subset {ns : List NodeId} (hn : n ∈ (l.releaseAll a ns).nodes) :
    n ∈ l.nodes := by
  induction ns generalizing l with
  | nil => exact hn
  | cons m ns ih => exact nodes_release_subset (ih hn)

@[simp] theorem graphs_releaseAll (a : Arena) (l : Live) (ns : List NodeId) :
    (l.releaseAll a ns).graphs = l.graphs := by
  induction ns generalizing l with
  | nil => rfl
  | cons m ns ih => exact (ih _).trans (graphs_release a l false [m])

/-! ### Pruning -/

private theorem mem_foldl_erase {dead : List GraphId} {gs : OrderedSet GraphId} :
    g ∈ dead.foldl OrderedSet.erase gs ↔ g ∈ gs ∧ g ∉ dead := by
  induction dead generalizing gs with
  | nil => simp
  | cons x dead ih =>
    rw [List.foldl_cons, ih, OrderedSet.mem_erase, List.mem_cons, not_or]
    constructor
    · exact fun ⟨⟨hx, hg⟩, hd⟩ => ⟨hg, hx, hd⟩
    · exact fun ⟨hg, hx, hd⟩ => ⟨⟨hx, hg⟩, hd⟩

theorem mem_graphs_prune {roots : List GraphId} :
    g ∈ (l.prune a roots).graphs ↔ g ∈ l.graphs ∧ g ∈ a.reachable roots := by
  rw [prune, graphs_releaseAll]
  show g ∈ (l.graphs.toList.filter (· ∉ a.reachable roots)).foldl OrderedSet.erase l.graphs ↔ _
  rw [mem_foldl_erase]
  simp only [List.mem_filter, decide_not, Bool.not_eq_true', decide_eq_false_iff_not, not_and,
    Decidable.not_not, OrderedSet.mem_def]
  constructor
  · exact fun ⟨hg, hr⟩ => ⟨hg, hr hg⟩
  · exact fun ⟨hg, hr⟩ => ⟨hg, fun _ => hr⟩

theorem nodes_prune_subset {roots : List GraphId} (hn : n ∈ (l.prune a roots).nodes) :
    n ∈ l.nodes := by
  have h := nodes_releaseAll_subset (a := a) hn
  exact h

/-- Pruning loses no more than the graphs that the roots do not reach. -/
theorem Agrees.prune_lost (roots : List GraphId) (hwf : a.WellFormed)
    (hs : ∀ n e, ¬ slack.stale n e) (h : Agrees a l slack []) :
    Agrees a (l.prune a roots)
      { slack with lost := fun g => slack.lost g ∨ g ∉ a.reachable roots } [] := by
  have hmem : ∀ {g}, g ∈ (l.graphs.toList.filter (· ∉ a.reachable roots)).foldl
      OrderedSet.erase l.graphs ↔ g ∈ l.graphs ∧ g ∈ a.reachable roots := by
    intro g
    rw [← mem_graphs_prune (a := a), prune, graphs_releaseAll]
  refine Agrees.releaseAll hwf hs ⟨h.uses, h.inputs, ?_, ?_, ?_, h.node_mem, ?_⟩
  · intro g hg k hk
    exact h.anchors g (hmem.mp hg).1 k hk
  · intro k hk
    rcases h.kept k hk with hu | ⟨g, hg, hk'⟩ | hl
    · exact Or.inl hu
    · by_cases hr : g ∈ a.reachable roots
      · exact Or.inr (Or.inl ⟨g, hmem.mpr ⟨hg, hr⟩, hk'⟩)
      · refine Or.inr (Or.inr (Or.inl (List.mem_flatMap.mpr ⟨g, ?_, hk'⟩)))
        exact List.mem_filter.mpr ⟨hg, by simpa using hr⟩
    · exact Or.inr (Or.inr (Or.inr hl))
  · intro k hk g hg
    rcases h.held k hk g hg with hh | hh | hh
    · by_cases hr : g ∈ a.reachable roots
      · exact Or.inl (hmem.mpr ⟨hh, hr⟩)
      · exact Or.inr (Or.inr (Or.inr hr))
    · exact absurd hh List.not_mem_nil
    · exact Or.inr (Or.inr (Or.inl hh))
  · intro g hg
    rcases hg with hg | hg
    · exact h.graph_mem g (Or.inl (hmem.mp hg).1)
    · exact absurd hg List.not_mem_nil

/-- Without cycles pruning loses no graph that a live constant names: the constant lies under the
return node of a graph that the roots reach, so they reach what it names. -/
theorem Agrees.prune {lax : Prop} (hwf : a.WellFormed) (hac : lax ∨ a.Acyclic)
    {roots : List GraphId} (h : Agrees a l (.upTo lax) []) :
    Agrees a (l.prune a roots) (.upTo lax) [] := by
  have hs : ∀ (n : NodeId) (e : Edge), ¬ (Slack.upTo lax).stale n e := fun _ _ hf => hf
  have hp := h.prune_lost roots hwf hs
  refine ⟨hp.uses, hp.inputs, hp.anchors, hp.kept, ?_, hp.node_mem, hp.graph_mem⟩
  intro k hk g hg
  rcases hp.held k hk g hg with hh | hh | hh | hh
  · exact Or.inl hh
  · exact Or.inr (Or.inl hh)
  · exact Or.inr (Or.inr hh)
  · rcases hac with hlax | hac
    · exact Or.inr (Or.inr hlax)
    obtain ⟨g', hg', m, hm, hu⟩ := hp.exists_anchor hac hs (fun _ hf => hf) hk
    rcases hwf.under_ret_of_anchor hm hu with hpar | ⟨r, hr, hur⟩
    · have hkind := (hwf.mem_parameters.mp hpar).1
      rw [Arena.heldGraph?_eq_some_iff] at hg
      simp [Arena.isParameter, Arena.kind?_of_value? hg] at hkind
    · obtain ⟨root, hroot, hl⟩ := Arena.mem_reachable.mp (mem_graphs_prune.mp hg').2
      have hnames : a.Names g' g := ⟨r, k, hr, hur, hg⟩
      exact absurd (Arena.mem_reachable.mpr ⟨root, hroot, hl.tail hnames⟩) hh

end Midend.Live
