import Midend.Proofs.Live.Agrees
import Midend.Store

/-!
# Settled stores

A store is settled when its arena is well formed, its index agrees with the arena, and its roots are
live; unless it is lax, the graphs that live constants name are live too.
-/

namespace Midend

open Live (Agrees Slack)

/-- The arena is well formed, the index agrees with it, and the roots are live. -/
structure Store.Settled (s : Store) (lax : Prop) : Prop where
  wellFormed : s.arena.WellFormed
  agrees : Agrees s.arena s.live (.upTo lax) []
  roots_live : ∀ g ∈ s.roots, g ∈ s.live.graphs

/-! ### The index beside another arena -/

section Index

variable {a b : Arena} {l : Live} {slack : Slack} {agenda : List Wanted}

/-- The index also agrees with an arena in which what is live reads the same. -/
theorem Live.Agrees.congr (h : Agrees a l slack [])
    (hin : ∀ n ∈ l.nodes, b.inputs n = a.inputs n)
    (hheld : ∀ n ∈ l.nodes, b.heldGraph? n = a.heldGraph? n)
    (hanch : ∀ g ∈ l.graphs, ∀ n ∈ b.anchors g, n ∈ a.anchors g ∨ .node n ∈ agenda)
    (hanch' : ∀ g ∈ l.graphs, ∀ n ∈ a.anchors g, n ∈ b.anchors g)
    (hdue : ∀ n, .node n ∈ agenda → n ∈ b.nodeIds ∧ l.Anchored b n)
    (hids : ∀ n ∈ a.nodeIds, n ∈ b.nodeIds)
    (hgraphs : ∀ g ∈ a.graphIds, g ∈ b.graphIds)
    (hagenda : ∀ g, .graph g ∉ agenda) : Agrees b l slack agenda := by
  have hlive : ∀ {n}, l.Due [] n → n ∈ l.nodes := fun hn => hn.resolve_right List.not_mem_nil
  refine ⟨?_, ?_, ?_, ?_, ?_, ?_, ?_⟩
  · intro n e
    rw [h.uses n e]
    constructor
    · rintro (⟨ho, hs⟩ | hs)
      · exact Or.inl ⟨ho, by rw [Arena.slot?_congr (hin _ ho), hs]⟩
      · exact Or.inr hs
    · rintro (⟨ho, hs⟩ | hs)
      · exact Or.inl ⟨ho, by rw [← Arena.slot?_congr (hin _ ho), hs]⟩
      · exact Or.inr hs
  · intro n hn m hm
    rw [hin n hn] at hm
    exact Or.inl (h.mem_of_input hn hm)
  · intro g hg n hn
    rcases hanch g hg n hn with hn | hn
    · exact Or.inl (h.mem_of_anchor hg hn)
    · exact Or.inr hn
  · intro n hn
    rcases hn with hn | hn
    · rcases h.kept n (Or.inl hn) with hu | ⟨g, hg, hn'⟩ | hl
      · exact Or.inl hu
      · exact Or.inr (Or.inl ⟨g, hg, hanch' g hg n hn'⟩)
      · exact Or.inr (Or.inr hl)
    · exact Or.inr (Or.inl (hdue n hn).2)
  · intro n hn g hg
    rw [hheld n hn] at hg
    rcases h.held n hn g hg with hh | hh | hh
    · exact Or.inl hh
    · exact absurd hh List.not_mem_nil
    · exact Or.inr (Or.inr hh)
  · intro n hn
    rcases hn with hn | hn
    · exact hids n (h.mem_nodeIds hn)
    · exact (hdue n hn).1
  · intro g hg
    rcases hg with hg | hg
    · exact hgraphs g (h.mem_graphIds hg)
    · exact absurd hg (hagenda g)

theorem Live.Agrees.congr_same (h : Agrees a l slack [])
    (hin : ∀ n ∈ l.nodes, b.inputs n = a.inputs n)
    (hheld : ∀ n ∈ l.nodes, b.heldGraph? n = a.heldGraph? n)
    (hanch : ∀ g ∈ l.graphs, ∀ n, n ∈ b.anchors g ↔ n ∈ a.anchors g)
    (hids : ∀ n ∈ a.nodeIds, n ∈ b.nodeIds)
    (hgraphs : ∀ g ∈ a.graphIds, g ∈ b.graphIds) : Agrees b l slack [] := by
  refine h.congr hin hheld ?_ ?_ ?_ hids hgraphs fun _ => List.not_mem_nil
  · exact fun g hg n hn => Or.inl ((hanch g hg n).mp hn)
  · exact fun g hg n hn => (hanch g hg n).mpr hn
  · exact fun _ hn => absurd hn List.not_mem_nil

end Index

namespace Store

variable {s s' : Store} {lax : Prop} {n : NodeId} {g : GraphId} {t : Option Ty}

theorem settled_empty (lax : Prop) : Store.empty.Settled lax :=
  ⟨Arena.wellFormed_empty, Live.agrees_empty lax, fun g hg => absurd hg (OrderedSet.not_mem_empty g)⟩

/-! ### New nodes and graphs -/

theorem Settled.newGraph (h : s.Settled lax) (name : String) :
    (s.newGraph name).2.Settled lax := by
  refine ⟨h.wellFormed.addGraph name, ?_, h.roots_live⟩
  refine h.agrees.congr_same (fun _ _ => rfl) (fun _ _ => rfl) ?_ (fun _ hn => hn) ?_
  · intro g hg n
    rw [Arena.anchors_congr (a := s.arena)]
    have hne : g ≠ ⟨s.arena.graphs.size⟩ := by
      rintro rfl
      have := s.arena.mem_graphIds.mp (h.agrees.mem_graphIds hg)
      exact Nat.lt_irrefl _ this
    exact (s.arena.graph?_addGraph name g).trans (if_neg hne)
  · exact fun g hg => (s.arena.mem_graphIds_addGraph name).mpr (Or.inr hg)

theorem Settled.newNode {k : NodeKind} {o : Option GraphId} (h : s.Settled lax)
    (hk : k ≠ .parameter) (hin : ∀ m ∈ k.inputs, m ∈ s.arena.nodeIds)
    (hheld : ∀ g, k.value? = some (.graph g) → g ∈ s.arena.graphIds)
    (ho : ∀ g, o = some g → g ∈ s.arena.graphIds) : (s.newNode k o t).2.Settled lax := by
  have hnode : ∀ n ∈ s.live.nodes, (s.newNode k o t).2.arena.node? n = s.arena.node? n :=
    fun n hn => s.arena.node?_addNode_of_mem k o t (h.agrees.mem_nodeIds hn)
  refine ⟨h.wellFormed.addNode hk hin hheld ho, ?_, h.roots_live⟩
  refine h.agrees.congr_same (fun n hn => Arena.inputs_congr (hnode n hn))
    (fun n hn => Arena.heldGraph?_congr (Arena.value?_congr (hnode n hn)))
    (fun _ _ _ => Iff.rfl) ?_ fun _ hg => hg
  exact fun n hn => (s.arena.mem_nodeIds_addNode k o t).mpr (Or.inr hn)

theorem Settled.constantWith (h : s.Settled lax) {v : Value}
    (hv : ∀ g, v = .graph g → g ∈ s.arena.graphIds) : (s.constantWith v t).2.Settled lax :=
  h.newNode (by simp) (by simp [NodeKind.inputs])
    (fun g hg => hv g (Option.some.inj hg)) (by simp)

theorem Settled.apply (h : s.Settled lax) {inputs : List NodeId} (hg : g ∈ s.arena.graphIds)
    (hin : ∀ m ∈ inputs, m ∈ s.arena.nodeIds) : (s.apply g inputs t).2.Settled lax :=
  h.newNode (by simp) hin (by simp [NodeKind.value?]) fun _ hg' => Option.some.inj hg' ▸ hg

theorem arena_acquireIn (s : Store) (g : GraphId) (n : NodeId) :
    (s.acquireIn g n).arena = s.arena := by
  unfold acquireIn
  split <;> rfl

/-- A new anchor of a graph is made live with it. -/
theorem Settled.acquireIn {b : Arena} (h : s.Settled lax) (hwf : b.WellFormed)
    (hn : n ∈ b.anchors g) (hid : n ∈ b.nodeIds)
    (hin : ∀ m ∈ s.live.nodes, b.inputs m = s.arena.inputs m)
    (hheld : ∀ m ∈ s.live.nodes, b.heldGraph? m = s.arena.heldGraph? m)
    (hanch : ∀ g' ∈ s.live.graphs, ∀ m, m ∈ b.anchors g' ↔
      m ∈ s.arena.anchors g' ∨ (g' = g ∧ m = n))
    (hids : ∀ m ∈ s.arena.nodeIds, m ∈ b.nodeIds)
    (hgraphs : ∀ g' ∈ s.arena.graphIds, g' ∈ b.graphIds) :
    (({ s with arena := b } : Store).acquireIn g n).Settled lax := by
  unfold Store.acquireIn
  by_cases hg : g ∈ s.live.graphs
  · rw [if_pos hg]
    refine ⟨hwf, Agrees.acquire hwf ?_, fun r hr => ?_⟩
    · refine h.agrees.congr hin hheld ?_ ?_ ?_ hids hgraphs fun g' => by simp
      · intro g' hg' m hm
        rcases (hanch g' hg' m).mp hm with hm | ⟨_, rfl⟩
        · exact Or.inl hm
        · exact Or.inr List.mem_cons_self
      · exact fun g' hg' m hm => (hanch g' hg' m).mpr (Or.inl hm)
      · intro m hm
        obtain rfl := Wanted.node.inj (List.mem_singleton.mp hm)
        exact ⟨hid, g, hg, hn⟩
    · exact Live.mem_graphs_acquire (Or.inl (h.roots_live r hr))
  · rw [if_neg hg]
    refine ⟨hwf, h.agrees.congr_same hin hheld (fun g' hg' m => ?_) hids hgraphs, h.roots_live⟩
    rw [hanch g' hg' m]
    exact or_iff_left fun ⟨hgg, _⟩ => hg (hgg ▸ hg')

theorem Settled.addParameter (h : s.Settled lax) (hg : g ∈ s.arena.graphIds) :
    (s.addParameter g t).2.Settled lax := by
  have hne : ∀ n ∈ s.live.nodes, n ≠ ⟨s.arena.nodes.size⟩ := by
    rintro n hn rfl
    exact s.arena.not_mem_nodeIds_size (h.agrees.mem_nodeIds hn)
  generalize hb : (s.arena.addNode .parameter (some g) t).2.modifyGraph g (fun d =>
    { d with parameters := d.parameters ++ [⟨s.arena.nodes.size⟩] }) = b
  have hwf : b.WellFormed := hb ▸ h.wellFormed.addParameter hg
  have hnode : ∀ n ∈ s.live.nodes, b.node? n = s.arena.node? n := by
    intro n hn
    rw [← hb]
    exact s.arena.node?_addNode_of_mem _ _ _ (h.agrees.mem_nodeIds hn)
  have hanch : ∀ g' m, m ∈ b.anchors g' ↔
      m ∈ s.arena.anchors g' ∨ (g' = g ∧ m = ⟨s.arena.nodes.size⟩) := by
    intro g' m
    obtain ⟨d, hd⟩ := Option.isSome_iff_exists.mp (Arena.mem_graphIds_iff_graph?.mp hg)
    have hgraph : b.graph? g' = if g' = g then (s.arena.graph? g').map fun d =>
        { d with parameters := d.parameters ++ [⟨s.arena.nodes.size⟩] }
        else s.arena.graph? g' := by
      rw [← hb]
      exact Arena.graph?_modifyGraph _ g _
    simp only [Arena.mem_anchors, Arena.parameters, Arena.ret?, hgraph]
    by_cases hgg : g' = g
    · subst hgg
      simp [hd]
      grind
    · simp [hgg]
  have hs : (s.addParameter g t).2 =
      ({ s with arena := b } : Store).acquireIn g ⟨s.arena.nodes.size⟩ := hb ▸ rfl
  rw [hs]
  refine h.acquireIn hwf ((hanch g _).mpr (Or.inr ⟨rfl, rfl⟩)) ?_
    (fun m hm => Arena.inputs_congr (hnode m hm))
    (fun m hm => Arena.heldGraph?_congr (Arena.value?_congr (hnode m hm)))
    (fun g' _ m => hanch g' m) ?_ ?_
  · rw [← hb]
    exact (s.arena.mem_nodeIds_addNode _ _ _).mpr (Or.inl rfl)
  · intro m hm
    rw [← hb]
    exact (s.arena.mem_nodeIds_addNode _ _ _).mpr (Or.inr hm)
  · intro g' hg'
    rw [← hb]
    exact (Arena.mem_graphIds_modifyGraph _ g _).mpr hg'

/-- A node over a function and an output becomes the return node of a graph without one. -/
theorem Settled.setRet {r f out : NodeId} (h : s.Settled lax) (ho : s.arena.owner? r = some g)
    (hi : s.arena.inputs r = [f, out]) (hnone : s.arena.ret? g = none) :
    (({ s with arena := s.arena.modifyGraph g fun d => { d with ret := some r } } :
      Store).acquireIn g r).Settled lax := by
  obtain ⟨d, hd⟩ := Option.isSome_iff_exists.mp
    (Arena.mem_graphIds_iff_graph?.mp (h.wellFormed.owner_mem ho))
  have hanch : ∀ g' m, m ∈ (s.arena.modifyGraph g fun d => { d with ret := some r }).anchors g' ↔
      m ∈ s.arena.anchors g' ∨ (g' = g ∧ m = r) := by
    intro g' m
    simp only [Arena.mem_anchors, Arena.parameters, Arena.ret?, Arena.graph?_modifyGraph]
    by_cases hgg : g' = g
    · subst hgg
      have hdret : d.ret = none := by simpa [Arena.ret?, hd] using hnone
      simp [hd, hdret, eq_comm]
    · simp [hgg]
  have hin : f ∈ s.arena.inputs r := by simp [hi]
  exact h.acquireIn (h.wellFormed.setRet ho hi) ((hanch g r).mpr (Or.inr ⟨rfl, rfl⟩))
    (Arena.mem_nodeIds_of_mem_inputs hin) (fun _ _ => rfl) (fun _ _ => rfl)
    (fun g' _ m => hanch g' m) (fun _ hm => hm)
    fun g' hg' => (Arena.mem_graphIds_modifyGraph _ g _).mpr hg'

theorem node?_apply (s : Store) (g : GraphId) (inputs : List NodeId) (t : Option Ty) :
    (s.apply g inputs t).2.arena.node? (s.apply g inputs t).1 =
      some ⟨.apply inputs, some g, t, none⟩ :=
  (s.arena.node?_addNode (.apply inputs) (some g) t _).trans (if_pos rfl)

theorem owner?_apply (s : Store) (g : GraphId) (inputs : List NodeId) (t : Option Ty) :
    (s.apply g inputs t).2.arena.owner? (s.apply g inputs t).1 = some g := by
  simp only [Arena.owner?, node?_apply, Option.bind_some]

theorem inputs_apply (s : Store) (g : GraphId) (inputs : List NodeId) (t : Option Ty) :
    (s.apply g inputs t).2.arena.inputs (s.apply g inputs t).1 = inputs := by
  simp only [Arena.inputs, Arena.kind?, node?_apply, Option.map_some, NodeKind.inputs]

theorem Settled.addReturn {out : NodeId} (h : s.Settled lax) (hg : g ∈ s.arena.graphIds)
    (hout : out ∈ s.arena.nodeIds) (hret : s.arena.ret? g = none) :
    (s.addReturn g out).Settled lax := by
  have hc : (s.constant (.prim .ret)).2.Settled lax := h.constantWith fun g hg => by cases hg
  have hin : ∀ m ∈ [(s.constant (.prim .ret)).1, out],
      m ∈ (s.constant (.prim .ret)).2.arena.nodeIds := by
    intro m hm
    refine (s.arena.mem_nodeIds_addNode _ _ _).mpr ?_
    rcases List.mem_cons.mp hm with rfl | hm
    · exact Or.inl rfl
    · exact Or.inr (List.mem_singleton.mp hm ▸ hout)
  have ha := hc.apply (g := g) (t := s.arena.type? out) hg hin
  exact ha.setRet (owner?_apply (s.constant (.prim .ret)).2 g _ _)
    (inputs_apply (s.constant (.prim .ret)).2 g _ _) hret

/-! ### Annotations, labels and roots -/

theorem Settled.modifyNode (h : s.Settled lax) (m : NodeId) (f : Node → Node)
    (hkind : ∀ d, (f d).kind = d.kind) (howner : ∀ d, (f d).owner = d.owner) :
    ({ s with arena := s.arena.modifyNode m f } : Store).Settled lax := by
  have hk : ∀ n, (s.arena.modifyNode m f).kind? n = s.arena.kind? n := by
    intro n
    simp only [Arena.kind?, Arena.node?_modifyNode]
    split
    · simp [Function.comp_def, hkind]
    · rfl
  refine ⟨h.wellFormed.modifyNode m f hkind howner, ?_, h.roots_live⟩
  refine h.agrees.congr_same (fun n _ => by simp only [Arena.inputs, hk])
    (fun n _ => Arena.heldGraph?_congr (by simp only [Arena.value?, hk])) (fun _ _ _ => Iff.rfl)
    (fun n hn => (s.arena.mem_nodeIds_modifyNode m f).mpr hn) fun _ hg => hg

theorem Settled.setType (h : s.Settled lax) (n : NodeId) (t : Option Ty) :
    (s.setType n t).Settled lax :=
  h.modifyNode n _ (fun _ => rfl) fun _ => rfl

theorem Settled.setLabel (h : s.Settled lax) (n : NodeId) (label : String) :
    (s.setLabel n label).Settled lax :=
  h.modifyNode n _ (fun _ => rfl) fun _ => rfl

theorem Settled.addRoot (h : s.Settled lax) (hg : g ∈ s.arena.graphIds) :
    (s.addRoot g).Settled lax := by
  refine ⟨h.wellFormed, (h.agrees.want_graph hg).acquire h.wellFormed, fun r hr => ?_⟩
  apply Live.mem_graphs_acquire
  rcases OrderedSet.mem_insert.mp hr with rfl | hr
  · exact Or.inr List.mem_cons_self
  · exact Or.inl (h.roots_live r hr)

theorem Settled.prune (h : s.Settled lax) (hac : lax ∨ s.arena.Acyclic) :
    s.prune.Settled lax := by
  refine ⟨h.wellFormed, h.agrees.prune h.wellFormed hac, fun r hr => ?_⟩
  exact Live.mem_graphs_prune.mpr
    ⟨h.roots_live r hr, Arena.mem_reachable.mpr ⟨r, hr, Arena.Leads.refl _ r⟩⟩

theorem mem_graphs_acquireGraphs {a : Arena} {gs : List GraphId} {l : Live} :
    (g ∈ gs ∨ g ∈ l.graphs) → g ∈ (gs.foldl (Live.acquireGraph a) l).graphs := by
  induction gs generalizing l with
  | nil => exact fun hg => hg.resolve_left List.not_mem_nil
  | cons x gs ih =>
    intro hg
    apply ih
    rcases hg with hg | hg
    · rcases List.mem_cons.mp hg with rfl | hg
      · exact Or.inr (Live.mem_graphs_acquire (Or.inr List.mem_cons_self))
      · exact Or.inl hg
    · exact Or.inr (Live.mem_graphs_acquire (Or.inl hg))

theorem agrees_acquireGraphs {a : Arena} {gs : List GraphId} {l : Live} {slack : Slack}
    (hwf : a.WellFormed) (h : Agrees a l slack []) (hgs : ∀ g ∈ gs, g ∈ a.graphIds) :
    Agrees a (gs.foldl (Live.acquireGraph a) l) slack [] := by
  induction gs generalizing l with
  | nil => exact h
  | cons x gs ih =>
    have hx := (h.want_graph (hgs x List.mem_cons_self)).acquire hwf
    exact ih hx fun g hg => hgs g (List.mem_cons_of_mem x hg)

theorem Settled.keepRoots {gs : List GraphId} (h : s.Settled lax)
    (hac : lax ∨ s.arena.Acyclic) (hgs : ∀ g ∈ gs, g ∈ s.arena.graphIds) :
    (s.keepRoots gs).Settled lax := by
  refine Settled.prune (s := ⟨s.arena, gs.foldl (Live.acquireGraph s.arena) s.live, .ofList gs⟩)
    ⟨h.wellFormed, agrees_acquireGraphs h.wellFormed h.agrees hgs, fun r hr => ?_⟩ hac
  exact mem_graphs_acquireGraphs (Or.inl (OrderedSet.mem_ofList.mp hr))

/-! ### Slots -/

theorem setEdge_eq_ok_iff {e : Edge} {new : NodeId} : s.setEdge e new = .ok s' ↔
    ∃ old, s.arena.slot? e = some old ∧
      s' = if old = new ∨ e.owner ∉ s.live.nodes
        then { s with arena := s.arena.setSlot e new }
        else ({ s with arena := s.arena.setSlot e new } : Store).moveUse e old new := by
  unfold setEdge
  constructor
  · intro h
    split at h
    · next inputs hk =>
      split at h
      · cases h
      · next old hold =>
        exact ⟨old, by rw [Arena.slot?, Arena.inputs_of_kind? hk, hold], (Except.ok.inj h).symm⟩
    · cases h
  · rintro ⟨old, hslot, rfl⟩
    have hk := Arena.kind?_of_mem_inputs (Arena.mem_inputs_of_slot? hslot)
    simp only [Arena.slot?] at hslot
    simp only [hk, hslot]

/-- The index in the course of moving a use, and whether a constant that names a graph went. -/
def movedUse (s : Store) (e : Edge) (old new : NodeId) : Live × Bool :=
  (((s.live.addUse new e).acquireNode s.arena new).dropUse old e).release s.arena false [old]

theorem moveUse_eq (s : Store) (e : Edge) (old new : NodeId) :
    s.moveUse e old new = if (s.movedUse e old new).2 = true
      then ({ s with live := (s.movedUse e old new).1 } : Store).prune
      else { s with live := (s.movedUse e old new).1 } := rfl

theorem arena_moveUse (s : Store) (e : Edge) (old new : NodeId) :
    (s.moveUse e old new).arena = s.arena := by
  rw [moveUse_eq]
  split <;> rfl

theorem roots_moveUse (s : Store) (e : Edge) (old new : NodeId) :
    (s.moveUse e old new).roots = s.roots := by
  rw [moveUse_eq]
  split <;> rfl

theorem arena_setEdge {e : Edge} {new : NodeId} (h : s.setEdge e new = .ok s') :
    s'.arena = s.arena.setSlot e new := by
  obtain ⟨old, _, rfl⟩ := setEdge_eq_ok_iff.mp h
  split
  · rfl
  · exact arena_moveUse _ e old new

theorem roots_setEdge {e : Edge} {new : NodeId} (h : s.setEdge e new = .ok s') :
    s'.roots = s.roots := by
  obtain ⟨old, _, rfl⟩ := setEdge_eq_ok_iff.mp h
  split
  · rfl
  · exact roots_moveUse _ e old new

/-- The slack while a use moves: the slot is still recorded with what it held before. -/
def movingSlack (lax : Prop) (e : Edge) (old : NodeId) : Slack :=
  { Slack.upTo lax with stale := fun n e' => n = old ∧ e' = e }

theorem agrees_addUse {e : Edge} {old new : NodeId} (h : s.Settled lax)
    (hslot : s.arena.slot? e = some old) (ho : e.owner ∈ s.live.nodes)
    (hnew : new ∈ s.arena.nodeIds) :
    Agrees (s.arena.setSlot e new) (s.live.addUse new e) (movingSlack lax e old) [.node new] := by
  have hmono : ∀ {n}, ¬ s.live.Idle n → ¬ (s.live.addUse new e).Idle n := fun hn hi =>
    hn fun e' he' => hi e' (Live.mem_usesOf_addUse.mpr (Or.inr he'))
  constructor
  · intro n e'
    have huses := h.agrees.mem_usesOf (fun _ _ hf => hf) (n := n) (e := e')
    rw [Live.mem_usesOf_addUse, huses]
    by_cases he : e' = e
    · subst he
      rw [Arena.slot?_setSlot_self new hslot, hslot]
      simp only [movingSlack, Option.some.injEq, and_true, eq_comm]
      constructor
      · rintro (hn | ⟨_, hn⟩)
        · exact Or.inl ⟨ho, hn⟩
        · exact Or.inr hn
      · rintro (⟨_, hn⟩ | hn)
        · exact Or.inl hn
        · exact Or.inr ⟨ho, hn⟩
    · simp [Arena.slot?_setSlot_of_ne new he, he, movingSlack, Live.addUse]
  · intro n hn m hm
    rcases Arena.mem_inputs_setSlot hm with hm | ⟨_, rfl⟩
    · exact Or.inl (h.agrees.mem_of_input hn hm)
    · exact Or.inr List.mem_cons_self
  · exact fun g hg n hn => Or.inl (h.agrees.mem_of_anchor hg hn)
  · intro n hn
    rcases hn with hn | hn
    · rcases h.agrees.kept n (Or.inl hn) with hu | ha | hl
      · exact Or.inl (hmono hu)
      · exact Or.inr (Or.inl ha)
      · exact hl.elim
    · obtain rfl := Wanted.node.inj (List.mem_singleton.mp hn)
      exact Or.inl fun hi => hi e (Live.mem_usesOf_addUse.mpr (Or.inl ⟨rfl, rfl⟩))
  · intro n hn g hg
    rw [Arena.heldGraph?_setSlot] at hg
    rcases h.agrees.held n hn g hg with hh | hh | hh
    · exact Or.inl hh
    · exact absurd hh List.not_mem_nil
    · exact Or.inr (Or.inr hh)
  · intro n hn
    rw [Arena.mem_nodeIds_setSlot]
    rcases hn with hn | hn
    · exact h.agrees.mem_nodeIds hn
    · exact Wanted.node.inj (List.mem_singleton.mp hn) ▸ hnew
  · intro g hg
    exact h.agrees.graph_mem g (hg.imp_right fun hg => by simp at hg)

theorem agrees_dropUse {b : Arena} {l : Live} {e : Edge} {old new : NodeId}
    (h : Agrees b l (movingSlack lax e old) []) (hslot : b.slot? e = some new) (hne : old ≠ new) :
    Agrees b (l.dropUse old e) ((Slack.upTo lax).withLoose [old]) [] := by
  refine ⟨?_, h.inputs, h.anchors, ?_, h.held, h.node_mem, h.graph_mem⟩
  · intro n e'
    rw [Live.mem_usesOf_dropUse, h.uses n e']
    constructor
    · rintro ⟨hn, hu | hu⟩
      · exact Or.inl hu
      · exact absurd hu hn
    · rintro (hu | hu)
      · refine ⟨?_, Or.inl hu⟩
        rintro ⟨rfl, rfl⟩
        exact hne (Option.some.inj (hu.2.symm.trans hslot))
      · exact hu.elim
  · intro n hn
    rcases h.kept n hn with hu | ha | hl
    · by_cases hold : n = old
      · exact Or.inr (Or.inr (Or.inl (List.mem_singleton.mpr hold)))
      · refine Or.inl fun hi => hu fun e' he' => hi e' ?_
        exact Live.mem_usesOf_dropUse.mpr ⟨fun hc => hold hc.1, he'⟩
    · exact Or.inr (Or.inl ha)
    · exact hl.elim

/-- Pointing a slot elsewhere leaves the store settled, whatever is released on the way. -/
theorem Settled.setEdge {e : Edge} {new : NodeId} (h : s.Settled lax)
    (hnew : new ∈ s.arena.nodeIds) (hok : s.setEdge e new = .ok s')
    (hac : lax ∨ s'.arena.Acyclic) : s'.Settled lax := by
  rw [arena_setEdge hok] at hac
  obtain ⟨old, hslot, rfl⟩ := setEdge_eq_ok_iff.mp hok
  have hwf : (s.arena.setSlot e new).WellFormed := h.wellFormed.setSlot hnew
  by_cases hc : old = new ∨ e.owner ∉ s.live.nodes
  · rw [if_pos hc]
    refine ⟨hwf, h.agrees.congr_same (fun n hn => ?_) (fun n _ => ?_) (fun _ _ _ => Iff.rfl)
      (fun n hn => (s.arena.mem_nodeIds_setSlot e new).mpr hn) fun _ hg => hg, h.roots_live⟩
    · rw [Arena.inputs_setSlot]
      by_cases hno : n = e.owner
      · rcases hc with rfl | hc
        · rw [if_pos hno, hno]
          obtain ⟨hlt, hget⟩ := List.getElem?_eq_some_iff.mp hslot
          rw [← hget, List.set_getElem_self]
        · exact absurd (hno ▸ hn) hc
      · rw [if_neg hno]
    · exact Arena.heldGraph?_setSlot _ e new
  · obtain ⟨hne, hlive⟩ := not_or.mp hc
    have hadd := (agrees_addUse h hslot (Decidable.not_not.mp hlive) hnew).acquire hwf
    have hdrop := agrees_dropUse hadd (Arena.slot?_setSlot_self new hslot) hne
    have hrel := hdrop.release false hwf fun _ _ hf => hf
    have hroots : ∀ r ∈ s.roots, r ∈ (movedUse { s with arena := s.arena.setSlot e new }
        e old new).1.graphs := by
      intro r hr
      rw [movedUse, Live.graphs_release]
      exact Live.mem_graphs_acquire (Or.inl (h.roots_live r hr))
    rw [if_neg hc, moveUse_eq]
    split
    · exact Settled.prune (s := ⟨s.arena.setSlot e new, _, s.roots⟩) ⟨hwf, hrel, hroots⟩ hac
    · exact ⟨hwf, hrel, hroots⟩

end Store

end Midend
