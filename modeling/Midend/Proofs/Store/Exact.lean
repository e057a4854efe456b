import Mathlib
import Midend.Proofs.Live.Reached
import Midend.Proofs.Store.Liveness

/-!
# Which graphs stay live

A store is exact when exactly the graphs that its roots reach are live. A change of slots looks for
unreachable graphs only if it releases a constant that names one. A constant under the return nodes
of two graphs is not released with the first of its uses, so a graph can keep itself alive through a
constant that it shares with its last caller.
-/

namespace Midend

namespace Arena

variable {a : Arena} {e : Edge} {n old new : NodeId}

/-- Whether the return nodes of two graphs have `n` under them. -/
def SharedBelow (a : Arena) (n : NodeId) : Prop :=
  ∃ g h r q, g ≠ h ∧ a.ret? g = some r ∧ a.ret? h = some q ∧ a.Under r n ∧ a.Under q n

/-- Whether no constant under `n` names a graph from within two graphs. -/
def Unshared (a : Arena) (n : NodeId) : Prop :=
  ∀ k, a.Under n k → (a.heldGraph? k).isSome = true → ¬ a.SharedBelow k

theorem Under.of_setSlot_of_under (hslot : a.slot? e = some old)
    (h : (a.setSlot e new).Under n m) (hold : a.Under old m) : a.Under n m := by
  rcases h.of_setSlot with h | h
  · exact h
  · exact (h.trans (under_of_mem_inputs (mem_inputs_of_slot? hslot))).trans hold

/-- Taking a use of `old` away does not make what is under `old` shared. -/
theorem Unshared.setSlot (h : a.Unshared old) (hac : a.Acyclic) (hslot : a.slot? e = some old) :
    (a.setSlot e new).Unshared old := by
  have hold : ∀ {k}, (a.setSlot e new).Under old k → a.Under old k := fun hk =>
    hk.of_setSlot.resolve_right (hac.not_under (mem_inputs_of_slot? hslot))
  rintro k hk hheld ⟨g, g', r, q, hne, hr, hq, hrk, hqk⟩
  rw [heldGraph?_setSlot] at hheld
  exact h k (hold hk) hheld ⟨g, g', r, q, hne, hr, hq,
    .of_setSlot_of_under hslot hrk (hold hk), .of_setSlot_of_under hslot hqk (hold hk)⟩

end Arena

namespace Store

variable {s s' : Store} {e : Edge} {n old new : NodeId} {g : GraphId}

/-! ### Exact stores -/

/-- Whether exactly the graphs that the roots reach are live. -/
def Exact (s : Store) : Prop := ∀ g, g ∈ s.live.graphs ↔ g ∈ s.arena.reachable s.roots.toList

theorem Settled.live_of_reachable (h : s.Settled False)
    (hg : g ∈ s.arena.reachable s.roots.toList) : g ∈ s.live.graphs := by
  obtain ⟨r, hr, hl⟩ := Arena.mem_reachable.mp hg
  exact h.live_of_leads (h.roots_live r hr) hl

theorem reachable_of_names {h : GraphId} (hg : g ∈ s.arena.reachable s.roots.toList)
    (hn : s.arena.Names g h) : h ∈ s.arena.reachable s.roots.toList := by
  obtain ⟨r, hr, hl⟩ := Arena.mem_reachable.mp hg
  exact Arena.mem_reachable.mpr ⟨r, hr, hl.tail hn⟩

theorem Settled.exists_ret_of_held {lax : Prop} (h : s.Settled lax) (hac : s.arena.Acyclic)
    (hn : n ∈ s.live.nodes) (hheld : (s.arena.heldGraph? n).isSome = true) :
    ∃ g ∈ s.live.graphs, ∃ r, s.arena.ret? g = some r ∧ s.arena.Under r n := by
  obtain ⟨g, hg, hp | hr⟩ := (h.mem_nodes_iff hac).mp hn
  · obtain ⟨g', hg'⟩ := Option.isSome_iff_exists.mp hheld
    rw [Arena.heldGraph?_eq_some_iff] at hg'
    have hpar := (h.wellFormed.mem_parameters.mp hp).1
    simp [Arena.isParameter, Arena.kind?_of_value? hg'] at hpar
  · exact ⟨g, hg, hr⟩

/-- In an exact store without cycles what live constants name is live. -/
theorem Exact.settled {lax : Prop} (hex : s.Exact) (h : s.Settled lax) (hac : s.arena.Acyclic) :
    s.Settled False := by
  refine h.strict fun n hn g hg => ?_
  obtain ⟨g', hg', r, hr, hu⟩ := h.exists_ret_of_held hac hn (by simp [hg])
  exact (hex g).mpr (reachable_of_names ((hex g').mp hg') ⟨r, n, hr, hu, hg⟩)

theorem exact_prune (h : s.prune.Settled False) : s.prune.Exact := fun _ =>
  ⟨fun hg => (Live.mem_graphs_prune.mp hg).2, h.live_of_reachable⟩

/-- Whether the roots reach what is wanted. -/
def WantedIn (a : Arena) (roots : List GraphId) : Wanted → Prop
  | .node m => ∃ g ∈ a.reachable roots, ∃ k ∈ a.anchors g, a.Under k m
  | .graph g => g ∈ a.reachable roots

/-- What an acquisition adds is reachable if it starts under the return node of a reachable
graph. -/
theorem reachable_of_acquired {a : Arena} {l : Live} {roots : List GraphId} (hwf : a.WellFormed)
    (hn : a.Returned roots n) :
    ∀ g ∈ (l.acquireNode a n).graphs, g ∈ l.graphs ∨ g ∈ a.reachable roots := by
  refine Live.closed_acquire (P := WantedIn a roots) ?_ ?_ ?_ ?_
  · rintro m g ⟨g', hg', k, hk, hu⟩ hheld
    rcases hwf.under_ret_of_anchor hk hu with hp | ⟨r, hr, hur⟩
    · rw [Arena.heldGraph?_eq_some_iff] at hheld
      have hpar := (hwf.mem_parameters.mp hp).1
      simp [Arena.isParameter, Arena.kind?_of_value? hheld] at hpar
    · obtain ⟨root, hroot, hl⟩ := Arena.mem_reachable.mp hg'
      exact Arena.mem_reachable.mpr ⟨root, hroot, hl.tail ⟨r, m, hr, hur, hheld⟩⟩
  · rintro m ⟨g, hg, k, hk, hu⟩ j hj
    exact ⟨g, hg, k, hk, hu.trans (Arena.under_of_mem_inputs hj)⟩
  · exact fun g hg m hm => ⟨g, hg, m, hm, Arena.Under.refl a m⟩
  · intro w hw
    obtain rfl := List.mem_singleton.mp hw
    obtain ⟨g, hg, r, hr, hu⟩ := hn
    exact ⟨g, hg, r, Arena.mem_anchors.mpr (Or.inr hr), hu⟩

/-! ### One slot -/

/-- If a slot of an exact store goes over to another node and no constant that names a graph is
lost, then live graphs stay reachable, up to constants that are shared. -/
theorem Exact.reachable_of_setSlot (hex : s.Exact) (hs : s.Settled False)
    (hslot : s.arena.slot? e = some old) (hun : s.arena.Unshared old) (hs' : s'.Settled False)
    (hac' : s'.arena.Acyclic) (harena : s'.arena = s.arena.setSlot e new)
    (hroots : s'.roots = s.roots)
    (hkept : ∀ n ∈ s.live.nodes, (s.arena.heldGraph? n).isSome = true → n ∈ s'.live.nodes) :
    ∀ g ∈ s.live.graphs, g ∈ s'.arena.reachable s'.roots.toList := by
  have hheld : ∀ n, s'.arena.heldGraph? n = s.arena.heldGraph? n := fun n => by simp [harena]
  have hret : ∀ g, s'.arena.ret? g = s.arena.ret? g := fun g => by simp [harena]
  intro g hg
  obtain ⟨root, hroot, hl⟩ := Arena.mem_reachable.mp ((hex g).mp hg)
  induction hl with
  | refl => exact Arena.mem_reachable.mpr ⟨root, hroots ▸ hroot, Arena.Leads.refl _ root⟩
  | @tail g h hl hn ih =>
    have hlive : g ∈ s.live.graphs := (hex g).mpr (Arena.mem_reachable.mpr ⟨root, hroot, hl⟩)
    have hreach := ih hlive
    obtain ⟨r, k, hr, hu, hk⟩ := hn
    rcases hu.setSlot_or new hslot with hu' | ⟨-, hold⟩
    · rw [← harena] at hu'
      exact reachable_of_names hreach ⟨r, k, (hret g).trans hr, hu', (hheld k).trans hk⟩
    · -- the constant survives under the return node of some live graph
      have hsome : (s.arena.heldGraph? k).isSome = true := by simp [hk]
      have hklive := hkept k (hs.agrees.mem_of_under (hs.agrees.ret_mem hlive hr) hu) hsome
      obtain ⟨g', hg', r', hr', hu'⟩ :=
        hs'.exists_ret_of_held hac' hklive (by rw [hheld]; exact hsome)
      by_cases hgg : g' = g
      · subst hgg
        exact reachable_of_names hreach ⟨r', k, hr', hu', (hheld k).trans hk⟩
      · rw [harena] at hu'
        have hu'' := Arena.Under.of_setSlot_of_under hslot hu' hold
        exact absurd ⟨g', g, r', r, hgg, (hret g') ▸ hr', hr, hu'', hu⟩ (hun k hold hsome)

/-- A slot of an exact store goes over to `new`. If no constant that names a graph is lost, and only
graphs reached from `new` are added, then the store stays exact, up to constants that are shared. -/
theorem Exact.of_setSlot (hex : s.Exact) (hs : s.Settled False) (hac : s.arena.Acyclic)
    (hslot : s.arena.slot? e = some old) (hun : s.arena.Unshared old) (hs' : s'.Settled False)
    (hac' : s'.arena.Acyclic) (harena : s'.arena = s.arena.setSlot e new)
    (hroots : s'.roots = s.roots)
    (hkept : ∀ n ∈ s.live.nodes, (s.arena.heldGraph? n).isSome = true → n ∈ s'.live.nodes)
    (hadded : ∀ g ∈ s'.live.graphs, g ∈ s.live.graphs ∨ (e.owner ∈ s.live.nodes ∧
      (s'.arena.Returned s'.roots.toList new → g ∈ s'.arena.reachable s'.roots.toList))) :
    s'.Exact := by
  have hold := hex.reachable_of_setSlot hs hslot hun hs' hac' harena hroots hkept
  have hnew : e.owner ∈ s.live.nodes → s'.arena.Returned s'.roots.toList new := by
    intro ho
    have hin := Arena.mem_inputs_of_slot? hslot
    obtain ⟨g, hg, hp | ⟨r, hr, hu⟩⟩ := (hs.mem_nodes_iff hac).mp ho
    · have hpar := (hs.wellFormed.mem_parameters.mp hp).1
      simp [Arena.inputs_eq_nil_of_isParameter hpar] at hin
    · have hslot' : s'.arena.slot? e = some new := by
        rw [harena, Arena.slot?_setSlot_self new hslot]
      have hu' : s'.arena.Under r e.owner := harena ▸ hac.under_owner_setSlot hslot hu
      exact ⟨g, hold g hg, r, by simpa [harena] using hr,
        hu'.trans (Arena.under_of_mem_inputs (Arena.mem_inputs_of_slot? hslot'))⟩
  refine fun g => ⟨fun hg => ?_, hs'.live_of_reachable⟩
  rcases hadded g hg with hg | ⟨ho, hg⟩
  · exact hold g hg
  · exact hg (hnew ho)

theorem Exact.setEdge (hex : s.Exact) (hs : s.Settled False) (hac : s.arena.Acyclic)
    (hnew : new ∈ s.arena.nodeIds) (hslot : s.arena.slot? e = some old)
    (hun : s.arena.Unshared old) (hok : s.setEdge e new = .ok s') (hac' : s'.arena.Acyclic) :
    s'.Exact := by
  have hs' : s'.Settled False := hs.setEdge hnew hok (Or.inr hac')
  have harena := arena_setEdge hok
  have hroots := roots_setEdge hok
  obtain ⟨old', hslot', heq⟩ := setEdge_eq_ok_iff.mp hok
  obtain rfl : old' = old := Option.some.inj (hslot'.symm.trans hslot)
  split at heq
  · subst heq
    exact hex.of_setSlot hs hac hslot hun hs' hac' harena hroots (fun n hn _ => hn)
      fun g hg => Or.inl hg
  · next hc =>
    obtain ⟨-, ho⟩ := not_or.mp hc
    rw [moveUse_eq] at heq
    split at heq
    · subst heq
      exact exact_prune hs'
    · next hdropped =>
      subst heq
      refine hex.of_setSlot hs hac hslot hun hs' hac' harena hroots (fun n hn hheld => ?_) ?_
      · refine Live.mem_nodes_release (Bool.eq_false_iff.mpr hdropped) ?_ (by simpa using hheld)
        exact Live.mem_nodes_acquire hn
      · intro g hg
        simp only [movedUse, Live.graphs_release] at hg
        by_cases hgl : g ∈ s.live.graphs
        · exact Or.inl hgl
        · refine Or.inr ⟨Decidable.not_not.mp ho, fun hret => ?_⟩
          exact (reachable_of_acquired hs'.wellFormed hret g hg).resolve_left hgl

theorem Exact.setEdges {es : List Edge} (hex : s.Exact) (hs : s.Settled False)
    (hac : s.arena.Acyclic) (hnew : new ∈ s.arena.nodeIds) (hnodup : es.Nodup)
    (hslots : ∀ e ∈ es, s.arena.slot? e = some old) (hun : s.arena.Unshared old)
    (hac' : (s.setEdges new es).1.arena.Acyclic) : (s.setEdges new es).1.Exact := by
  induction es generalizing s with
  | nil => exact hex
  | cons e es ih =>
    obtain ⟨hnot, hnodup⟩ := List.nodup_cons.mp hnodup
    unfold Store.setEdges at hac' ⊢
    split
    · next s' hok =>
      rw [hok] at hac'
      have hone := acyclic_of_setEdges hac hok hac'
      have hslot := hslots e List.mem_cons_self
      refine ih (hex.setEdge hs hac hnew hslot hun hok hone)
        (hs.setEdge hnew hok (Or.inr hone)) hone
        ((mem_nodeIds_setEdge hok).mpr hnew) hnodup (fun e' he' => ?_) ?_ hac'
      · -- the slots are different ones, so those to come still hold `old`
        rw [arena_setEdge hok, Arena.slot?_setSlot_of_ne new (ne_of_mem_of_not_mem he' hnot)]
        exact hslots e' (List.mem_cons_of_mem e he')
      · exact arena_setEdge hok ▸ hun.setSlot hac hslot
    · exact hex

theorem Exact.replace (hex : s.Exact) (hs : s.Settled False) (hac : s.arena.Acyclic)
    (hnew : new ∈ s.arena.nodeIds) (hun : s.arena.Unshared old)
    (hac' : (s.replace old new).1.arena.Acyclic) : (s.replace old new).1.Exact := by
  unfold Store.replace at hac' ⊢
  split
  · exact hex
  · next hne =>
    rw [if_neg hne] at hac'
    exact hex.setEdges hs hac hnew (s.live.usesOf old).nodup
      (fun e he => (hs.mem_usesOf.mp he).2) hun hac'

/-! ### A first output -/

theorem node?_addReturn {out : NodeId} (hn : n ∈ s.arena.nodeIds) :
    (s.addReturn g out).arena.node? n = s.arena.node? n := by
  rw [addReturn, arena_acquireIn]
  have hmem := (s.arena.mem_nodeIds_addNode (.constant (.prim .ret)) none
    (Value.type? (.prim .ret))).mpr (Or.inr hn)
  exact (Arena.node?_addNode_of_mem _ _ _ _ hmem).trans (Arena.node?_addNode_of_mem _ _ _ _ hn)

theorem ret?_addReturn {out r : NodeId} {h : GraphId} (hnone : s.arena.ret? g = none)
    (hr : s.arena.ret? h = some r) : (s.addReturn g out).arena.ret? h = some r := by
  have hne : h ≠ g := by
    rintro rfl
    simp [hnone] at hr
  rw [addReturn, arena_acquireIn]
  simp only [Arena.ret?, Arena.graph?_modifyGraph, if_neg hne]
  exact hr

theorem names_addReturn {out : NodeId} {h k : GraphId} (hwf : s.arena.WellFormed)
    (hnone : s.arena.ret? g = none) (hn : s.arena.Names h k) :
    (s.addReturn g out).arena.Names h k := by
  obtain ⟨r, n, hr, hu, hk⟩ := hn
  have hstep : ∀ {m}, s.arena.Under r m →
      m ∈ s.arena.nodeIds ∧ (s.addReturn g out).arena.Under r m := by
    intro m hm
    induction hm with
    | refl => exact ⟨hwf.ret_mem hr, Arena.Under.refl _ r⟩
    | @tail k m _ hm ih =>
      have hin : m ∈ (s.addReturn g out).arena.inputs k :=
        (Arena.inputs_congr (node?_addReturn ih.1)).symm ▸ hm
      exact ⟨hwf.input_mem hm, ih.2.trans (Arena.under_of_mem_inputs hin)⟩
  obtain ⟨hmem, hu'⟩ := hstep hu
  refine ⟨r, n, ret?_addReturn hnone hr, hu', ?_⟩
  rw [Arena.heldGraph?_congr (Arena.value?_congr (node?_addReturn hmem)), hk]

theorem addReturn_eq (hg : g ∈ s.arena.graphIds) (out : NodeId) : ∃ r,
    (s.addReturn g out).arena.ret? g = some r ∧ s.addReturn g out =
      ({ s with arena := (s.addReturn g out).arena } : Store).acquireIn g r := by
  obtain ⟨d, hd⟩ := Option.isSome_iff_exists.mp (Arena.mem_graphIds_iff_graph?.mp hg)
  refine ⟨((s.constant (.prim .ret)).2.apply g [(s.constant (.prim .ret)).1, out]
    (s.arena.type? out)).1, ?_, ?_⟩
  · have hsame : ((s.constant (.prim .ret)).2.apply g [(s.constant (.prim .ret)).1, out]
        (s.arena.type? out)).2.arena.graph? g = some d := hd
    rw [addReturn, arena_acquireIn]
    simp [Arena.ret?, Arena.graph?_modifyGraph, hsame]
  · rw [addReturn, arena_acquireIn]
    rfl

/-- Nothing is taken away by a first output, and what it adds is reached through it. -/
theorem Exact.addReturn {out : NodeId} (hex : s.Exact) (hs : s.Settled False)
    (hg : g ∈ s.arena.graphIds) (hout : out ∈ s.arena.nodeIds) (hnone : s.arena.ret? g = none) :
    (s.addReturn g out).Exact := by
  have hs' := hs.addReturn hg hout hnone
  obtain ⟨r, hr, heq⟩ := addReturn_eq hg out
  have hroots : (s.addReturn g out).roots = s.roots := by
    rw [heq]
    unfold acquireIn
    split <;> rfl
  have hold : ∀ h ∈ s.live.graphs,
      h ∈ (s.addReturn g out).arena.reachable (s.addReturn g out).roots.toList := by
    intro h hh
    obtain ⟨root, hroot, hl⟩ := Arena.mem_reachable.mp ((hex h).mp hh)
    have hl' : (s.addReturn g out).arena.Leads root h := by
      induction hl with
      | refl => exact Arena.Leads.refl _ root
      | tail hl hn ih =>
        have hlive := (hex _).mpr (Arena.mem_reachable.mpr ⟨root, hroot, hl⟩)
        exact (ih hlive).tail (names_addReturn hs.wellFormed hnone hn)
    rw [hroots]
    exact Arena.mem_reachable.mpr ⟨root, hroot, hl'⟩
  refine fun h => ⟨fun hh => ?_, hs'.live_of_reachable⟩
  -- the return node is acquired only if its graph is live already
  by_cases hlive : g ∈ s.live.graphs
  · have hret : (s.addReturn g out).arena.Returned (s.addReturn g out).roots.toList r :=
      ⟨g, hold g hlive, r, hr, Arena.Under.refl _ r⟩
    have hacq : h ∈ (s.live.acquireNode (s.addReturn g out).arena r).graphs := by
      rw [heq, acquireIn, if_pos hlive] at hh
      exact hh
    rcases reachable_of_acquired hs'.wellFormed hret h hacq with hh' | hh'
    · exact hold h hh'
    · exact hh'
  · rw [heq, acquireIn, if_neg hlive] at hh
    exact hold h hh

/-! ### Calls that point slots elsewhere -/

/-- Whether a call points slots elsewhere. -/
def Call.Moves : Call → Prop
  | setEdge .. | replace .. | setOutput .. => True
  | _ => False

/-- Whether a call takes `n` out of a slot that it points elsewhere. -/
def Call.TakesOut (a : Arena) : Call → NodeId → Prop
  | setEdge e _, n => a.slot? e = some n
  | replace old _, n => n = old
  | setOutput g _, n => a.output? g = some n
  | _, _ => False

theorem Exact.settle {r : Except Fault Store} (hex : s.Exact)
    (hr : ∀ s', r = .ok s' → s'.Exact) : (s.settle r).1.Exact := by
  cases r with
  | ok s' => exact hr s' rfl
  | error f => exact hex

theorem Exact.perform {c : Call} (hex : s.Exact) (hs : s.Settled False) (hac : s.arena.Acyclic)
    (hc : c.Fits s.arena) (hm : c.Moves) (hac' : (s.perform c).1.arena.Acyclic)
    (hun : ∀ n, c.TakesOut s.arena n → s.arena.Unshared n) : (s.perform c).1.Exact := by
  have hsetEdge : ∀ {e new s'}, new ∈ s.arena.nodeIds → s.setEdge e new = .ok s' →
      s'.arena.Acyclic → (∀ n, s.arena.slot? e = some n → s.arena.Unshared n) → s'.Exact := by
    intro e new s' hnew hok hone hun
    obtain ⟨old, hslot, -⟩ := setEdge_eq_ok_iff.mp hok
    exact hex.setEdge hs hac hnew hslot (hun old hslot) hok hone
  cases c with
  | setEdge e new =>
    refine hex.settle fun s' hok => hsetEdge hc.2 hok ?_ hun
    simpa [Store.perform, hok, Store.settle] using hac'
  | replace old new => exact hex.replace hs hac hc.2 (hun old rfl) hac'
  | setOutput g out =>
    refine hex.settle fun s' hok => ?_
    have hone : s'.arena.Acyclic := by simpa [Store.perform, hok, Store.settle] using hac'
    unfold Store.setOutput at hok
    split at hok
    · next r hr =>
      exact hsetEdge hc.2 hok hone fun n hn => hun n (Arena.output?_eq_some_iff.mpr ⟨r, hr, hn⟩)
    · next hnone => exact Except.ok.inj hok ▸ hex.addReturn hs hc.1 hc.2 hnone
  | _ => exact hm.elim

/-- In an exact store a call that points slots elsewhere, with no cycle of inputs before or after,
loses no graph that the roots reach; and unless a constant under what it takes out names a graph
from within two graphs, it leaves no other graph live. -/
theorem exact_of_moves_unless_shared {c : Call} (h : s.Reachable) (hac : s.arena.Acyclic)
    (hex : s.Exact) (hc : c.Fits s.arena) (hm : c.Moves) (hac' : (s.perform c).1.arena.Acyclic) :
    (∀ g ∈ (s.perform c).1.arena.reachable (s.perform c).1.roots.toList,
      g ∈ (s.perform c).1.live.graphs) ∧
    ((∀ n, c.TakesOut s.arena n → s.arena.Unshared n) → (s.perform c).1.Exact) := by
  have hs := hex.settled h.settled hac
  exact ⟨fun _ hg => (hs.steps (stepsAcyclic_perform hac hc hac')).live_of_reachable hg,
    hex.perform hs hac hc hm hac'⟩

/-- A graph that calls itself and is called by another one, each time through a constant of its
own. -/
def calledTwice : Store := Store.empty.performAll
  [.newGraph "f", .addParameter ⟨0⟩ none, .constant (.graph ⟨0⟩) none, .apply ⟨0⟩ [⟨1⟩, ⟨0⟩] none,
    .setOutput ⟨0⟩ ⟨2⟩, .newGraph "main", .addParameter ⟨1⟩ none, .constant (.graph ⟨0⟩) none,
    .apply ⟨1⟩ [⟨6⟩, ⟨5⟩] none, .setOutput ⟨1⟩ ⟨7⟩, .addRoot ⟨1⟩]

/-- The same with one constant for both calls. -/
def calledAlike : Store := Store.empty.performAll
  [.newGraph "f", .addParameter ⟨0⟩ none, .constant (.graph ⟨0⟩) none, .apply ⟨0⟩ [⟨1⟩, ⟨0⟩] none,
    .setOutput ⟨0⟩ ⟨2⟩, .newGraph "main", .addParameter ⟨1⟩ none, .apply ⟨1⟩ [⟨1⟩, ⟨5⟩] none,
    .setOutput ⟨1⟩ ⟨6⟩, .addRoot ⟨1⟩]

theorem called_calledTwice : calledTwice.Called :=
  Called.start.performAll (of_decide_eq_true (by cbv))

theorem called_calledAlike : calledAlike.Called :=
  Called.start.performAll (of_decide_eq_true (by cbv))

theorem exact_of_toList (h : s.live.graphs.toList = s.arena.reachable s.roots.toList) : s.Exact :=
  fun g => by rw [OrderedSet.mem_def, h]

/-- Once the caller returns its parameter the graph that calls itself is not live any more. -/
theorem exact_of_moves_unless_shared_calledTwice :
    (calledTwice.perform (.setOutput ⟨1⟩ ⟨5⟩)).1.Exact ∧
      ⟨0⟩ ∉ (calledTwice.perform (.setOutput ⟨1⟩ ⟨5⟩)).1.live.graphs := by
  have hids : calledTwice.arena.graphIds = [⟨0⟩, ⟨1⟩] := by cbv
  have hret : calledTwice.arena.ret? ⟨0⟩ = some ⟨4⟩ := by cbv
  have hbelow : calledTwice.arena.preorder ⟨4⟩ = [⟨4⟩, ⟨3⟩, ⟨2⟩, ⟨1⟩, ⟨0⟩] := by cbv
  have hout : calledTwice.arena.output? ⟨1⟩ = some ⟨7⟩ := by cbv
  have htaken : calledTwice.arena.preorder ⟨7⟩ = [⟨7⟩, ⟨6⟩, ⟨5⟩] := by cbv
  have hcalls : calledTwice.arena.heldGraph? ⟨7⟩ = none ∧
      calledTwice.arena.heldGraph? ⟨5⟩ = none := by cbv
  -- of the two return nodes only that of the caller is over the constant
  have hone : ∀ g r, calledTwice.arena.ret? g = some r → calledTwice.arena.Under r ⟨6⟩ →
      g = ⟨1⟩ := by
    intro g r hr hu
    have hg := Arena.mem_graphIds_of_ret? hr
    rw [hids] at hg
    rcases List.mem_cons.mp hg with rfl | hg
    · obtain rfl := Option.some.inj (hret.symm.trans hr)
      rw [← Arena.mem_preorder, hbelow] at hu
      exact absurd hu (by decide)
    · exact List.mem_singleton.mp hg
  have hun : ∀ n, Call.TakesOut calledTwice.arena (.setOutput ⟨1⟩ ⟨5⟩) n →
      calledTwice.arena.Unshared n := by
    intro n hn k hk hheld
    obtain rfl := Option.some.inj (hout.symm.trans hn)
    rw [← Arena.mem_preorder, htaken] at hk
    simp only [List.mem_cons, List.not_mem_nil, or_false] at hk
    rcases hk with rfl | rfl | rfl
    · simp [hcalls.1] at hheld
    · rintro ⟨g, h, r, q, hne, hr, hq, hrk, hqk⟩
      exact hne ((hone g r hr hrk).trans (hone h q hq hqk).symm)
    · simp [hcalls.2] at hheld
  have hex := (exact_of_moves_unless_shared (c := .setOutput ⟨1⟩ ⟨5⟩) called_calledTwice.reachable
    (of_decide_eq_true (by cbv)) (exact_of_toList (by cbv)) (of_decide_eq_true (by cbv)) trivial
    (of_decide_eq_true (by cbv))).2 hun
  have hreach : (calledTwice.perform (.setOutput ⟨1⟩ ⟨5⟩)).1.arena.reachable
      (calledTwice.perform (.setOutput ⟨1⟩ ⟨5⟩)).1.roots.toList = [⟨1⟩] := by cbv
  refine ⟨hex, fun hlive => ?_⟩
  have hmem := (hex ⟨0⟩).mp hlive
  rw [hreach] at hmem
  exact absurd hmem (by decide)

/-- With one constant for both calls it stays live, although the root does not reach it. -/
theorem not_exact_calledAlike :
    calledAlike.Called ∧ calledAlike.arena.Acyclic ∧ calledAlike.Exact ∧
    (Call.setOutput ⟨1⟩ ⟨5⟩).Fits calledAlike.arena ∧
    (calledAlike.perform (.setOutput ⟨1⟩ ⟨5⟩)).2 = .ok () ∧
    (calledAlike.perform (.setOutput ⟨1⟩ ⟨5⟩)).1.arena.Acyclic ∧
    ¬ (calledAlike.perform (.setOutput ⟨1⟩ ⟨5⟩)).1.Exact := by
  refine ⟨called_calledAlike, of_decide_eq_true (by cbv), exact_of_toList (by cbv),
    of_decide_eq_true (by cbv), by cbv, of_decide_eq_true (by cbv), fun hex => ?_⟩
  have hlive : (⟨0⟩ : GraphId) ∈ (calledAlike.perform (.setOutput ⟨1⟩ ⟨5⟩)).1.live.graphs := by
    rw [OrderedSet.mem_def, show (calledAlike.perform (.setOutput ⟨1⟩ ⟨5⟩)).1.live.graphs.toList =
      [⟨1⟩, ⟨0⟩] by cbv]
    decide
  have hreach : (calledAlike.perform (.setOutput ⟨1⟩ ⟨5⟩)).1.arena.reachable
      (calledAlike.perform (.setOutput ⟨1⟩ ⟨5⟩)).1.roots.toList = [⟨1⟩] := by cbv
  have hmem := (hex ⟨0⟩).mp hlive
  rw [hreach] at hmem
  exact absurd hmem (by decide)

end Store

end Midend
