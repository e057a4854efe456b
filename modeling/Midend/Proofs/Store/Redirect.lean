import Mathlib
import Midend.Proofs.Merge.Absorbed

/-!
# Redirecting the uses of a node

`replace` points the slots of live nodes that hold a node at another one. The slots are listed
before the first of them changes, so a node that becomes live on the way keeps its slots.
-/

namespace Midend

namespace Arena

variable {a b : Arena} {n m new : NodeId}

/-- What lies under a node after slots went over to `new` lay there before, or lies under `new`. -/
theorem TurnedTo.under_or (h : a.TurnedTo b new) (hu : b.Under n m) :
    a.Under n m ∨ b.Under new m := by
  induction hu with
  | refl => exact Or.inl (Under.refl a n)
  | @tail k m _ hm ih =>
    rcases ih with ih | ih
    · obtain ⟨i, hi⟩ := exists_slot?_of_mem hm
      rcases h ⟨k, i⟩ with hs | hs
      · exact Or.inl (ih.trans (under_of_mem_inputs (mem_inputs_of_slot? (hs.symm.trans hi))))
      · obtain rfl : new = m := Option.some.inj (hs.symm.trans hi)
        exact Or.inr (Under.refl b new)
    · exact Or.inr (ih.trans (under_of_mem_inputs hm))

end Arena

namespace Store

variable {s s' : Store} {n old new : NodeId} {es : List Edge}

/-- Slots that hold `old` close no cycle when they go over to a node that is not over `old`, and
they do not bring `old` under it. -/
theorem acyclic_setEdges (hac : s.arena.Acyclic) (hnot : ¬ s.arena.Under new old)
    (hnodup : es.Nodup) (hes : ∀ e ∈ es, s.arena.slot? e = some old) :
    (s.setEdges new es).1.arena.Acyclic ∧ ¬ (s.setEdges new es).1.arena.Under new old := by
  induction es generalizing s with
  | nil => exact ⟨hac, hnot⟩
  | cons e es ih =>
    obtain ⟨hfresh, hnodup⟩ := List.nodup_cons.mp hnodup
    have hslot := hes e List.mem_cons_self
    -- the owner of the slot is over `old`, so `new` is not over the owner
    have howner : ¬ s.arena.Under new e.owner := fun hu =>
      hnot (hu.trans (Arena.under_of_mem_inputs (Arena.mem_inputs_of_slot? hslot)))
    unfold setEdges
    split
    · next s₁ hok =>
      have harena := arena_setEdge hok
      refine ih (harena ▸ hac.setSlot_of_not_under howner) ?_ hnodup fun d hd => ?_
      · rw [harena]
        exact fun hu => (Arena.Under.of_setSlot hu).elim hnot howner
      · rw [harena, Arena.slot?_setSlot_of_ne new (ne_of_mem_of_not_mem hd hfresh)]
        exact hes d (List.mem_cons_of_mem e hd)
    · exact ⟨hac, hnot⟩

theorem acyclic_replace {lax : Prop} (h : s.Settled lax) (hac : s.arena.Acyclic)
    (hnot : ¬ s.arena.Under new old) : (s.replace old new).1.arena.Acyclic ∧
      ¬ (s.replace old new).1.arena.Under new old := by
  unfold replace
  split
  · exact ⟨hac, hnot⟩
  · exact acyclic_setEdges hac hnot (s.live.usesOf old).nodup fun e he => (h.mem_usesOf.mp he).2

theorem turnedTo_replace (s : Store) (old new : NodeId) :
    s.arena.TurnedTo (s.replace old new).1.arena new := by
  unfold replace
  split
  · exact .refl s.arena new
  · exact turnedTo_setEdges s new _

theorem graph?_setEdges (s : Store) (new : NodeId) (es : List Edge) (g : GraphId) :
    (s.setEdges new es).1.arena.graph? g = s.arena.graph? g := by
  induction es generalizing s with
  | nil => rfl
  | cons e es ih =>
    unfold setEdges
    split
    · next s₁ hok => rw [ih, arena_setEdge hok, Arena.graph?_setSlot]
    · rfl

theorem graph?_replace (s : Store) (old new : NodeId) (g : GraphId) :
    (s.replace old new).1.arena.graph? g = s.arena.graph? g := by
  unfold replace
  split
  · rfl
  · exact graph?_setEdges s new _ g

/-! ### Who still uses the old node -/

/-- Whether `n` became live together with a graph that has it under its return node. -/
def Awoken (s s' : Store) (n : NodeId) : Prop :=
  n ∈ s'.live.nodes ∧ n ∉ s.live.nodes ∧ ∃ g ∈ s'.live.graphs, g ∉ s.live.graphs ∧
    ∃ r, s'.arena.ret? g = some r ∧ s'.arena.Under r n

/-- No slot of a node that was live holds the old node any more. -/
theorem not_mem_inputs_replace {lax : Prop} (h : s.Settled lax) (hne : old ≠ new)
    (hn : n ∈ s.live.nodes) : old ∉ (s.replace old new).1.arena.inputs n := by
  intro hold
  obtain ⟨i, hi⟩ := Arena.exists_slot?_of_mem hold
  rw [slot?_replace h] at hi
  split at hi
  · exact hne (Option.some.inj hi).symm
  · next hnot => exact hnot ⟨hn, hi⟩

/-- A live node that uses the old one lies under the return node of a graph that was not live: on
the way down from a return node that was live nothing was pointed elsewhere. -/
theorem awoken_of_mem_inputs (h : s.Reachable) (hac : s.arena.Acyclic)
    (hnew : new ∈ s.arena.nodeIds) (hne : old ≠ new) (hnot : ¬ s.arena.Under new old)
    (hn : n ∈ (s.replace old new).1.live.nodes)
    (hold : old ∈ (s.replace old new).1.arena.inputs n) :
    s.Awoken (s.replace old new).1 n := by
  have hs := h.settled
  have hr' : (s.replace old new).1.Reachable := h.replace hnew
  have hs' := hr'.settled
  obtain ⟨hac', hnot'⟩ := acyclic_replace hs hac hnot
  have hdead : n ∉ s.live.nodes := fun hlive => not_mem_inputs_replace hs hne hlive hold
  obtain ⟨g, hg, hparam | ⟨r, hr, hu⟩⟩ := (hs'.mem_nodes_iff hac').mp hn
  · have hpar := (hs'.wellFormed.mem_parameters.mp hparam).1
    rw [Arena.inputs_eq_nil_of_isParameter hpar] at hold
    cases hold
  · refine ⟨hn, hdead, g, hg, fun hlive => ?_, r, hr, hu⟩
    have hr₀ : s.arena.ret? g = some r := (Arena.ret?_congr (graph?_replace s old new g)) ▸ hr
    rcases (turnedTo_replace s old new).under_or hu with hu | hu
    · exact hdead (hs.agrees.mem_of_under (hs.agrees.ret_mem hlive hr₀) hu)
    · exact hnot' (hu.trans (Arena.under_of_mem_inputs hold))

/-- Where the inputs form no cycle and `new` has not `old` under it, `replace old new` succeeds: the
slots of live nodes that held `old` hold `new`, every other slot is as before, and the inputs still
form no cycle. Nodes that use `old` afterwards became live together with their graph, and without
them `old` is live only if a live graph keeps it. Where `new` was live before there are none. -/
theorem replace_redirects (h : s.Reachable) (hac : s.arena.Acyclic) (hnew : new ∈ s.arena.nodeIds)
    (hne : old ≠ new) (hnot : ¬ s.arena.Under new old) :
    ∃ s', s.replace old new = (s', .ok ()) ∧
      (∀ e, e.owner ∈ s.live.nodes → s.arena.slot? e = some old → s'.arena.slot? e = some new) ∧
      (∀ e, ¬ (e.owner ∈ s.live.nodes ∧ s.arena.slot? e = some old) →
        s'.arena.slot? e = s.arena.slot? e) ∧
      s'.arena.Acyclic ∧
      (∀ n ∈ s'.live.nodes, old ∈ s'.arena.inputs n → s.Awoken s' n) ∧
      (old ∈ s'.live.nodes → (∃ g ∈ s'.live.graphs, old ∈ s'.arena.anchors g) ∨
        ∃ n, s.Awoken s' n ∧ old ∈ s'.arena.inputs n) ∧
      (new ∈ s.live.nodes → ∀ n ∈ s'.live.nodes, old ∉ s'.arena.inputs n) := by
  have hs := h.settled
  have hr' : (s.replace old new).1.Reachable := h.replace hnew
  have hs' := hr'.settled
  have hawoken : ∀ n ∈ (s.replace old new).1.live.nodes,
      old ∈ (s.replace old new).1.arena.inputs n → s.Awoken (s.replace old new).1 n :=
    fun n hn hold => awoken_of_mem_inputs h hac hnew hne hnot hn hold
  refine ⟨(s.replace old new).1, Prod.ext rfl (hs.replace_eq_ok old new), fun e ho hslot => ?_,
    fun e hother => ?_, (acyclic_replace hs hac hnot).1, hawoken, fun hold => ?_,
    fun hlive n hn hold => ?_⟩
  · rw [slot?_replace hs, if_pos ⟨ho, hslot⟩]
  · rw [slot?_replace hs, if_neg hother]
  · rcases hs'.agrees.kept old (Or.inl hold) with hused | hanchor | hloose
    · obtain ⟨e, he⟩ := Live.not_idle_iff.mp hused
      obtain ⟨ho, hslot⟩ := hs'.mem_usesOf.mp he
      have huse := Arena.mem_inputs_of_slot? hslot
      exact Or.inr ⟨e.owner, hawoken e.owner ho huse, huse⟩
    · exact Or.inl hanchor
    · exact hloose.elim
  · exact (hawoken n hn hold).2.1 (nodes_replace_subset hs hlive n hn)

/-- A graph that returns the negation of its parameter, which another graph returns as well without
being called; its constant is not used yet. -/
def unborrowed : Store := Store.empty.performAll
  [.newGraph "main", .addParameter ⟨0⟩ (some .int64), .constant (.prim .neg) none,
    .apply ⟨0⟩ [⟨1⟩, ⟨0⟩] (some .int64), .setOutput ⟨0⟩ ⟨2⟩, .newGraph "borrower",
    .setOutput ⟨1⟩ ⟨2⟩, .constant (.graph ⟨1⟩) none, .addRoot ⟨0⟩]

theorem called_unborrowed : unborrowed.Called :=
  Called.start.performAll (of_decide_eq_true (by cbv))

theorem not_under_unborrowed : ¬ unborrowed.arena.Under ⟨7⟩ ⟨2⟩ := by
  have hbelow : unborrowed.arena.preorder ⟨7⟩ = [⟨7⟩] := by cbv
  rw [← Arena.mem_preorder, hbelow]
  decide

theorem live_unborrowed : unborrowed.live.nodes.toList = [⟨0⟩, ⟨4⟩, ⟨2⟩, ⟨1⟩, ⟨3⟩] := by cbv

/-- Once the constant stands for the negation, the graph that it names is live, and the negation is
what this graph returns. -/
theorem replace_redirects_unborrowed : ∃ s', unborrowed.replace ⟨2⟩ ⟨7⟩ = (s', .ok ()) ∧
    s'.arena.slot? ⟨⟨4⟩, 1⟩ = some ⟨7⟩ ∧ s'.arena.slot? ⟨⟨6⟩, 1⟩ = some ⟨2⟩ ∧
    s'.arena.Acyclic ∧ unborrowed.Awoken s' ⟨6⟩ := by
  have hnew : (⟨7⟩ : NodeId) ∈ unborrowed.arena.nodeIds := of_decide_eq_true (by cbv)
  obtain ⟨s', hok, hturned, hsame, hac, hawoken, -⟩ := replace_redirects called_unborrowed.reachable
    (of_decide_eq_true (by cbv)) hnew (by decide) not_under_unborrowed
  have hmain : (⟨4⟩ : NodeId) ∈ unborrowed.live.nodes := by
    rw [OrderedSet.mem_def, live_unborrowed]
    decide
  have hdead : (⟨6⟩ : NodeId) ∉ unborrowed.live.nodes := by
    rw [OrderedSet.mem_def, live_unborrowed]
    decide
  have hother : s'.arena.slot? ⟨⟨6⟩, 1⟩ = some ⟨2⟩ :=
    (hsame ⟨⟨6⟩, 1⟩ fun h => hdead h.1).trans (by cbv)
  have hlive : (⟨6⟩ : NodeId) ∈ s'.live.nodes := by
    rw [OrderedSet.mem_def, show s' = (unborrowed.replace ⟨2⟩ ⟨7⟩).1 by rw [hok],
      show (unborrowed.replace ⟨2⟩ ⟨7⟩).1.live.nodes.toList = _ by cbv]
    decide
  exact ⟨s', hok, hturned ⟨⟨4⟩, 1⟩ hmain (by cbv), hother, hac,
    hawoken ⟨6⟩ hlive (Arena.mem_inputs_of_slot? hother)⟩

/-- A node is used and live after all its uses were redirected, and no live graph keeps it. -/
theorem old_used_after_replace : unborrowed.Reachable ∧ unborrowed.arena.Acyclic ∧
    ¬ unborrowed.arena.Under ⟨7⟩ ⟨2⟩ ∧
    ∃ s', unborrowed.replace ⟨2⟩ ⟨7⟩ = (s', .ok ()) ∧ ⟨2⟩ ∈ s'.live.nodes ∧
      (∃ n ∈ s'.live.nodes, ⟨2⟩ ∈ s'.arena.inputs n) ∧
      ∀ g ∈ s'.live.graphs, ⟨2⟩ ∉ s'.arena.anchors g := by
  have hok : (unborrowed.replace ⟨2⟩ ⟨7⟩).2 = .ok () := by cbv
  have hnodes : (unborrowed.replace ⟨2⟩ ⟨7⟩).1.live.nodes.toList =
      [⟨0⟩, ⟨4⟩, ⟨2⟩, ⟨1⟩, ⟨3⟩, ⟨7⟩, ⟨6⟩, ⟨5⟩] := by cbv
  have hgraphs : (unborrowed.replace ⟨2⟩ ⟨7⟩).1.live.graphs.toList = [⟨0⟩, ⟨1⟩] := by cbv
  refine ⟨called_unborrowed.reachable, of_decide_eq_true (by cbv), not_under_unborrowed, _,
    Prod.ext rfl hok, ?_, ⟨⟨6⟩, ?_, of_decide_eq_true (by cbv)⟩, ?_⟩
  · rw [OrderedSet.mem_def, hnodes]
    decide
  · rw [OrderedSet.mem_def, hnodes]
    decide
  · intro g hg
    rw [OrderedSet.mem_def, hgraphs] at hg
    rcases List.mem_cons.mp hg with rfl | hg
    · exact of_decide_eq_true (by cbv)
    · obtain rfl := List.mem_singleton.mp hg
      exact of_decide_eq_true (by cbv)

end Store

end Midend
