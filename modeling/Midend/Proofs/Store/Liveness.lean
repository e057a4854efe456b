import Mathlib
import Midend.Proofs.Arena.Redirected
import Midend.Proofs.Store.Built
import Midend.Proofs.Store.Calls

/-!
# What is live

Slots that are pointed at one node after the other close a cycle at the end if they close one on the
way. So calls that leave no cycle never pass through one, and the count of uses decides what is
live.
-/

namespace Midend

namespace Store

variable {s s' : Store} {e : Edge} {n old new : NodeId}

theorem turnedTo_setEdges (s : Store) (new : NodeId) (es : List Edge) :
    s.arena.TurnedTo (s.setEdges new es).1.arena new := by
  induction es generalizing s with
  | nil => exact .refl s.arena new
  | cons e es ih =>
    unfold setEdges
    split
    · next s' hok =>
      have hone : s.arena.TurnedTo s'.arena new :=
        arena_setEdge hok ▸ s.arena.turnedTo_setSlot e new
      exact hone.trans (ih s')
    · exact .refl s.arena new

/-! ### Calls that close no cycle -/

/-- A slot that is pointed at `new` first closes no cycle if there is none after the others. -/
theorem acyclic_of_setEdges {es : List Edge} (h : s.arena.Acyclic) (hok : s.setEdge e new = .ok s')
    (hac : (s'.setEdges new es).1.arena.Acyclic) : s'.arena.Acyclic := by
  obtain ⟨old, hslot, -⟩ := setEdge_eq_ok_iff.mp hok
  have hfirst : s.arena.TurnedTo s'.arena new := arena_setEdge hok ▸ s.arena.turnedTo_setSlot e new
  have hlater := turnedTo_setEdges s' new es
  have hset : s'.arena.slot? e = some new := by
    rw [arena_setEdge hok, Arena.slot?_setSlot_self new hslot]
  have huse : new ∈ (s'.setEdges new es).1.arena.inputs e.owner := by
    rcases hlater e with hs | hs
    · exact Arena.mem_inputs_of_slot? (hs.trans hset)
    · exact Arena.mem_inputs_of_slot? hs
  rw [arena_setEdge hok]
  -- a way from `new` back to the slot would outlast the later changes, which only add ways to `new`
  exact h.setSlot_of_not_under fun hu => hac.not_under huse ((hfirst.trans hlater).under hac hu)

/-- Steps lead from one store to another, and none leaves a cycle of inputs. -/
def StepsAcyclic (s s' : Store) : Prop :=
  Relation.ReflTransGen (fun s s' => Transition s s' ∧ s'.arena.Acyclic) s s'

theorem StepsAcyclic.single (h : Transition s s') (hac : s'.arena.Acyclic) : s.StepsAcyclic s' :=
  Relation.ReflTransGen.single ⟨h, hac⟩

theorem ReachedAcyclic.steps (h : s.ReachedAcyclic) (hs : s.StepsAcyclic s') :
    s'.ReachedAcyclic := by
  induction hs with
  | refl => exact h
  | tail _ hstep ih => exact ReachedThrough.step ih hstep.1 hstep.2

theorem Settled.steps {lax : Prop} (h : s.Settled lax) (hs : s.StepsAcyclic s') :
    s'.Settled lax := by
  induction hs with
  | refl => exact h
  | tail _ hstep ih => exact ih.step hstep.1 (Or.inr hstep.2)

theorem StepsAcyclic.reachable (hs : s.StepsAcyclic s') (h : s.Reachable) : s'.Reachable := by
  induction hs with
  | refl => exact h
  | tail _ hstep ih => exact ih.step hstep.1

theorem StepsAcyclic.acyclic (hs : s.StepsAcyclic s') (h : s.arena.Acyclic) : s'.arena.Acyclic := by
  rcases Relation.ReflTransGen.cases_tail hs with heq | ⟨_, -, -, hac⟩
  · exact heq ▸ h
  · exact hac

theorem stepsAcyclic_setEdges {es : List Edge} (h : s.arena.Acyclic) (hnew : new ∈ s.arena.nodeIds)
    (hac : (s.setEdges new es).1.arena.Acyclic) : s.StepsAcyclic (s.setEdges new es).1 := by
  induction es generalizing s with
  | nil => exact Relation.ReflTransGen.refl
  | cons e es ih =>
    unfold Store.setEdges at hac ⊢
    split
    · next s' hok =>
      rw [hok] at hac
      have hac' := acyclic_of_setEdges h hok hac
      exact Relation.ReflTransGen.head ⟨.setEdge hnew hok, hac'⟩
        (ih hac' ((mem_nodeIds_setEdge hok).mpr hnew) hac)
    · exact Relation.ReflTransGen.refl

theorem stepsAcyclic_settle {r : Except Fault Store}
    (hr : ∀ s', r = .ok s' → s.StepsAcyclic s') : s.StepsAcyclic (s.settle r).1 := by
  cases r with
  | ok s' => exact hr s' rfl
  | error f => exact Relation.ReflTransGen.refl

/-- A call that leaves no cycle passes through none. -/
theorem stepsAcyclic_perform {c : Call} (h : s.arena.Acyclic) (hc : c.Fits s.arena)
    (hac : (s.perform c).1.arena.Acyclic) : s.StepsAcyclic (s.perform c).1 := by
  cases c with
  | newGraph name => exact .single (.newGraph s name) hac
  | addParameter g t => exact .single (.addParameter t hc) hac
  | constant v t =>
    exact .single (.constant t fun g hg => hc g (by simp [hg, Value.graph?])) hac
  | apply g inputs t => exact .single (.apply t hc.1 hc.2) hac
  | setOutput g output =>
    refine stepsAcyclic_settle fun s' hok => .single (.setOutput hc.1 hc.2 hok) ?_
    simpa [Store.perform, hok, Store.settle] using hac
  | setType n t => exact .single (.setType s n t) hac
  | addRoot g => exact .single (.addRoot hc) hac
  | keepRoots gs => exact .single (.keepRoots hc) hac
  | setEdge e new =>
    refine stepsAcyclic_settle fun s' hok => .single (.setEdge hc.2 hok) ?_
    simpa [Store.perform, hok, Store.settle] using hac
  | replace old new =>
    simp only [Store.perform, Store.replace] at hac ⊢
    split
    · exact Relation.ReflTransGen.refl
    · next hne =>
      rw [if_neg hne] at hac
      exact stepsAcyclic_setEdges h hc.2 hac

/-- Calls and labellings lead from the empty store to the store, and none leaves a cycle of
inputs. -/
inductive CalledAcyclic : Store → Prop
  | start : CalledAcyclic .empty
  | call {s : Store} (c : Call) : CalledAcyclic s → c.Fits s.arena →
      (s.perform c).1.arena.Acyclic → CalledAcyclic (s.perform c).1
  | label {s : Store} (n : NodeId) (text : String) : CalledAcyclic s →
      CalledAcyclic (s.setLabel n text)

theorem CalledAcyclic.reachedAcyclic (h : s.CalledAcyclic) : s.ReachedAcyclic := by
  induction h with
  | start => exact .start
  | call c _ hc hac ih => exact ih.steps (stepsAcyclic_perform ih.acyclic hc hac)
  | label n text _ ih => exact ih.setLabel n text

/-- Whether no call of a list leaves a cycle of inputs. -/
def AcyclicAll (s : Store) : List Call → Prop
  | [] => True
  | c :: cs => (s.perform c).1.arena.Acyclic ∧ (s.perform c).1.AcyclicAll cs

instance decidableAcyclicAll (s : Store) : (cs : List Call) → Decidable (s.AcyclicAll cs)
  | [] => inferInstanceAs (Decidable True)
  | c :: cs =>
    have := decidableAcyclicAll (s.perform c).1 cs
    inferInstanceAs (Decidable ((s.perform c).1.arena.Acyclic ∧ (s.perform c).1.AcyclicAll cs))

theorem CalledAcyclic.performAll {cs : List Call} (h : s.CalledAcyclic) (hcs : s.FitsAll cs)
    (hac : s.AcyclicAll cs) : (s.performAll cs).CalledAcyclic := by
  induction cs generalizing s with
  | nil => exact h
  | cons c cs ih => exact ih (h.call c hcs.1 hac.1) hcs.2 hac.2

/-! ### Liveness is reachability -/

theorem Settled.mem_nodes_iff {lax : Prop} (h : s.Settled lax) (hac : s.arena.Acyclic) :
    n ∈ s.live.nodes ↔ ∃ g ∈ s.live.graphs,
      n ∈ s.arena.parameters g ∨ ∃ r, s.arena.ret? g = some r ∧ s.arena.Under r n := by
  constructor
  · intro hn
    obtain ⟨g, hg, m, hm, hu⟩ := h.agrees.exists_anchor hac (fun _ _ hf => hf) (fun _ hf => hf) hn
    exact ⟨g, hg, h.wellFormed.under_ret_of_anchor hm hu⟩
  · rintro ⟨g, hg, hn | ⟨r, hr, hu⟩⟩
    · exact h.agrees.mem_of_anchor hg (Arena.mem_anchors.mpr (Or.inl hn))
    · exact h.agrees.mem_of_under (h.agrees.ret_mem hg hr) hu

theorem Settled.mem_graphs_of_held (h : s.Settled False) (hn : n ∈ s.live.nodes) {g : GraphId}
    (hg : s.arena.heldGraph? n = some g) : g ∈ s.live.graphs := by
  rcases h.agrees.held n hn g hg with hh | hh | hh
  · exact hh
  · exact absurd hh List.not_mem_nil
  · exact hh.elim

theorem Settled.strict {lax : Prop} (h : s.Settled lax) (hheld : ∀ n ∈ s.live.nodes,
    ∀ g, s.arena.heldGraph? n = some g → g ∈ s.live.graphs) : s.Settled False :=
  ⟨h.wellFormed, ⟨h.agrees.uses, h.agrees.inputs, h.agrees.anchors, h.agrees.kept,
    fun n hn g hg => Or.inl (hheld n hn g hg), h.agrees.node_mem, h.agrees.graph_mem⟩, h.roots_live⟩

/-- What a live graph leads to is live. -/
theorem Settled.live_of_leads (h : s.Settled False) {g k : GraphId} (hg : g ∈ s.live.graphs)
    (hl : s.arena.Leads g k) : k ∈ s.live.graphs := by
  induction hl with
  | refl => exact hg
  | tail _ hn ih =>
    obtain ⟨r, n, hr, hu, hheld⟩ := hn
    exact h.mem_graphs_of_held (h.agrees.mem_of_under (h.agrees.ret_mem ih hr) hu) hheld

/-- After calls that leave no cycle of inputs a node is live exactly if a live graph has it as a
parameter or has its return node over it, and the graphs that live constants name are live. -/
theorem live_exact_of_calledAcyclic (h : s.CalledAcyclic) :
    (∀ n, n ∈ s.live.nodes ↔ ∃ g ∈ s.live.graphs,
      n ∈ s.arena.parameters g ∨ ∃ r, s.arena.ret? g = some r ∧ s.arena.Under r n) ∧
    ∀ n ∈ s.live.nodes, ∀ g, s.arena.heldGraph? n = some g → g ∈ s.live.graphs := by
  have hs := h.reachedAcyclic.settled
  exact ⟨fun n => hs.mem_nodes_iff h.reachedAcyclic.acyclic,
    fun n hn g hg => hs.mem_graphs_of_held hn hg⟩

/-- A graph that called another one adds its parameter to that of the other instead, and then that
parameter to itself. -/
def borrowedCalls : List Call :=
  [.newGraph "callee", .addParameter ⟨0⟩ none, .setOutput ⟨0⟩ ⟨0⟩, .newGraph "main",
    .addParameter ⟨1⟩ none, .constant (.graph ⟨0⟩) none, .apply ⟨1⟩ [⟨4⟩, ⟨3⟩] none,
    .constant (.prim .add) none, .apply ⟨1⟩ [⟨6⟩, ⟨3⟩, ⟨0⟩] none, .setOutput ⟨1⟩ ⟨5⟩, .addRoot ⟨1⟩,
    .setOutput ⟨1⟩ ⟨7⟩, .replace ⟨3⟩ ⟨0⟩]

def borrowed : Store := Store.empty.performAll borrowedCalls

theorem calledAcyclic_borrowed : borrowed.CalledAcyclic :=
  CalledAcyclic.start.performAll (of_decide_eq_true (by cbv)) (of_decide_eq_true (by cbv))

/-- The callee is dead and its return node with it, while its parameter lives on in the caller. -/
theorem live_exact_of_calledAcyclic_borrowed :
    borrowed.live.graphs.toList = [⟨1⟩] ∧ ⟨0⟩ ∈ borrowed.live.nodes ∧
      ⟨2⟩ ∉ borrowed.live.nodes ∧ ⟨5⟩ ∉ borrowed.live.nodes := by
  obtain ⟨hlive, -⟩ := live_exact_of_calledAcyclic calledAcyclic_borrowed
  have hgraphs : borrowed.live.graphs.toList = [⟨1⟩] := by cbv
  have hparams : borrowed.arena.parameters ⟨1⟩ = [⟨3⟩] := by cbv
  have hret : borrowed.arena.ret? ⟨1⟩ = some ⟨9⟩ := by cbv
  have hunder : borrowed.arena.preorder ⟨9⟩ = [⟨9⟩, ⟨8⟩, ⟨7⟩, ⟨6⟩, ⟨0⟩] := by cbv
  have hmem : ∀ n, n ∈ borrowed.live.nodes ↔ n ∈ [⟨3⟩, ⟨9⟩, ⟨8⟩, ⟨7⟩, ⟨6⟩, (⟨0⟩ : NodeId)] := by
    intro n
    simp only [hlive, OrderedSet.mem_def, hgraphs, List.mem_cons, List.not_mem_nil, or_false,
      exists_eq_left, hparams, hret, Option.some.injEq, exists_eq_left', ← Arena.mem_preorder,
      hunder]
  refine ⟨hgraphs, (hmem _).mpr (by decide), ?_, ?_⟩
  · exact fun hn => absurd ((hmem _).mp hn) (by decide)
  · exact fun hn => absurd ((hmem _).mp hn) (by decide)

end Store

end Midend
