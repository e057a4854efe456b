import Midend.Proofs.Arena.Refitted
import Midend.Proofs.Merge.Canonical

/-!
# Closed programs

A program is closed when every apply uses constants and nodes of its own graph only.
-/

namespace Midend

namespace Arena

variable {a b : Arena} {n m : NodeId} {k : NodeKind} {o : Option GraphId} {t : Option Ty}

/-- Whether the inputs of each node are constants or belong to the graph of the node. -/
def Closed (a : Arena) : Prop :=
  ∀ n m, m ∈ a.inputs n → (∃ v, a.value? m = some v) ∨ a.owner? m = a.owner? n

/-- Whether all inputs are found to be constants or of the graph of their node. -/
def keepsToGraphs (a : Arena) : Bool :=
  a.nodeIds.all fun n => (a.inputs n).all fun m =>
    (a.value? m).isSome || decide (a.owner? m = a.owner? n)

theorem keepsToGraphs_iff : a.keepsToGraphs = true ↔ a.Closed := by
  simp only [keepsToGraphs, List.all_eq_true, Bool.or_eq_true, decide_eq_true_eq,
    Option.isSome_iff_exists]
  exact ⟨fun h n m hm => h n (mem_nodeIds_of_mem_inputs hm) m hm, fun h n _ m hm => h n m hm⟩

instance (a : Arena) : Decidable a.Closed := decidable_of_iff _ keepsToGraphs_iff

/-- Whether everything but the constants belongs to a graph. -/
def Placed (a : Arena) : Prop :=
  ∀ n d, a.node? n = some d → d.owner = none → ∃ v, d.kind = .constant v

theorem Placed.addNode (h : a.Placed) (hk : o = none → ∃ v, k = .constant v) :
    (a.addNode k o t).2.Placed := by
  intro n d hd ho
  rw [node?_addNode] at hd
  split at hd
  · obtain rfl := Option.some.inj hd
    exact hk ho
  · exact h n d hd ho

theorem Placed.modifyNode {f : Node → Node} (h : a.Placed) (n : NodeId)
    (hf : ∀ d, (f d).owner = d.owner ∧ ∀ v, d.kind = .constant v → (f d).kind = .constant v) :
    (a.modifyNode n f).Placed := by
  intro m d hd ho
  rw [node?_modifyNode] at hd
  split at hd
  · obtain ⟨d', hd', rfl⟩ := Option.map_eq_some_iff.mp hd
    obtain ⟨v, hv⟩ := h m d' hd' ((hf d').1 ▸ ho)
    exact ⟨v, (hf d').2 v hv⟩
  · exact h m d hd ho

theorem Placed.setSlot (h : a.Placed) (e : Edge) (new : NodeId) : (a.setSlot e new).Placed := by
  refine h.modifyNode e.owner fun d => ?_
  obtain ⟨k, o, t, l⟩ := d
  cases k with
  | constant v => exact ⟨rfl, fun _ hk => hk⟩
  | parameter => exact ⟨rfl, fun _ hk => hk⟩
  | apply inputs => exact ⟨rfl, fun _ hk => by cases hk⟩

/-- In a closed program nodes keep to the rules of ownership. -/
theorem Closed.owned (h : a.Closed) (hf : a.Floating) (hp : a.Placed) : a.Owned := by
  refine ⟨fun {n m} hm => ?_, fun {n} hn => ⟨fun ho => ?_, fun ⟨v, hv⟩ => hf n v hv⟩⟩
  · rcases h n m hm with ⟨v, hv⟩ | ho
    · exact Or.inr (hf m v hv)
    · exact Or.inl ho
  · obtain ⟨d, hd⟩ := Option.isSome_iff_exists.mp (mem_nodeIds_iff_node?.mp hn)
    obtain ⟨v, hv⟩ := hp n d hd (by simpa [owner?, hd] using ho)
    exact ⟨v, by simp [value?, kind?, hd, hv, NodeKind.value?]⟩

end Arena

namespace Store

open Arena (Placed)

variable {s s' : Store}

theorem placed_step (h : s.arena.Placed) (hs : Transition s s') : s'.arena.Placed := by
  have hsetEdge : ∀ {e new s'}, s.setEdge e new = .ok s' → s'.arena.Placed := fun hok =>
    arena_setEdge hok ▸ h.setSlot _ _
  cases hs with
  | newGraph name => exact h
  | addParameter t hg =>
    rw [addParameter, arena_acquireIn]
    exact Placed.addNode h fun ho => absurd ho (Option.some_ne_none _)
  | @constant v t hv => exact h.addNode fun _ => ⟨v, rfl⟩
  | apply t hg hin => exact h.addNode fun ho => absurd ho (Option.some_ne_none _)
  | setOutput hg hout hok =>
    unfold Store.setOutput at hok
    split at hok
    · exact hsetEdge hok
    · rw [← Except.ok.inj hok, addReturn, arena_acquireIn]
      exact Placed.addNode (h.addNode fun _ => ⟨.prim .ret, rfl⟩) fun ho =>
        absurd ho (Option.some_ne_none _)
  | setType n t => exact h.modifyNode n fun _ => ⟨rfl, fun _ hk => hk⟩
  | setLabel n label => exact h.modifyNode n fun _ => ⟨rfl, fun _ hk => hk⟩
  | addRoot hg => exact h
  | keepRoots hgs => exact h
  | setEdge hnew hok => exact hsetEdge hok

theorem Reachable.placed (h : s.Reachable) : s.arena.Placed := by
  induction h with
  | empty _ => exact fun n d hd => by simp [Store.empty, Arena.empty, Arena.node?] at hd
  | step _ hs _ ih => exact placed_step ih hs

/-- In a reachable store everything but the constants belongs to a graph, so a closed program keeps to
the rules of ownership. -/
theorem Reachable.orderly (h : s.Reachable) (hac : s.arena.Acyclic) (hc : s.arena.Closed) :
    s.arena.Orderly := ⟨hac, hc.owned h.floating h.placed, h.settled.wellFormed⟩

end Store

end Midend
