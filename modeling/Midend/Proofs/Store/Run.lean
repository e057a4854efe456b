import Midend.Proofs.Store.Settled

/-!
# Runs of operations

One step is one operation on a store, over nodes and graphs that are in it. A store is reachable
when steps lead to it from the empty one.
-/

namespace Midend.Store

variable {s s' : Store} {P Q : Store → Prop} {lax : Prop} {g : GraphId} {n old new : NodeId}

/-- One operation, applied to nodes and graphs of the store. -/
inductive Transition : Store → Store → Prop
  | newGraph (s : Store) (name : String) : Transition s (s.newGraph name).2
  | addParameter {s : Store} {g : GraphId} (t : Option Ty) :
      g ∈ s.arena.graphIds → Transition s (s.addParameter g t).2
  | constant {s : Store} {v : Value} (t : Option Ty) :
      (∀ g, v = .graph g → g ∈ s.arena.graphIds) → Transition s (s.constantWith v t).2
  | apply {s : Store} {g : GraphId} {inputs : List NodeId} (t : Option Ty) :
      g ∈ s.arena.graphIds → (∀ m ∈ inputs, m ∈ s.arena.nodeIds) → Transition s (s.apply g inputs t).2
  | setOutput {s s' : Store} {g : GraphId} {out : NodeId} :
      g ∈ s.arena.graphIds → out ∈ s.arena.nodeIds → s.setOutput g out = .ok s' → Transition s s'
  | setType (s : Store) (n : NodeId) (t : Option Ty) : Transition s (s.setType n t)
  | setLabel (s : Store) (n : NodeId) (label : String) : Transition s (s.setLabel n label)
  | addRoot {s : Store} {g : GraphId} : g ∈ s.arena.graphIds → Transition s (s.addRoot g)
  | keepRoots {s : Store} {gs : List GraphId} :
      (∀ g ∈ gs, g ∈ s.arena.graphIds) → Transition s (s.keepRoots gs)
  | setEdge {s s' : Store} {e : Edge} {new : NodeId} :
      new ∈ s.arena.nodeIds → s.setEdge e new = .ok s' → Transition s s'

/-- Steps lead from the empty store to a store, and all stores on the way have the property. -/
inductive ReachedThrough (P : Store → Prop) : Store → Prop
  | empty : P .empty → ReachedThrough P .empty
  | step {s s' : Store} : ReachedThrough P s → Transition s s' → P s' → ReachedThrough P s'

/-- Steps lead from the empty store to the store. -/
def Reachable (s : Store) : Prop := ReachedThrough (fun _ => True) s

/-- Steps lead from the empty store to the store, never over a cycle of inputs. -/
def ReachedAcyclic (s : Store) : Prop := ReachedThrough (fun s => s.arena.Acyclic) s

theorem ReachedThrough.holds (h : ReachedThrough P s) : P s := by
  cases h with
  | empty hP => exact hP
  | step _ _ hP => exact hP

theorem ReachedThrough.mono (hPQ : ∀ s, P s → Q s) (h : ReachedThrough P s) :
    ReachedThrough Q s := by
  induction h with
  | empty hP => exact .empty (hPQ _ hP)
  | step _ hs hP ih => exact ih.step hs (hPQ _ hP)

theorem ReachedAcyclic.reachable (h : s.ReachedAcyclic) : s.Reachable :=
  ReachedThrough.mono (fun _ _ => trivial) h

theorem ReachedAcyclic.acyclic (h : s.ReachedAcyclic) : s.arena.Acyclic := ReachedThrough.holds h

theorem Settled.step (h : s.Settled lax) (hs : Transition s s') (hac : lax ∨ s'.arena.Acyclic) :
    s'.Settled lax := by
  cases hs with
  | newGraph name => exact h.newGraph name
  | addParameter t hg => exact h.addParameter hg
  | constant t hv => exact h.constantWith hv
  | apply t hg hin => exact h.apply hg hin
  | setOutput hg hout hok =>
    unfold Store.setOutput at hok
    split at hok
    · exact h.setEdge hout hok hac
    · next hr => exact Except.ok.inj hok ▸ h.addReturn hg hout hr
  | setType n t => exact h.setType n t
  | setLabel n label => exact h.setLabel n label
  | addRoot hg => exact h.addRoot hg
  | keepRoots hgs => exact h.keepRoots hac hgs
  | setEdge hnew hok => exact h.setEdge hnew hok hac

theorem ReachedThrough.settled (hP : ∀ s, P s → lax ∨ s.arena.Acyclic)
    (h : ReachedThrough P s) : s.Settled lax := by
  induction h with
  | empty _ => exact settled_empty lax
  | step _ hs hP' ih => exact ih.step hs (hP _ hP')

/-- Every reachable store is settled. -/
theorem Reachable.settled (h : s.Reachable) : s.Settled True :=
  ReachedThrough.settled (fun _ _ => Or.inl trivial) h

/-- If no store on the way had a cycle, what live constants name is live too. -/
theorem ReachedAcyclic.settled (h : s.ReachedAcyclic) : s.Settled False :=
  ReachedThrough.settled (fun _ hac => Or.inr hac) h

/-! ### Steps in a row -/

theorem Reachable.step (h : s.Reachable) (hs : Transition s s') : s'.Reachable :=
  ReachedThrough.step h hs trivial

theorem mem_nodeIds_setEdge {e : Edge} (h : s.setEdge e new = .ok s') :
    n ∈ s'.arena.nodeIds ↔ n ∈ s.arena.nodeIds := by
  rw [arena_setEdge h, Arena.mem_nodeIds_setSlot]

theorem Reachable.setEdges {es : List Edge} (h : s.Reachable) (hnew : new ∈ s.arena.nodeIds) :
    (s.setEdges new es).1.Reachable := by
  induction es generalizing s with
  | nil => exact h
  | cons e es ih =>
    unfold Store.setEdges
    split
    · next s' hok => exact ih (h.step (.setEdge hnew hok)) ((mem_nodeIds_setEdge hok).mpr hnew)
    · exact h

theorem Reachable.replace (h : s.Reachable) (hnew : new ∈ s.arena.nodeIds) :
    (s.replace old new).1.Reachable := by
  unfold Store.replace
  split
  · exact h
  · exact h.setEdges hnew

section

variable {root : GraphId} (h : s.Reachable) (hroot : root ∈ s.arena.graphIds)
include h hroot

theorem Reachable.keepRoot : (s.keepRoots [root]).Reachable :=
  h.step (.keepRoots fun _ hg => List.mem_singleton.mp hg ▸ hroot)

/-- The only root is live. -/
theorem Reachable.live_root : root ∈ (s.keepRoots [root]).live.graphs :=
  (h.keepRoot hroot).settled.roots_live root (OrderedSet.mem_ofList.mpr List.mem_cons_self)

end

end Midend.Store
