import Mathlib
import Midend.Proofs.Store.Run

/-!
# Calls in a row

A call applies an operation to nodes and graphs of the store; a call that fails leaves the store it
was made on. Calls in a row may close cycles of inputs, use return nodes as operands, and fail.
Slots are never lost on the way, so the slots that `setOutput` and `replace` change are there, and
these two never fail.
-/

namespace Midend

namespace Store

variable {s s' : Store} {e : Edge} {n new : NodeId}

/-- An operation with its arguments. -/
inductive Call where
  | newGraph (name : String)
  | addParameter (g : GraphId) (type : Option Ty)
  | constant (value : Value) (type : Option Ty)
  | apply (g : GraphId) (inputs : List NodeId) (type : Option Ty)
  | setOutput (g : GraphId) (output : NodeId)
  | setType (n : NodeId) (type : Option Ty)
  | addRoot (g : GraphId)
  | keepRoots (gs : List GraphId)
  | setEdge (e : Edge) (new : NodeId)
  | replace (old new : NodeId)

/-- Whether the nodes and graphs that a call mentions exist. -/
def Call.Fits (a : Arena) : Call → Prop
  | newGraph _ => True
  | addParameter g _ => g ∈ a.graphIds
  | constant v _ => ∀ g ∈ v.graph?, g ∈ a.graphIds
  | apply g inputs _ => g ∈ a.graphIds ∧ ∀ m ∈ inputs, m ∈ a.nodeIds
  | setOutput g output => g ∈ a.graphIds ∧ output ∈ a.nodeIds
  | setType n _ => n ∈ a.nodeIds
  | addRoot g => g ∈ a.graphIds
  | keepRoots gs => ∀ g ∈ gs, g ∈ a.graphIds
  | setEdge e new => e.owner ∈ a.nodeIds ∧ new ∈ a.nodeIds
  | replace old new => old ∈ a.nodeIds ∧ new ∈ a.nodeIds

instance (a : Arena) (c : Call) : Decidable (c.Fits a) :=
  match c with
  | .newGraph _ => inferInstanceAs (Decidable True)
  | .addParameter g _ => inferInstanceAs (Decidable (g ∈ a.graphIds))
  | .constant v _ => inferInstanceAs (Decidable (∀ g ∈ v.graph?, g ∈ a.graphIds))
  | .apply g inputs _ =>
    inferInstanceAs (Decidable (g ∈ a.graphIds ∧ ∀ m ∈ inputs, m ∈ a.nodeIds))
  | .setOutput g output => inferInstanceAs (Decidable (g ∈ a.graphIds ∧ output ∈ a.nodeIds))
  | .setType n _ => inferInstanceAs (Decidable (n ∈ a.nodeIds))
  | .addRoot g => inferInstanceAs (Decidable (g ∈ a.graphIds))
  | .keepRoots gs => inferInstanceAs (Decidable (∀ g ∈ gs, g ∈ a.graphIds))
  | .setEdge e new => inferInstanceAs (Decidable (e.owner ∈ a.nodeIds ∧ new ∈ a.nodeIds))
  | .replace old new => inferInstanceAs (Decidable (old ∈ a.nodeIds ∧ new ∈ a.nodeIds))

/-- The store after an attempt to change `s`, which is `s` again if the attempt failed. -/
def settle (s : Store) : Except Fault Store → Store × Except Fault Unit
  | .ok s' => (s', .ok ())
  | .error f => (s, .error f)

/-- What a call leaves and how it ends. -/
def perform (s : Store) : Call → Store × Except Fault Unit
  | .newGraph name => ((s.newGraph name).2, .ok ())
  | .addParameter g t => ((s.addParameter g t).2, .ok ())
  | .constant v t => ((s.constantWith v t).2, .ok ())
  | .apply g inputs t => ((s.apply g inputs t).2, .ok ())
  | .setOutput g output => s.settle (s.setOutput g output)
  | .setType n t => (s.setType n t, .ok ())
  | .addRoot g => (s.addRoot g, .ok ())
  | .keepRoots gs => (s.keepRoots gs, .ok ())
  | .setEdge e new => s.settle (s.setEdge e new)
  | .replace old new => s.replace old new

/-- Calls in a row lead from the empty store to the store. -/
inductive Called : Store → Prop
  | start : Called .empty
  | call {s : Store} (c : Call) : Called s → c.Fits s.arena → Called (s.perform c).1

/-- What a list of calls leaves. -/
def performAll (s : Store) : List Call → Store
  | [] => s
  | c :: cs => (s.perform c).1.performAll cs

def FitsAll (s : Store) : List Call → Prop
  | [] => True
  | c :: cs => c.Fits s.arena ∧ (s.perform c).1.FitsAll cs

instance decidableFitsAll (s : Store) : (cs : List Call) → Decidable (s.FitsAll cs)
  | [] => inferInstanceAs (Decidable True)
  | c :: cs =>
    have := decidableFitsAll (s.perform c).1 cs
    inferInstanceAs (Decidable (c.Fits s.arena ∧ (s.perform c).1.FitsAll cs))

theorem Called.performAll {cs : List Call} (h : s.Called) (hcs : s.FitsAll cs) :
    (s.performAll cs).Called := by
  induction cs generalizing s with
  | nil => exact h
  | cons c cs ih => exact ih (h.call c hcs.1) hcs.2

/-! ### A call is a step, several steps, or none -/

theorem Reachable.settle {r : Except Fault Store} (h : s.Reachable)
    (hr : ∀ s', r = .ok s' → s'.Reachable) : (s.settle r).1.Reachable := by
  cases r with
  | ok s' => exact hr s' rfl
  | error f => exact h

theorem Reachable.perform {c : Call} (h : s.Reachable) (hc : c.Fits s.arena) :
    (s.perform c).1.Reachable := by
  cases c with
  | newGraph name => exact h.step (.newGraph s name)
  | addParameter g t => exact h.step (.addParameter t hc)
  | constant v t => exact h.step (.constant t fun g hg => hc g (by simp [hg, Value.graph?]))
  | apply g inputs t => exact h.step (.apply t hc.1 hc.2)
  | setOutput g output => exact h.settle fun s' hok => h.step (.setOutput hc.1 hc.2 hok)
  | setType n t => exact h.step (.setType s n t)
  | addRoot g => exact h.step (.addRoot hc)
  | keepRoots gs => exact h.step (.keepRoots hc)
  | setEdge e new => exact h.settle fun s' hok => h.step (.setEdge hc.2 hok)
  | replace old new => exact h.replace hc.2

theorem Called.reachable (h : s.Called) : s.Reachable := by
  induction h with
  | start => exact .empty trivial
  | call c _ hc ih => exact ih.perform hc

/-! ### Which calls fail -/

theorem setEdge_eq_error_iff : (∃ f, s.setEdge e new = .error f) ↔ s.arena.slot? e = none := by
  constructor
  · rintro ⟨f, hf⟩
    cases hslot : s.arena.slot? e with
    | none => rfl
    | some old =>
      obtain ⟨s', hok⟩ : ∃ s', s.setEdge e new = .ok s' := ⟨_, setEdge_eq_ok_iff.mpr ⟨old, hslot, rfl⟩⟩
      simp [hok] at hf
  · intro hslot
    cases hr : s.setEdge e new with
    | error f => exact ⟨f, rfl⟩
    | ok s' =>
      obtain ⟨old, hold, -⟩ := setEdge_eq_ok_iff.mp hr
      simp [hslot] at hold

theorem isSome_slot?_setEdge {e' : Edge} (hok : s.setEdge e new = .ok s')
    (he' : (s.arena.slot? e').isSome) : (s'.arena.slot? e').isSome := by
  obtain ⟨old, hold, -⟩ := setEdge_eq_ok_iff.mp hok
  rw [arena_setEdge hok]
  by_cases heq : e' = e
  · rw [heq, Arena.slot?_setSlot_self new hold]
    rfl
  · rwa [Arena.slot?_setSlot_of_ne new heq]

/-- Slots are never lost, so a list of slots can be pointed elsewhere one after the other. -/
theorem setEdges_eq_ok {es : List Edge} (hes : ∀ e ∈ es, (s.arena.slot? e).isSome) :
    (s.setEdges new es).2 = .ok () := by
  induction es generalizing s with
  | nil => rfl
  | cons e es ih =>
    unfold setEdges
    split
    · next s' hok =>
      exact ih fun e' he' => isSome_slot?_setEdge hok (hes e' (List.mem_cons_of_mem e he'))
    · next f hf =>
      have hnone := setEdge_eq_error_iff.mp ⟨f, hf⟩
      have hsome := hes e List.mem_cons_self
      simp [hnone] at hsome

theorem Settled.mem_usesOf {lax : Prop} (h : s.Settled lax) :
    e ∈ s.live.usesOf n ↔ e.owner ∈ s.live.nodes ∧ s.arena.slot? e = some n :=
  h.agrees.mem_usesOf fun _ _ hf => hf

theorem Settled.replace_eq_ok {lax : Prop} (h : s.Settled lax) (old new : NodeId) :
    (s.replace old new).2 = .ok () := by
  unfold replace
  split
  · rfl
  · refine setEdges_eq_ok fun e he => ?_
    rw [(h.mem_usesOf.mp he).2]
    rfl

theorem Settled.exists_setOutput {lax : Prop} (h : s.Settled lax) (g : GraphId) (out : NodeId) :
    ∃ s', s.setOutput g out = .ok s' := by
  unfold setOutput
  split
  · next r hr =>
    obtain ⟨old, hold⟩ := h.wellFormed.exists_output hr
    exact ⟨_, setEdge_eq_ok_iff.mpr ⟨old, hold, rfl⟩⟩
  · exact ⟨_, rfl⟩

/-! ### The index after calls -/

/-- After any calls the uses of a node are the slots of live nodes that hold it, and what live nodes
and live graphs need is live; `setOutput` and `replace` do not fail, and `setEdge` fails only for
want of the slot and then changes nothing. -/
theorem index_exact_of_called (h : s.Called) :
    (∀ n o i, (⟨o, i⟩ : Edge) ∈ s.live.usesOf n ↔
      o ∈ s.live.nodes ∧ (s.arena.inputs o)[i]? = some n) ∧
    (∀ o ∈ s.live.nodes, ∀ n ∈ s.arena.inputs o, n ∈ s.live.nodes) ∧
    (∀ g ∈ s.live.graphs, (∀ n ∈ s.arena.parameters g, n ∈ s.live.nodes) ∧
      ∀ r, s.arena.ret? g = some r → r ∈ s.live.nodes) ∧
    (∀ g out, (s.perform (.setOutput g out)).2 = .ok ()) ∧
    (∀ old new, (s.perform (.replace old new)).2 = .ok ()) ∧
    ∀ e new f, (s.perform (.setEdge e new)).2 = .error f →
      s.arena.slot? e = none ∧ (s.perform (.setEdge e new)).1 = s := by
  have hs := h.reachable.settled
  refine ⟨fun n o i => hs.mem_usesOf, fun o ho n hn => hs.agrees.mem_of_input ho hn,
    fun g hg => ⟨fun n hn => hs.agrees.mem_of_anchor hg (Arena.mem_anchors.mpr (Or.inl hn)),
      fun r hr => hs.agrees.ret_mem hg hr⟩, fun g out => ?_, hs.replace_eq_ok, fun e new f hf => ?_⟩
  · obtain ⟨s', hok⟩ := hs.exists_setOutput g out
    rw [perform, hok]
    rfl
  · cases hr : s.setEdge e new with
    | ok s' => simp [perform, hr, settle] at hf
    | error f' =>
      refine ⟨setEdge_eq_error_iff.mp ⟨f', hr⟩, ?_⟩
      rw [perform, hr]
      rfl

/-- A sum that adds itself to what is returned: its slots went over to it and to the return node, after
a parameter was asked for a slot in vain. -/
def loopedCalls : List Call :=
  [.newGraph "loop", .addParameter ⟨0⟩ (some .int64), .constant (.prim .add) none,
    .apply ⟨0⟩ [⟨1⟩, ⟨0⟩, ⟨0⟩] (some .int64), .setOutput ⟨0⟩ ⟨2⟩, .addRoot ⟨0⟩,
    .setEdge ⟨⟨2⟩, 2⟩ ⟨2⟩, .setEdge ⟨⟨0⟩, 0⟩ ⟨2⟩, .replace ⟨0⟩ ⟨4⟩]

def looped : Store := Store.empty.performAll loopedCalls

theorem called_looped : looped.Called :=
  Called.start.performAll (of_decide_eq_true (by cbv))

/-- The parameter has no uses left, and the sum and the return node are used from within the cycle. -/
theorem index_exact_of_called_looped :
    (∀ o i, (⟨o, i⟩ : Edge) ∉ looped.live.usesOf ⟨0⟩) ∧
    (⟨⟨2⟩, 2⟩ : Edge) ∈ looped.live.usesOf ⟨2⟩ ∧ (⟨⟨2⟩, 1⟩ : Edge) ∈ looped.live.usesOf ⟨4⟩ ∧
    (looped.perform (.setEdge ⟨⟨0⟩, 0⟩ ⟨2⟩)).1 = looped ∧
    (looped.perform (.replace ⟨4⟩ ⟨0⟩)).2 = .ok () := by
  obtain ⟨huses, -, -, -, hreplace, hedge⟩ := index_exact_of_called called_looped
  have hlive : looped.live.nodes.toList = [⟨0⟩, ⟨4⟩, ⟨2⟩, ⟨1⟩, ⟨3⟩] := by cbv
  have hin : looped.arena.inputs ⟨2⟩ = [⟨1⟩, ⟨4⟩, ⟨2⟩] := by cbv
  have hnone : ∀ o ∈ looped.live.nodes.toList, ⟨0⟩ ∉ looped.arena.inputs o := by
    rw [hlive]
    exact of_decide_eq_true (by cbv)
  have hfails : (looped.perform (.setEdge ⟨⟨0⟩, 0⟩ ⟨2⟩)).2 = .error (.noSlots ⟨0⟩) := by cbv
  have hsum : (⟨2⟩ : NodeId) ∈ looped.live.nodes := by
    rw [OrderedSet.mem_def, hlive]
    decide
  refine ⟨fun o i he => ?_, (huses _ _ _).mpr ⟨hsum, by rw [hin]; rfl⟩,
    (huses _ _ _).mpr ⟨hsum, by rw [hin]; rfl⟩, (hedge _ _ _ hfails).2, hreplace _ _⟩
  obtain ⟨ho, hi⟩ := (huses _ _ _).mp he
  exact hnone o ho (List.mem_of_getElem? hi)

end Store

end Midend
