import Midend.Proofs.Store.Run
import Midend.Store.Build

/-!
# Stores that are only built up

A new node uses nodes that were there before it, so making nodes closes no cycle.
-/

namespace Midend

namespace Arena

variable {a b : Arena} {n m : NodeId} {k : NodeKind} {o : Option GraphId} {t : Option Ty}

theorem Acyclic.congr (h : a.Acyclic) (hin : ∀ n, b.inputs n = a.inputs n) : b.Acyclic := by
  have heq : b.Uses = a.Uses := funext fun n => funext fun m => by simp only [Uses, hin]
  intro n hn
  rw [heq] at hn
  exact h n hn

/-- A new node that uses nodes of the arena closes no cycle. -/
theorem Acyclic.addNode (h : a.Acyclic) (hwf : a.WellFormed)
    (hin : ∀ m ∈ k.inputs, m ∈ a.nodeIds) : (a.addNode k o t).2.Acyclic := by
  have hold : ∀ {n m}, n ∈ a.nodeIds → Relation.TransGen (a.addNode k o t).2.Uses n m →
      m ∈ a.nodeIds ∧ Relation.TransGen a.Uses n m := by
    intro n m hn hnm
    have huse : ∀ {x y}, x ∈ a.nodeIds → (a.addNode k o t).2.Uses x y → a.Uses x y := by
      intro x y hx hxy
      rwa [Uses, inputs_congr (a.node?_addNode_of_mem k o t hx)] at hxy
    induction hnm with
    | single hu => exact ⟨hwf.input_mem (huse hn hu), .single (huse hn hu)⟩
    | tail _ hu ih => exact ⟨hwf.input_mem (huse ih.1 hu), ih.2.tail (huse ih.1 hu)⟩
  intro n hn
  obtain ⟨m, hm, hmn⟩ := Relation.TransGen.head'_iff.mp hn
  rcases inputs_addNode (mem_nodeIds_of_mem_inputs hm) with ⟨rfl, hi⟩ | ⟨hmem, _⟩
  · have hm' : m ∈ a.nodeIds := hin m (hi ▸ hm)
    rcases Relation.reflTransGen_iff_eq_or_transGen.mp hmn with heq | hmn
    · exact a.not_mem_nodeIds_size (heq ▸ hm')
    · exact a.not_mem_nodeIds_size (hold hm' hmn).1
  · exact h n (hold hmem hn).2

/-- Pointing a slot at a node without inputs closes no cycle. -/
theorem Acyclic.setSlot {e : Edge} (h : a.Acyclic) (hm : a.inputs m = []) :
    (a.setSlot e m).Acyclic := by
  have hleaf : (a.setSlot e m).inputs m = [] := by
    rw [inputs_setSlot, hm]
    split <;> rfl
  have hold : ∀ {x y}, Relation.TransGen (a.setSlot e m).Uses x y →
      y = m ∨ Relation.TransGen a.Uses x y := by
    intro x y hxy
    induction hxy with
    | single hu =>
      rcases mem_inputs_setSlot hu with hu | ⟨-, hy⟩
      · exact Or.inr (.single hu)
      · exact Or.inl hy
    | @tail y z _ hu ih =>
      rcases ih with rfl | ih
      · exact absurd hu (by simp [Uses, hleaf])
      · rcases mem_inputs_setSlot hu with hu | ⟨-, hz⟩
        · exact Or.inr (ih.tail hu)
        · exact Or.inl hz
  intro n hn
  rcases hold hn with rfl | hn'
  · obtain ⟨k, hk, -⟩ := Relation.TransGen.head'_iff.mp hn
    exact absurd hk (by simp [Uses, hleaf])
  · exact h n hn'

end Arena

namespace Store

variable {s : Store} {g : GraphId} {n : NodeId} {v : Value}

namespace ReachedAcyclic

theorem start : Store.empty.ReachedAcyclic :=
  .empty (Arena.acyclic_of_lt fun n _ m hm => by simp [Arena.inputs, Arena.kind?, Arena.node?,
    Store.empty, Arena.empty] at hm)

variable (h : s.ReachedAcyclic)
include h

theorem newGraph (name : String) : (s.newGraph name).2.ReachedAcyclic :=
  ReachedThrough.step h (.newGraph s name) h.acyclic

theorem addParameter (hg : g ∈ s.arena.graphIds) (t : Option Ty) :
    (s.addParameter g t).2.ReachedAcyclic := by
  refine ReachedThrough.step h (.addParameter t hg) ?_
  have hadd : (s.arena.addNode .parameter (some g) t).2.Acyclic :=
    h.acyclic.addNode h.settled.wellFormed fun _ hm => absurd hm List.not_mem_nil
  have harena : ∀ (s : Store) n, (s.acquireIn g n).arena.Acyclic ↔ s.arena.Acyclic := fun s n => by
    rw [arena_acquireIn]
  exact (harena _ _).mpr (hadd.congr fun _ => rfl)

theorem setLabel (n : NodeId) (label : String) : (s.setLabel n label).ReachedAcyclic := by
  refine ReachedThrough.step h (.setLabel s n label) (h.acyclic.congr fun m => ?_)
  simp only [Store.setLabel, Arena.inputs, Arena.kind?, Arena.node?_modifyNode]
  by_cases hm : m = n
  · simp [hm, Function.comp_def]
  · simp [hm]

theorem param (g : GraphId) (label : String) (t : Option Ty) (hg : g ∈ s.arena.graphIds) :
    (s.param g label t).2.ReachedAcyclic :=
  (h.addParameter hg t).setLabel _ label

theorem constantWith (hv : ∀ g, v = .graph g → g ∈ s.arena.graphIds) (t : Option Ty) :
    (s.constantWith v t).2.ReachedAcyclic :=
  ReachedThrough.step h (.constant t hv)
    (h.acyclic.addNode h.settled.wellFormed fun _ hm => absurd hm List.not_mem_nil)

theorem apply {inputs : List NodeId} (hg : g ∈ s.arena.graphIds)
    (hin : ∀ m ∈ inputs, m ∈ s.arena.nodeIds) (t : Option Ty) :
    (s.apply g inputs t).2.ReachedAcyclic :=
  ReachedThrough.step h (.apply t hg hin) (h.acyclic.addNode h.settled.wellFormed hin)

theorem addReturn (g : GraphId) (n : NodeId) (hg : g ∈ s.arena.graphIds)
    (hn : n ∈ s.arena.nodeIds) (hret : s.arena.ret? g = none) :
    (s.addReturn g n).ReachedAcyclic := by
  refine ReachedThrough.step h (.setOutput hg hn (setOutput_of_ret?_eq_none hret)) ?_
  have hc : (s.constant (.prim .ret)).2.ReachedAcyclic := h.constantWith (by simp) _
  have ha : ((s.constant (.prim .ret)).2.apply g [(s.constant (.prim .ret)).1, n]
      (s.arena.type? n)).2.ReachedAcyclic := by
    refine hc.apply hg (fun m hm => ?_) _
    refine (s.arena.mem_nodeIds_addNode _ _ _).mpr ?_
    rcases List.mem_cons.mp hm with rfl | hm
    · exact Or.inl rfl
    · exact Or.inr (List.mem_singleton.mp hm ▸ hn)
  have harena : ∀ (s : Store) n, (s.acquireIn g n).arena.Acyclic ↔ s.arena.Acyclic := fun s n => by
    rw [arena_acquireIn]
  exact (harena _ _).mpr (ha.acyclic.congr fun _ => rfl)

omit h in
theorem mem_nodeIds_constantWith : n ∈ (s.constantWith v t).2.arena.nodeIds ↔
    n = (s.constantWith v t).1 ∨ n ∈ s.arena.nodeIds :=
  s.arena.mem_nodeIds_addNode (.constant v) none t

/-- A constant is made and applied to nodes that were there before it. -/
theorem callConstant (hv : ∀ g, v = .graph g → g ∈ s.arena.graphIds) {args : List NodeId}
    (hg : g ∈ s.arena.graphIds) (hargs : ∀ m ∈ args, m ∈ s.arena.nodeIds) (t u : Option Ty) :
    ((s.constantWith v u).2.call g (s.constantWith v u).1 args t).2.ReachedAcyclic := by
  refine (h.constantWith hv u).apply hg (fun m hm => mem_nodeIds_constantWith.mpr ?_) t
  exact (List.mem_cons.mp hm).imp_right (hargs m)

theorem callPrim (g : GraphId) (p : Prim) (args : List NodeId) (t : Option Ty)
    (hg : g ∈ s.arena.graphIds) (hargs : ∀ m ∈ args, m ∈ s.arena.nodeIds) :
    (s.callPrim g p args t).2.ReachedAcyclic :=
  h.callConstant (by simp) hg hargs t _

theorem callGraph (g callee : GraphId) (args : List NodeId) (t : Option Ty)
    (hg : g ∈ s.arena.graphIds) (hc : callee ∈ s.arena.graphIds)
    (hargs : ∀ m ∈ args, m ∈ s.arena.nodeIds) :
    (s.callGraph g callee args t).2.ReachedAcyclic :=
  h.callConstant (fun _ hv => Value.graph.inj hv ▸ hc) hg hargs t _

theorem tuple (g : GraphId) (parts : List NodeId) (hg : g ∈ s.arena.graphIds)
    (hparts : ∀ m ∈ parts, m ∈ s.arena.nodeIds) : (s.tuple g parts).2.ReachedAcyclic :=
  h.callPrim g .makeTuple parts _ hg hparts

theorem callKeyed {args : List NodeId} (p : Prim) (hv : ∀ g, v ≠ .graph g)
    (hg : g ∈ s.arena.graphIds)
    (hargs : ∀ m ∈ args, m = (s.constant v).1 ∨ m ∈ s.arena.nodeIds) (t : Option Ty) :
    ((s.constant v).2.callPrim g p args t).2.ReachedAcyclic :=
  (h.constantWith (fun g hg => absurd hg (hv g)) v.type?).callPrim g p args t hg
    fun m hm => mem_nodeIds_constantWith.mpr (hargs m hm)

theorem tupleGet (g : GraphId) (n : NodeId) (i : Int) (hg : g ∈ s.arena.graphIds)
    (hn : n ∈ s.arena.nodeIds) : (s.tupleGet g n i).2.ReachedAcyclic := by
  refine h.callKeyed .tupleGet (v := .int i) (by simp) hg (fun m hm => ?_) _
  rcases List.mem_cons.mp hm with rfl | hm
  · exact Or.inr hn
  · exact Or.inl (List.mem_singleton.mp hm)

theorem envSet (g : GraphId) (env : NodeId) (key : String) (value : NodeId)
    (hg : g ∈ s.arena.graphIds) (he : env ∈ s.arena.nodeIds) (hvalue : value ∈ s.arena.nodeIds) :
    (s.envSet g env key value).2.ReachedAcyclic := by
  refine h.callKeyed .envSet (v := .key key) (by simp) hg (fun m hm => ?_) _
  simp only [List.mem_cons, List.not_mem_nil, or_false] at hm
  rcases hm with rfl | rfl | rfl
  · exact Or.inr he
  · exact Or.inl rfl
  · exact Or.inr hvalue

theorem envGet (g : GraphId) (env : NodeId) (key : String) (default : NodeId)
    (hg : g ∈ s.arena.graphIds) (he : env ∈ s.arena.nodeIds) (hd : default ∈ s.arena.nodeIds) :
    (s.envGet g env key default).2.ReachedAcyclic := by
  refine h.callKeyed .envGet (v := .key key) (by simp) hg (fun m hm => ?_) _
  simp only [List.mem_cons, List.not_mem_nil, or_false] at hm
  rcases hm with rfl | rfl | rfl
  · exact Or.inr he
  · exact Or.inl rfl
  · exact Or.inr hd

end ReachedAcyclic

end Store

end Midend
