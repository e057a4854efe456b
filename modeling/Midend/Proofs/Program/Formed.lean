import Midend.Proofs.Program.Given
import Midend.Proofs.Program.Loaded

/-!
# Nodes as loading makes them

What is called is annotated as a function and gets as many arguments as it takes, inputs are older
than what uses them, and the graphs that constants and annotations name are known.
-/

namespace Midend

namespace Arena

variable {a b c : Arena} {n m : NodeId} {known : GraphId → Prop} {k : NodeKind}
  {o : Option GraphId} {t : Option Ty}

/-! ### Arenas that only get further nodes -/

/-- Whether `b` has the nodes of `a` as they are, and perhaps others too. -/
structure Enlarged (a b : Arena) : Prop extends a.Grown b where
  type : ∀ {n}, n ∈ a.nodeIds → b.type? n = a.type? n
  label : ∀ {n}, n ∈ a.nodeIds → b.label? n = a.label? n

theorem Enlarged.refl (a : Arena) : a.Enlarged a := ⟨.refl a, fun _ => rfl, fun _ => rfl⟩

theorem Enlarged.trans (h : a.Enlarged b) (h' : b.Enlarged c) : a.Enlarged c :=
  ⟨h.toGrown.trans h'.toGrown, fun hn => (h'.type (h.nodeIds hn)).trans (h.type hn),
    fun hn => (h'.label (h.nodeIds hn)).trans (h.label hn)⟩

theorem enlarged_addNode (a : Arena) (k : NodeKind) (o : Option GraphId) (t : Option Ty) :
    a.Enlarged (a.addNode k o t).2 :=
  ⟨a.grown_addNode k o t, fun hn => type?_congr (a.node?_addNode_of_mem k o t hn),
    fun hn => by simp only [label?, a.node?_addNode_of_mem k o t hn]⟩

theorem Enlarged.modifyGraph (h : a.Enlarged b) (g : GraphId) (f : Graph → Graph) :
    a.Enlarged (b.modifyGraph g f) :=
  ⟨⟨h.nodeIds, h.kind, h.owner⟩, h.type, h.label⟩

/-! ### Nodes as loading makes them -/

/-- Whether inputs start with what is annotated as a function and, if it is an operation, go on with
as many arguments as it takes. -/
def Callable (a : Arena) (inputs : List NodeId) : Prop :=
  ∃ f args ts, inputs = f :: args ∧ a.type? f = some (.function ts) ∧
    ∀ p k, a.value? f = some (.prim p) → p.arity = some k → args.length = k

theorem Callable.enlarged {inputs : List NodeId} (h : a.Callable inputs) (hab : a.Enlarged b)
    (hin : ∀ m ∈ inputs, m ∈ a.nodeIds) : b.Callable inputs := by
  obtain ⟨f, args, ts, rfl, hts, harity⟩ := h
  have hf := hin f List.mem_cons_self
  exact ⟨f, args, ts, rfl, (hab.type hf).trans hts, fun p k hp => harity p k (hab.value? hf ▸ hp)⟩

/-- What holds of the nodes that loading makes, the graphs with names being known. -/
structure Formed (a : Arena) (known : GraphId → Prop) : Prop where
  calls : ∀ {n inputs}, a.kind? n = some (.apply inputs) → a.Callable inputs
  older : ∀ {n m}, m ∈ a.inputs n → m.index < n.index
  held : ∀ {n g}, a.heldGraph? n = some g → known g
  named : ∀ {n t}, a.type? n = some t → ∀ g ∈ t.namedGraphs, known g

theorem formed_of_nodeIds_eq_nil (h : a.nodeIds = []) : a.Formed known := by
  have hkind : ∀ n, a.kind? n = none := fun n => a.kind?_eq_none (by simp [h])
  refine ⟨fun hn => ?_, fun {n m} hm => ?_, fun {n g} hg => ?_, fun {n t} ht => ?_⟩
  · simp [hkind] at hn
  · simp [Arena.inputs, hkind] at hm
  · simp [heldGraph?, value?, hkind] at hg
  · have hnode : a.node? n = none := by simpa [kind?] using hkind n
    simp [type?, hnode] at ht

theorem Formed.congr (h : a.Formed known) (hk : ∀ n, b.kind? n = a.kind? n)
    (ht : ∀ n, b.type? n = a.type? n) : b.Formed known := by
  have hv : ∀ n, b.value? n = a.value? n := fun n => by simp only [value?, hk]
  refine ⟨fun {n inputs} hn => ?_, fun {n m} hm => ?_, fun {n g} hg => ?_, fun {n t} htn => ?_⟩
  · obtain ⟨f, args, ts, heq, hts, harity⟩ := h.calls (hk n ▸ hn)
    exact ⟨f, args, ts, heq, (ht f).trans hts, fun p k hp => harity p k (hv f ▸ hp)⟩
  · exact h.older (n := n) (by simpa only [Arena.inputs, hk] using hm)
  · exact h.held (n := n) (by simpa only [heldGraph?, hv] using hg)
  · exact h.named (n := n) (ht n ▸ htn)

/-- A further node keeps the arena formed if it calls what can be called, uses what is there, and
names what is known. -/
theorem Formed.addNode (h : a.Formed known) (hwf : a.WellFormed)
    (hcalls : ∀ inputs, k = .apply inputs → a.Callable inputs)
    (hin : ∀ m ∈ k.inputs, m ∈ a.nodeIds) (hheld : ∀ g, k = .constant (.graph g) → known g)
    (hnamed : ∀ x, t = some x → ∀ g ∈ x.namedGraphs, known g) :
    (a.addNode k o t).2.Formed known := by
  have hab := a.enlarged_addNode k o t
  have hnew := a.node?_addNode_self k o t
  have hcase : ∀ n, n ∈ (a.addNode k o t).2.nodeIds → n = ⟨a.nodes.size⟩ ∨ n ∈ a.nodeIds :=
    fun n => (a.mem_nodeIds_addNode k o t).mp
  have hkind : (a.addNode k o t).2.kind? ⟨a.nodes.size⟩ = some k := by
    rw [kind?, hnew, Option.map_some]
  refine ⟨fun {n inputs} hn => ?_, fun {n m} hm => ?_, fun {n g} hg => ?_, fun {n x} hx => ?_⟩
  · rcases hcase n (mem_nodeIds_of_kind? hn) with rfl | hold
    · obtain rfl := Option.some.inj (hkind.symm.trans hn)
      exact (hcalls _ rfl).enlarged hab hin
    · rw [hab.kind hold] at hn
      refine (h.calls hn).enlarged hab fun m hm => hwf.input_mem (n := n) ?_
      rwa [inputs_of_kind? hn]
  · rcases hcase n (mem_nodeIds_of_mem_inputs hm) with rfl | hold
    · rw [Arena.inputs, hkind] at hm
      exact a.mem_nodeIds.mp (hin m hm)
    · exact h.older (hab.inputs hold ▸ hm)
  · rw [heldGraph?_eq_some_iff] at hg
    rcases hcase n (mem_nodeIds_of_value? hg) with rfl | hold
    · exact hheld g (Option.some.inj (hkind.symm.trans (kind?_of_value? hg)))
    · exact h.held (heldGraph?_eq_some_iff.mpr (hab.value? hold ▸ hg))
  · by_cases hold : n ∈ a.nodeIds
    · exact h.named (hab.type hold ▸ hx)
    · obtain ⟨d, hd, hdt⟩ := Option.bind_eq_some_iff.mp hx
      have hmem : n ∈ (a.addNode k o t).2.nodeIds :=
        mem_nodeIds_of_kind? (k := d.kind) (by rw [kind?, hd, Option.map_some])
      obtain rfl := (hcase n hmem).resolve_right hold
      obtain rfl := Option.some.inj (hnew.symm.trans hd)
      exact hnamed x hdt

end Arena

namespace Store

open Arena (Enlarged Formed)

variable {a : Arena} {s : Store} {g : GraphId} {n : NodeId} {label : String}
  {known : GraphId → Prop} {t : Option Ty}

/-- A label may be given to a node that is new. -/
theorem enlarged_setLabel (h : a.Enlarged s.arena) (hn : n ∉ a.nodeIds) :
    a.Enlarged (s.setLabel n label).arena := by
  have hgrown := h.toGrown.trans (s.grown_setLabel n label)
  have hnode : ∀ {m}, m ∈ a.nodeIds → (s.setLabel n label).arena.node? m = s.arena.node? m :=
    fun {m} hm => (s.arena.node?_modifyNode n _).trans (if_neg (ne_of_mem_of_not_mem hm hn))
  exact ⟨hgrown, fun hm => (Arena.type?_congr (hnode hm)).trans (h.type hm),
    fun hm => by rw [← h.label hm, Arena.label?, Arena.label?, hnode hm]⟩

theorem label?_setLabel (hn : n ∈ s.arena.nodeIds) :
    (s.setLabel n label).arena.label? n = some label := by
  obtain ⟨d, hd⟩ := Option.isSome_iff_exists.mp (Arena.mem_nodeIds_iff_node?.mp hn)
  rw [Arena.label?, Store.setLabel, Arena.node?_modifyNode, if_pos rfl, hd]
  rfl

theorem kind?_setLabel (m : NodeId) :
    (s.setLabel n label).arena.kind? m = s.arena.kind? m := by
  simp only [Store.setLabel, Arena.kind?, Arena.node?_modifyNode]
  split
  · simp [Function.comp_def]
  · rfl

theorem type?_setLabel (m : NodeId) :
    (s.setLabel n label).arena.type? m = s.arena.type? m := by
  simp only [Store.setLabel, Arena.type?, Arena.node?_modifyNode]
  split
  · rw [Option.bind_map]
    rfl
  · rfl

theorem formed_setLabel (h : s.arena.Formed known) : (s.setLabel n label).arena.Formed known :=
  h.congr kind?_setLabel type?_setLabel

theorem enlarged_addParameter (s : Store) (g : GraphId) (t : Option Ty) :
    s.arena.Enlarged (s.addParameter g t).2.arena := by
  rw [arena_addParameter]
  exact (s.arena.enlarged_addNode .parameter (some g) t).modifyGraph g _

theorem formed_addParameter (h : s.arena.Formed known) (hwf : s.arena.WellFormed)
    (ht : ∀ x, t = some x → ∀ g ∈ x.namedGraphs, known g) :
    (s.addParameter g t).2.arena.Formed known := by
  have hadd : (s.arena.addNode .parameter (some g) t).2.Formed known :=
    h.addNode hwf (by simp) (by simp [NodeKind.inputs]) (by simp) ht
  rw [arena_addParameter]
  exact hadd.congr (fun _ => rfl) fun _ => rfl

end Store

end Midend
