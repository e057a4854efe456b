import Mathlib
import Midend.Proofs.Program.Declared

/-!
# Well-formed programs

The store of an accepted program has the graphs of its description, each with the output that is
named there, and its nodes are formed, because the building of one graph keeps those that were built
before it.
-/

namespace Midend

/-- The return operation is annotated as it is when it is made, and takes one argument. -/
theorem Arena.callable_ret {a : Arena} {f n : NodeId} (hf : a.node? f =
    some ⟨.constant (.prim .ret), none, some (.function [.prim .ret]), none⟩) :
    a.Callable [f, n] := by
  refine ⟨f, [n], [.prim .ret], rfl, by simp [type?, hf], fun p k hp hk => ?_⟩
  obtain rfl : Prim.ret = p := by simpa [value?, kind?, hf, NodeKind.value?] using hp
  exact Option.some.inj hk

/-- An apply belongs to a graph, and it uses older nodes only: constants, and nodes of this
graph. -/
theorem Arena.Formed.inputs_of_apply {a : Arena} {known : GraphId → Prop} {n : NodeId}
    {inputs : List NodeId} (h : a.Formed known) (howned : a.Owned) (hwf : a.WellFormed)
    (hn : a.kind? n = some (.apply inputs)) :
    ∃ g, a.owner? n = some g ∧ ∀ m ∈ inputs,
      m.index < n.index ∧ ((∃ v, a.value? m = some v) ∨ a.owner? m = some g) := by
  have hin := inputs_of_kind? hn
  cases ho : a.owner? n with
  | none =>
    obtain ⟨v, hv⟩ := (howned.free_iff (mem_nodeIds_of_kind? hn)).mp ho
    simp [kind?_of_value? hv] at hn
  | some g =>
    refine ⟨g, rfl, fun m hm => ⟨h.older (hin ▸ hm), ?_⟩⟩
    rcases howned.input (hin ▸ hm) with hown | hnone
    · exact Or.inr (hown.trans ho)
    · exact Or.inl ((howned.free_iff (hwf.input_mem (hin ▸ hm))).mp hnone)

namespace Program

open Arena (Enlarged Formed)

variable {graphs : GraphNames} {g : GraphId} {s s' : Store}

theorem addReturn_spec {n : NodeId} (hg : g ∈ s.arena.graphIds) (hn : n ∈ s.arena.nodeIds)
    (hwf : s.arena.WellFormed) (hf : s.arena.Formed (Given graphs)) :
    (s.addReturn g n).arena.Formed (Given graphs) ∧ s.arena.Enlarged (s.addReturn g n).arena ∧
      ∃ r f, (s.addReturn g n).arena.ret? g = some r ∧
        (s.addReturn g n).arena.inputs r = [f, n] ∧
        (s.addReturn g n).arena.value? f = some (.prim .ret) := by
  obtain ⟨d, hd⟩ := Option.isSome_iff_exists.mp (Arena.mem_graphIds_iff_graph?.mp hg)
  -- the store with the operation, and the one with the apply of it
  generalize hc : s.constant (.prim .ret) = c
  have hcw : c = s.constantWith (.prim .ret) (Value.type? (.prim .ret)) := hc.symm
  have hcf : c.2.arena.Formed (Given graphs) := by
    rw [hcw]
    exact hf.addNode hwf (by simp) (by simp [NodeKind.inputs]) (by simp)
      (Draft.covers_type? (v := .prim .ret) (by simp))
  have hcwf : c.2.arena.WellFormed := by
    rw [hcw]
    exact hwf.addNode (by simp) (by simp [NodeKind.inputs]) (by simp [NodeKind.value?]) (by simp)
  have hab : s.arena.Enlarged c.2.arena := by
    rw [hcw]
    exact s.arena.enlarged_addNode _ _ _
  have hnode : c.2.arena.node? c.1 =
      some ⟨.constant (.prim .ret), none, some (.function [.prim .ret]), none⟩ := by
    rw [hcw]
    exact s.arena.node?_addNode_self _ _ _
  have hmem : c.1 ∈ c.2.arena.nodeIds := Arena.mem_nodeIds_iff_node?.mpr (by simp [hnode])
  have hin : ∀ m ∈ [c.1, n], m ∈ c.2.arena.nodeIds := by
    intro m hm
    rcases List.mem_cons.mp hm with rfl | hm
    · exact hmem
    · exact List.mem_singleton.mp hm ▸ hab.nodeIds hn
  have haf : (c.2.apply g [c.1, n] (s.arena.type? n)).2.arena.Formed (Given graphs) := by
    refine hcf.addNode hcwf (fun inputs heq => ?_) hin (by simp) fun x hx => hf.named hx
    exact NodeKind.apply.inj heq ▸ Arena.callable_ret hnode
  have hab' := c.2.arena.enlarged_addNode (.apply [c.1, n]) (some g) (s.arena.type? n)
  have harena : (s.addReturn g n).arena =
      (c.2.apply g [c.1, n] (s.arena.type? n)).2.arena.modifyGraph g
        fun d => { d with ret := some (c.2.apply g [c.1, n] (s.arena.type? n)).1 } := by
    rw [Store.addReturn, Store.arena_acquireIn, hc]
  rw [harena]
  refine ⟨haf.congr (fun _ => rfl) fun _ => rfl, (hab.trans hab').modifyGraph g _,
    (c.2.apply g [c.1, n] (s.arena.type? n)).1, c.1, ?_, ?_, ?_⟩
  · have hgraph : (c.2.apply g [c.1, n] (s.arena.type? n)).2.arena.graph? g = some d := by
      rw [hcw]
      exact hd
    simp [Arena.ret?, Arena.graph?_modifyGraph, hgraph]
  · exact c.2.inputs_apply g [c.1, n] (s.arena.type? n)
  · refine (hab'.value? hmem).trans ?_
    simp [Arena.value?, Arena.kind?, hnode, NodeKind.value?]

/-- How a graph gets its parameters and then its nodes: from `s`, by way of `d₁`, to `d₂`. -/
structure Builds (graphs : GraphNames) (s : Store) (g : GraphId) (spec : GraphSpec)
    (params : List (String × Option Ty)) (nodes : List (NodeSpec × Option Ty))
    (d₁ d₂ : Draft) : Prop where
  params_fst : params.map Prod.fst = spec.params.map ParamSpec.name
  nodes_fst : nodes.map Prod.fst = spec.nodes
  covers : ∀ x ∈ nodes, Covers graphs x.2
  params : (⟨g, spec.name, s, .empty⟩ : Draft).addParams params = .ok d₁
  nodes : d₁.addNodes graphs nodes = .ok d₂
  placed : Placed graphs d₁.store.arena
  sound_params : d₁.Sound graphs (spec.params.map ParamSpec.name) []
  sound : d₂.Sound graphs (spec.params.map ParamSpec.name) spec.nodes
  enlarged : s.arena.Enlarged d₂.store.arena
  graph : d₂.graph = g
  graph_mem : g ∈ d₂.store.arena.graphIds

theorem sound_buildGraph {spec : GraphSpec} (h : s.Loaded) (hp : Placed graphs s.arena)
    (hg : g ∈ s.arena.graphIds) (hret : s.arena.ret? g = none)
    (hf : s.arena.Formed (Given graphs)) (hok : buildGraph graphs s g spec = .ok s') :
    ∃ params nodes d₁ d₂ n, Builds graphs s g spec params nodes d₁ d₂ ∧
      d₂.names.get? spec.output = some n ∧ s' = d₂.store.addReturn g n := by
  obtain ⟨pts, nts, d₁, d₂, n, hpts, hnts, hparams, hnodes, hn, honto, rfl⟩ :=
    buildGraph_eq_ok h hp hg hret hok
  have hstart : (⟨g, spec.name, s, .empty⟩ : Draft).Sound graphs [] [] :=
    ⟨⟨h, hg, fun hn => by simp at hn⟩, hf, fun hn => by simp at hn⟩
  have hplaced := (hstart.good.addParams hparams).placed hp
  have hcovers : ∀ x ∈ spec.nodes.zip nts, Covers graphs x.2 := fun x hx =>
    covers_optionalTypes hnts x.2 (List.of_mem_zip hx).2
  have hparams_fst : ((spec.params.map ParamSpec.name).zip pts).map Prod.fst =
      spec.params.map ParamSpec.name :=
    List.map_fst_zip (by simp [length_optionalTypes hpts])
  have hnodes_fst : (spec.nodes.zip nts).map Prod.fst = spec.nodes :=
    List.map_fst_zip (by simp [length_optionalTypes hnts])
  obtain ⟨hsound₁, hab₁⟩ := hstart.addParams (fun p hp =>
    covers_optionalTypes hpts p.2 (List.of_mem_zip hp).2) hparams
  obtain ⟨hsound₂, hab₂⟩ := hsound₁.addNodes hplaced hcovers hnodes
  rw [List.nil_append, hparams_fst] at hsound₁ hsound₂
  rw [List.nil_append, hnodes_fst] at hsound₂
  exact ⟨_, _, d₁, d₂, n, ⟨hparams_fst, hnodes_fst, hcovers, hparams, hnodes, hplaced, hsound₁,
    hsound₂, hab₁.trans hab₂, honto.graph, (honto.graphIds g).mpr hg⟩, hn, rfl⟩

theorem formed_buildGraph {spec : GraphSpec} (h : s.Loaded) (hp : Placed graphs s.arena)
    (hg : g ∈ s.arena.graphIds) (hret : s.arena.ret? g = none)
    (hf : s.arena.Formed (Given graphs)) (hok : buildGraph graphs s g spec = .ok s') :
    s'.arena.Formed (Given graphs) ∧ s.arena.Enlarged s'.arena ∧
      Returns graphs s'.arena g spec := by
  obtain ⟨params, nodes, d₁, d₂, n, hb, hn, rfl⟩ := sound_buildGraph h hp hg hret hf hok
  have hdecl := hb.sound.declared hn
  rw [hb.graph] at hdecl
  obtain ⟨hformed, hab, r, f, hr, hin, hval⟩ := addReturn_spec hb.graph_mem hdecl.mem
    hb.sound.good.loaded.wellFormed hb.sound.formed
  exact ⟨hformed, hb.enlarged.trans hab, r, f, n, hr, hin, hval, hdecl.enlarged hab⟩

theorem formed_buildGraphs {todo : List (GraphSpec × GraphId)} (h : s.Loaded)
    (hp : Placed graphs s.arena) (hnodup : (todo.map Prod.snd).Nodup)
    (hg : ∀ x ∈ todo, x.2 ∈ s.arena.graphIds ∧ s.arena.ret? x.2 = none)
    (hf : s.arena.Formed (Given graphs)) (hok : buildGraphs graphs s todo = .ok s') :
    s'.arena.Formed (Given graphs) ∧ s.arena.Enlarged s'.arena ∧
      (∀ k, k ∉ todo.map Prod.snd → s'.arena.ret? k = s.arena.ret? k) ∧
      ∀ x ∈ todo, Returns graphs s'.arena x.2 x.1 := by
  induction todo generalizing s with
  | nil =>
    obtain rfl := Except.ok.inj hok
    exact ⟨hf, .refl _, fun _ _ => rfl, fun x hx => absurd hx List.not_mem_nil⟩
  | cons x todo ih =>
    obtain ⟨spec, g⟩ := x
    obtain ⟨hnot, hnodup⟩ := List.nodup_cons.mp hnodup
    obtain ⟨hmem, hnone⟩ := hg _ List.mem_cons_self
    unfold buildGraphs at hok
    split at hok
    · cases hok
    · next s₁ hone =>
      obtain ⟨h₁, hids, hret⟩ := loaded_buildGraph h hp hmem hnone hone
      obtain ⟨hf₁, hab₁, hreturns⟩ := formed_buildGraph h hp hmem hnone hf hone
      have hrest := unbuilt_rest hg hnot hids hret
      obtain ⟨hf', hab', hret', hall⟩ :=
        ih h₁ (fun name k hk => (hids k).mpr (hp name k hk)) hnodup hrest hf₁ hok
      refine ⟨hf', hab₁.trans hab', fun k hk => ?_, fun y hy => ?_⟩
      · rw [List.map_cons, List.mem_cons, not_or] at hk
        exact (hret' k hk.2).trans (hret k hk.1)
      · rcases List.mem_cons.mp hy with rfl | hy
        · exact hreturns.enlarged hab' h₁.wellFormed (hret' g hnot)
        · exact hall y hy

/-- The graphs that are made for names, one for each, and nothing else. -/
structure Listed (names : List String) (graphs : GraphNames) (s : Store) : Prop where
  keys : graphs.keys = names
  graphIds : ∀ g, g ∈ s.arena.graphIds ↔ g ∈ graphs.entries.map Prod.snd
  nodeIds : s.arena.nodeIds = []

theorem Listed.addGraphs {graphs' : GraphNames} {names rest : List String}
    (h : Listed names graphs s) (hok : addGraphs s graphs rest = .ok (s', graphs')) :
    Listed (names ++ rest) graphs' s' := by
  induction rest generalizing s graphs names with
  | nil =>
    obtain ⟨rfl, rfl⟩ := Prod.mk.inj (Except.ok.inj hok)
    simpa using h
  | cons name rest ih =>
    unfold Program.addGraphs at hok
    split at hok
    · cases hok
    · next hnew =>
      have hentries : (graphs.insert name (s.newGraph name).1).entries =
          graphs.entries ++ [(name, (s.newGraph name).1)] := OrderedMap.entries_insert hnew
      have hnext : Listed (names ++ [name]) (graphs.insert name (s.newGraph name).1)
          (s.newGraph name).2 := by
        refine ⟨?_, fun g => ?_, h.nodeIds⟩
        · rw [OrderedMap.keys, hentries, List.map_append, ← h.keys]
          rfl
        · rw [hentries, List.map_append, List.mem_append, ← h.graphIds]
          refine (s.arena.mem_graphIds_addGraph name).trans ?_
          simp [Store.newGraph, Arena.addGraph, or_comm]
      simpa using ih hnext hok

theorem listed_empty : Listed [] .empty .empty :=
  ⟨rfl, fun g => by simp [Store.empty, Arena.empty, Arena.graphIds, OrderedMap.empty], rfl⟩

/-- An accepted program is well formed. The graphs of its store are those of the description, in
order. Each of them returns, by an apply of the return operation, the node that its output names.
Each apply starts with what is annotated as a function and gets as many arguments as an operation in
its place takes; its inputs are older nodes, and constants or nodes of the same graph. What a
constant or an annotation names is a graph of the program. -/
theorem wellFormed_build {spec : Spec} {p : Program} (hok : build spec = .ok p) :
    ∃ graphs : GraphNames, graphs.keys = spec.graphs.map GraphSpec.name ∧
      graphs.entries.map Prod.snd = p.graphs ∧ p.store.arena.Acyclic ∧
      (∀ g, g ∈ p.store.arena.graphIds ↔ g ∈ p.graphs) ∧
      (∀ g ∈ p.graphs, ∃ x, (x, g) ∈ spec.graphs.zip p.graphs ∧
        Returns graphs p.store.arena g x) ∧
      (∀ n inputs, p.store.arena.kind? n = some (.apply inputs) →
        p.store.arena.Callable inputs ∧ ∃ g, p.store.arena.owner? n = some g ∧
          ∀ m ∈ inputs, m.index < n.index ∧
            ((∃ v, p.store.arena.value? m = some v) ∨ p.store.arena.owner? m = some g)) ∧
      (∀ n g, p.store.arena.heldGraph? n = some g → g ∈ p.graphs) ∧
      ∀ n t, p.store.arena.type? n = some t → ∀ g ∈ t.namedGraphs, g ∈ p.graphs := by
  have hloaded := (loaded_build hok).1
  simp only [build, bind, Except.bind] at hok
  split at hok
  · cases hok
  · next r hadd =>
    obtain ⟨s, graphs⟩ := r
    have hnamed := named_empty.addGraphs hadd
    have hlisted := listed_empty.addGraphs hadd
    have hp : Placed graphs s.arena := fun name g hg =>
      hnamed.graph_mem (name, g) (OrderedMap.mem_entries_of_get? hg)
    simp only at hok
    split at hok
    · cases hok
    · next first others hgraphs =>
      split at hok
      · cases hok
      · next s' hbuilt =>
        split at hok
        · cases hok
        · next root hroot =>
          obtain rfl := Except.ok.inj hok
          have hsub := sublist_snd_zip spec.graphs (first :: others)
          have hg : ∀ x ∈ spec.graphs.zip (first :: others),
              x.2 ∈ s.arena.graphIds ∧ s.arena.ret? x.2 = none := fun x hx =>
            ⟨(hlisted.graphIds x.2).mpr (hgraphs ▸ hsub.subset (List.mem_map_of_mem hx)),
              hnamed.ret x.2⟩
          have hnodup := (hgraphs ▸ hnamed.nodup).sublist hsub
          obtain ⟨hformed, -, -, hreturns⟩ := formed_buildGraphs hnamed.loaded hp hnodup hg
            (Arena.formed_of_nodeIds_eq_nil hlisted.nodeIds) hbuilt
          obtain ⟨-, hids⟩ := loaded_buildGraphs hnamed.loaded hp hnodup hg hbuilt
          have hgiven : ∀ g, Given graphs g → g ∈ first :: others := by
            rintro g ⟨name, hname⟩
            rw [← hgraphs]
            exact List.mem_map.mpr ⟨_, OrderedMap.mem_entries_of_get? hname, rfl⟩
          have hlen : spec.graphs.length = (first :: others).length := by
            have hkeys := congrArg List.length hlisted.keys
            rw [← hgraphs, List.length_map]
            simpa [OrderedMap.keys] using hkeys.symm
          refine ⟨graphs, by simpa using hlisted.keys, hgraphs, hloaded.reached.acyclic,
            fun g => ?_, fun g hmem => ?_, fun n inputs hn => ⟨hformed.calls hn, ?_⟩,
            fun n g hheld => hgiven g (hformed.held hheld),
            fun n t ht g hg => hgiven g (hformed.named ht g hg)⟩
          · rw [hids, hlisted.graphIds, hgraphs]
          · rw [← List.map_snd_zip (Nat.le_of_eq hlen.symm)] at hmem
            obtain ⟨⟨x, _⟩, hpair, rfl⟩ := List.mem_map.mp hmem
            exact ⟨x, hpair, hreturns _ hpair⟩
          · exact hformed.inputs_of_apply hloaded.tidy.owned hloaded.wellFormed hn

/-- A graph that calls one described after it, and is annotated with it. -/
def calledAhead : Spec :=
  ⟨none, [
    ⟨"main", [⟨"x", some (.name "i64")⟩], [
      ⟨"late", some (.object [("graph", .string "late")]), none, some (.function [.name "late"])⟩,
      ⟨"out", none, some ["late", "x"], some (.name "i64")⟩], "out"⟩,
    ⟨"late", [⟨"z", none⟩], [⟨"out", none, some ["neg", "z"], none⟩], "out"⟩]⟩

theorem wellFormed_build_calledAhead : ∃ p, build calledAhead = .ok p ∧
    p.graphs = [⟨0⟩, ⟨1⟩] ∧
    (∀ g ∈ p.graphs, ∃ r f n, p.store.arena.ret? g = some r ∧ p.store.arena.inputs r = [f, n] ∧
      p.store.arena.value? f = some (.prim .ret) ∧ p.store.arena.label? n = some "out") ∧
    ∀ n g, p.store.arena.heldGraph? n = some g → g ∈ p.graphs := by
  obtain ⟨p, hp, hgraphs⟩ : ∃ p, build calledAhead = .ok p ∧ p.graphs = [⟨0⟩, ⟨1⟩] := by
    have hok : (match build calledAhead with
      | .ok p => some p.graphs
      | .error _ => none) = some [⟨0⟩, ⟨1⟩] := by cbv
    cases hbuild : build calledAhead with
    | ok p => exact ⟨p, rfl, by simpa [hbuild] using hok⟩
    | error e => simp [hbuild] at hok
  obtain ⟨graphs, -, -, -, -, hreturns, -, hheld, -⟩ := wellFormed_build hp
  refine ⟨p, hp, hgraphs, fun g hg => ?_, hheld⟩
  obtain ⟨x, hx, r, f, n, hr, hin, hf, hdecl⟩ := hreturns g hg
  have hout : x.output = "out" := by
    have hmem := (List.of_mem_zip hx).1
    simp only [calledAhead, List.mem_cons, List.not_mem_nil, or_false] at hmem
    rcases hmem with rfl | rfl
    · rfl
    · rfl
  exact ⟨r, f, n, hr, hin, hf, hout ▸ hdecl.label⟩

end Program

end Midend
