import Midend.Proofs.Program.WellFormed

/-!
# What names denote

The names of an apply are looked up when the apply is made, among those that the graph has given by
then. What is looked up stays so: a name is given once, and only to a node that is new.
-/

namespace Midend

namespace Program

open Arena (Enlarged)

variable {graphs : GraphNames} {a b : Arena} {g : GraphId} {names : OrderedMap String NodeId}
  {scope : List String} {name other : String} {n m : NodeId} {s s' : Store}

/-! ### What names denote -/

/-- Whether `m` is what a name denotes after the names of `scope`: the node that has the name, if
it is one of them, and else a constant, the graph of that name or else the operation. -/
structure Denotes (graphs : GraphNames) (a : Arena) (names : OrderedMap String NodeId)
    (scope : List String) (name : String) (m : NodeId) : Prop where
  mem : m ∈ a.nodeIds
  own : names.get? name = some m ↔ name ∈ scope
  outer : name ∉ scope → ∃ v, outer? graphs name = some v ∧ a.value? m = some v

theorem Denotes.enlarged (h : Denotes graphs a names scope name m) (hab : a.Enlarged b) :
    Denotes graphs b names scope name m :=
  ⟨hab.nodeIds h.mem, h.own, by rw [hab.value? h.mem]; exact h.outer⟩

/-- A name that is given later does not change what names denoted before, even if it is one of
them. -/
theorem Denotes.insert (h : Denotes graphs a names scope name m) (hother : other ∉ scope)
    (hn : n ∉ a.nodeIds) : Denotes graphs a (names.insert other n) scope name m := by
  refine ⟨h.mem, ?_, h.outer⟩
  rw [OrderedMap.get?_insert]
  by_cases heq : name = other
  · have hne : n ≠ m := fun hnm => hn (hnm ▸ h.mem)
    rw [if_pos heq, heq]
    exact iff_of_false (by simpa using hne) hother
  · rw [if_neg heq]
    exact h.own

/-- Whether the node of a description, if it is an apply, has what its names denote as inputs. -/
def Links (graphs : GraphNames) (a : Arena) (names : OrderedMap String NodeId)
    (scope : List String) (x : NodeSpec) : Prop :=
  ∀ list, x.apply = some list → ∃ n inputs, names.get? x.name = some n ∧
    a.kind? n = some (.apply inputs) ∧ List.Forall₂ (Denotes graphs a names scope) list inputs

theorem Links.enlarged {x : NodeSpec} (h : Links graphs a names scope x) (hab : a.Enlarged b) :
    Links graphs b names scope x := fun list hlist => by
  obtain ⟨n, inputs, hn, hkind, hall⟩ := h list hlist
  exact ⟨n, inputs, hn, (hab.kind (Arena.mem_nodeIds_of_kind? hkind)).trans hkind,
    hall.imp fun _ _ hdenotes => hdenotes.enlarged hab⟩

theorem Links.insert {x : NodeSpec} (h : Links graphs a names scope x)
    (hnew : names.get? other = none) (hother : other ∉ scope) (hn : n ∉ a.nodeIds) :
    Links graphs a (names.insert other n) scope x := fun list hlist => by
  obtain ⟨k, inputs, hk, hkind, hall⟩ := h list hlist
  have hne : x.name ≠ other := fun heq => by simp [heq, hnew] at hk
  refine ⟨k, inputs, ?_, hkind, hall.imp fun _ _ hdenotes => hdenotes.insert hother hn⟩
  rw [OrderedMap.get?_insert, if_neg hne]
  exact hk

/-- Whether the names of a graph are those of its parameters and nodes, in this order, each of the
node that is declared under it, and applies use what their names denote where they stand. -/
structure Scoped (graphs : GraphNames) (a : Arena) (g : GraphId) (ps : List String)
    (xs : List NodeSpec) (names : OrderedMap String NodeId) : Prop where
  keys : names.keys = ps ++ xs.map NodeSpec.name
  declares : ∀ {name n}, names.get? name = some n → Declares graphs a g ps xs name n
  links : ∀ before x after, xs = before ++ x :: after →
    Links graphs a names (ps ++ before.map NodeSpec.name) x

theorem Scoped.enlarged {ps : List String} {xs : List NodeSpec}
    (h : Scoped graphs a g ps xs names) (hab : a.Enlarged b) : Scoped graphs b g ps xs names :=
  ⟨h.keys, fun hn => (h.declares hn).enlarged hab,
    fun before x after heq => (h.links before x after heq).enlarged hab⟩

/-! ### Steps of building a graph -/

namespace Draft

variable {d d' : Draft} {ps : List String} {xs : List NodeSpec} {t : Option Ty}

theorem keys_addParams {params : List (String × Option Ty)} (hok : d.addParams params = .ok d') :
    d'.names.keys = d.names.keys ++ params.map Prod.fst := by
  induction params generalizing d with
  | nil => simp [Except.ok.inj hok]
  | cons p params ih =>
    obtain ⟨name, t⟩ := p
    obtain ⟨hnew, hrest⟩ := addParams_cons_eq_ok hok
    rw [ih hrest, Draft.bind, OrderedMap.keys_insert, if_neg (OrderedMap.get?_eq_none_iff.mp hnew)]
    simp

/-- What a name of an apply is resolved to is what it denotes after the names given so far. -/
theorem Sound.denotes_resolve (h : d.Sound graphs ps xs)
    (hok : d.resolve graphs name = .ok (n, d')) :
    Denotes graphs d'.store.arena d.names d.names.keys name n := by
  obtain ⟨hn, rfl⟩ | ⟨hnone, v, hv, rfl, rfl⟩ := resolve_eq_ok hok
  · have hkey := OrderedMap.mem_keys_of_get? hn
    exact ⟨(h.declared hn).mem, iff_of_true hn hkey, fun hnot => absurd hkey hnot⟩
  · have hnode := d.store.arena.node?_addNode_self (.constant v) none v.type?
    refine ⟨(d.store.arena.mem_nodeIds_addNode ..).mpr (Or.inl rfl), ?_, fun _ => ⟨v, hv, ?_⟩⟩
    · exact iff_of_false (by simp [hnone]) (OrderedMap.get?_eq_none_iff.mp hnone)
    · exact Arena.value?_of_kind? (congrArg (Option.map Node.kind) hnode)

theorem Sound.denotes_resolveAll (h : d.Sound graphs ps xs) (hp : Placed graphs d.store.arena)
    {list : List String} {ns : List NodeId} (hok : d.resolveAll graphs list = .ok (ns, d')) :
    List.Forall₂ (Denotes graphs d'.store.arena d.names d.names.keys) list ns := by
  induction list generalizing d ns with
  | nil =>
    obtain ⟨rfl, -⟩ := Prod.mk.inj (Except.ok.inj hok)
    exact .nil
  | cons name list ih =>
    obtain ⟨n, d₁, ms, hone, hrest, rfl⟩ := resolveAll_cons_eq_ok hok
    have hadds := h.resolve hp hone
    have hp₁ := hadds.onto.placed hp
    have hall := ih hadds.sound hp₁ hrest
    rw [hadds.names] at hall
    exact .cons ((h.denotes_resolve hone).enlarged (hadds.sound.resolveAll hp₁ hrest).1.enlarged)
      hall

/-- An apply is made of what its names denote, and is itself none of it. -/
theorem Sound.denotes_addApply (h : d.Sound graphs ps xs) (hp : Placed graphs d.store.arena)
    {list : List String} (hok : d.addApply graphs name t list = .ok (n, d')) :
    ∃ a inputs, List.Forall₂ (Denotes graphs a d.names d.names.keys) list inputs ∧
      n ∉ a.nodeIds ∧ a.Enlarged d'.store.arena ∧
      d'.store.arena.kind? n = some (.apply inputs) := by
  obtain ⟨func, args, d₁, -, hall, -, rfl, rfl⟩ := addApply_eq_ok hok
  refine ⟨d₁.store.arena, func :: args, h.denotes_resolveAll hp hall,
    d₁.store.arena.not_mem_nodeIds_size, d₁.store.arena.enlarged_addNode _ _ _, ?_⟩
  exact congrArg (Option.map Node.kind) (Store.node?_apply d₁.store d₁.graph (func :: args) t)

/-- A node that is made and named leaves what is there scoped, and is itself so. -/
theorem Sound.scoped_addNode (h : d.Sound graphs ps xs)
    (hs : Scoped graphs d.store.arena d.graph ps xs d.names) (hp : Placed graphs d.store.arena)
    {x : NodeSpec} (ht : Covers graphs t) (hok : d.addNode graphs x t = .ok d') :
    Scoped graphs d'.store.arena d'.graph ps (xs ++ [x]) d'.names := by
  have hsound := (h.addNode hp ht hok).1
  have hnew := (Draft.addNode_eq_ok hok).1
  have hkey : x.name ∉ ps ++ xs.map NodeSpec.name := hs.keys ▸ OrderedMap.get?_eq_none_iff.mp hnew
  obtain ⟨n, d₁, hgives, rfl, happly⟩ := h.addNode_eq_ok hp ht hok
  have hnames : (d₁.bind x.name n).names = d.names.insert x.name n := by
    rw [Draft.bind, hgives.names]
  refine ⟨?_, hsound.declared, fun before y after heq => ?_⟩
  · rw [hnames, OrderedMap.keys_insert, if_neg (OrderedMap.get?_eq_none_iff.mp hnew), hs.keys]
    simp
  · rw [hnames]
    -- the node is the new one, after all others, or one of those before it
    rcases List.eq_nil_or_concat after with rfl | ⟨after, z, rfl⟩
    · obtain ⟨rfl, hxy⟩ := List.append_inj' heq rfl
      obtain rfl : x = y := by simpa using hxy
      intro list hlist
      obtain ⟨a, inputs, hall, hfresh, hab, hkind⟩ := h.denotes_addApply hp (happly list hlist)
      refine ⟨n, inputs, ?_, (Store.kind?_setLabel n).trans hkind, hall.imp fun _ _ hdenotes => ?_⟩
      · rw [OrderedMap.get?_insert, if_pos rfl]
      · rw [hs.keys] at hdenotes
        exact (hdenotes.insert hkey hfresh).enlarged (Store.enlarged_setLabel hab hfresh)
    · have hxs : xs = before ++ y :: after := by
        have hsnoc : xs ++ [x] = (before ++ y :: after) ++ [z] := by simpa using heq
        exact (List.append_inj' hsnoc rfl).1
      have hscope : x.name ∉ ps ++ before.map NodeSpec.name := by
        simp only [hxs, List.map_append, List.mem_append, not_or] at hkey ⊢
        exact ⟨hkey.1, hkey.2.1⟩
      exact ((hs.links before y after hxs).insert hnew hscope hgives.fresh).enlarged
        (Store.enlarged_setLabel hgives.enlarged hgives.fresh)

theorem Sound.scoped_addNodes (h : d.Sound graphs ps xs)
    (hs : Scoped graphs d.store.arena d.graph ps xs d.names) (hp : Placed graphs d.store.arena)
    {nodes : List (NodeSpec × Option Ty)} (ht : ∀ x ∈ nodes, Covers graphs x.2)
    (hok : d.addNodes graphs nodes = .ok d') :
    Scoped graphs d'.store.arena d'.graph ps (xs ++ nodes.map Prod.fst) d'.names := by
  induction nodes generalizing d xs with
  | nil =>
    obtain rfl := Except.ok.inj hok
    simpa using hs
  | cons y nodes ih =>
    obtain ⟨x, t⟩ := y
    unfold Draft.addNodes at hok
    split at hok
    · cases hok
    · next d₁ hone =>
      have hx := ht (x, t) List.mem_cons_self
      simpa using ih (h.addNode hp hx hone).1 (h.scoped_addNode hs hp hx hone)
        ((h.good.addNode hp hone).placed hp) (fun y hy => ht y (List.mem_cons_of_mem _ hy)) hok

end Draft

/-! ### Building graphs -/

theorem scoped_buildGraph {spec : GraphSpec} (h : s.Loaded) (hp : Placed graphs s.arena)
    (hg : g ∈ s.arena.graphIds) (hret : s.arena.ret? g = none)
    (hf : s.arena.Formed (Given graphs)) (hok : buildGraph graphs s g spec = .ok s') :
    ∃ names, Scoped graphs s'.arena g (spec.params.map ParamSpec.name) spec.nodes names := by
  obtain ⟨params, nodes, d₁, d₂, n, hb, hn, rfl⟩ := sound_buildGraph h hp hg hret hf hok
  have hkeys : d₁.names.keys = spec.params.map ParamSpec.name := by
    rw [Draft.keys_addParams hb.params, hb.params_fst]
    rfl
  have hs₁ : Scoped graphs d₁.store.arena d₁.graph (spec.params.map ParamSpec.name) [] d₁.names :=
    ⟨by simpa using hkeys, hb.sound_params.declared, fun before x after heq => by simp at heq⟩
  have hs₂ := hb.sound_params.scoped_addNodes hs₁ hb.placed hb.covers hb.nodes
  rw [List.nil_append, hb.nodes_fst, hb.graph] at hs₂
  obtain ⟨-, hab, -⟩ := addReturn_spec hb.graph_mem (hb.sound.declared hn).mem
    hb.sound.good.loaded.wellFormed hb.sound.formed
  exact ⟨d₂.names, hs₂.enlarged hab⟩

theorem scoped_buildGraphs {todo : List (GraphSpec × GraphId)} (h : s.Loaded)
    (hp : Placed graphs s.arena) (hnodup : (todo.map Prod.snd).Nodup)
    (hg : ∀ x ∈ todo, x.2 ∈ s.arena.graphIds ∧ s.arena.ret? x.2 = none)
    (hf : s.arena.Formed (Given graphs)) (hok : buildGraphs graphs s todo = .ok s') :
    ∀ x ∈ todo, ∃ names,
      Scoped graphs s'.arena x.2 (x.1.params.map ParamSpec.name) x.1.nodes names := by
  induction todo generalizing s with
  | nil => exact fun x hx => absurd hx List.not_mem_nil
  | cons x todo ih =>
    obtain ⟨spec, g⟩ := x
    obtain ⟨hnot, hnodup⟩ := List.nodup_cons.mp hnodup
    obtain ⟨hmem, hnone⟩ := hg _ List.mem_cons_self
    unfold buildGraphs at hok
    split at hok
    · cases hok
    · next s₁ hone =>
      obtain ⟨h₁, hids, hret⟩ := loaded_buildGraph h hp hmem hnone hone
      obtain ⟨hf₁, -, -⟩ := formed_buildGraph h hp hmem hnone hf hone
      have hp₁ : Placed graphs s₁.arena := fun name k hk => (hids k).mpr (hp name k hk)
      have hrest := unbuilt_rest hg hnot hids hret
      -- the graphs that are built after this one only enlarge the arena
      obtain ⟨-, hab, -⟩ := formed_buildGraphs h₁ hp₁ hnodup hrest hf₁ hok
      intro y hy
      rcases List.mem_cons.mp hy with rfl | hy
      · obtain ⟨names, hnames⟩ := scoped_buildGraph h hp hmem hnone hf hone
        exact ⟨names, hnames.enlarged hab⟩
      · exact ih h₁ hp₁ hnodup hrest hf₁ hok y hy

/-- In an accepted program, the names of a graph are those of its parameters and nodes, each of the
node that is declared under it. In an apply a name denotes the node of the graph that has it if this
node stands before the apply, and only then; every other name denotes a constant, the graph of that
name or, if there is none, the operation. -/
theorem denotes_build {spec : Spec} {p : Program} (hok : build spec = .ok p) :
    ∃ graphs : GraphNames, graphs.keys = spec.graphs.map GraphSpec.name ∧
      graphs.entries.map Prod.snd = p.graphs ∧
      ∀ x g, (x, g) ∈ spec.graphs.zip p.graphs → ∃ names : OrderedMap String NodeId,
        names.keys = x.params.map ParamSpec.name ++ x.nodes.map NodeSpec.name ∧
        (∀ name n, names.get? name = some n →
          Declares graphs p.store.arena g (x.params.map ParamSpec.name) x.nodes name n) ∧
        ∀ before y after list, x.nodes = before ++ y :: after → y.apply = some list →
          ∃ n inputs, names.get? y.name = some n ∧
            p.store.arena.kind? n = some (.apply inputs) ∧
            List.Forall₂ (Denotes graphs p.store.arena names
              (x.params.map ParamSpec.name ++ before.map NodeSpec.name)) list inputs := by
  obtain ⟨s₀, graphs, first, others, s, root, hadd, hgraphs, hbuilt, hroot, rfl⟩ := build_eq_ok hok
  have hnamed := named_empty.addGraphs hadd
  have hlisted := listed_empty.addGraphs hadd
  obtain ⟨hnodup, hg⟩ := hnamed.zip hgraphs spec.graphs
  have hall := scoped_buildGraphs hnamed.loaded hnamed.placed hnodup hg
    (Arena.formed_of_nodeIds_eq_nil hlisted.nodeIds) hbuilt
  refine ⟨graphs, by simpa using hlisted.keys, hgraphs, fun x g hx => ?_⟩
  obtain ⟨names, hnames⟩ := hall (x, g) hx
  exact ⟨names, hnames.keys, fun name n hn => hnames.declares hn,
    fun before y after list heq hlist => hnames.links before y after heq list hlist⟩

/-- A graph with a node that has the name of an operation, between an apply that uses the operation
and one that uses the node. -/
def negBetween : Spec :=
  ⟨none, [⟨"main", [⟨"x", some (.name "i64")⟩], [
    ⟨"sum", none, some ["add", "x", "neg"], some (.name "i64")⟩,
    ⟨"neg", some (.number (.whole 5)), none, none⟩,
    ⟨"out", none, some ["make_tuple", "sum", "neg"],
      some (.tuple [.name "i64", .name "i64"])⟩], "out"⟩]⟩

theorem denotes_build_negBetween : ∃ p, build negBetween = .ok p ∧
    ∃ n f m k, p.store.arena.label? n = some "out" ∧
      p.store.arena.kind? n = some (.apply [f, m, k]) ∧
      p.store.arena.value? f = some (.prim .makeTuple) ∧ p.store.arena.label? m = some "sum" ∧
      p.store.arena.label? k = some "neg" := by
  obtain ⟨p, hp, hgraphs⟩ : ∃ p, build negBetween = .ok p ∧ p.graphs = [⟨0⟩] := by
    have hok : (match build negBetween with
      | .ok p => some p.graphs
      | .error _ => none) = some [⟨0⟩] := by cbv
    cases hbuild : build negBetween with
    | ok p => exact ⟨p, rfl, by simpa [hbuild] using hok⟩
    | error e => simp [hbuild] at hok
  obtain ⟨graphs, hkeys, -, hall⟩ := denotes_build hp
  obtain ⟨names, -, hdeclares, hlinks⟩ := hall _ ⟨0⟩ (by
    rw [hgraphs]
    exact List.mem_singleton_self _)
  obtain ⟨n, inputs, hn, hkind, hdenotes⟩ := hlinks
    [⟨"sum", none, some ["add", "x", "neg"], some (.name "i64")⟩,
      ⟨"neg", some (.number (.whole 5)), none, none⟩] _ [] _ rfl rfl
  obtain _ | ⟨hf, hdenotes⟩ := hdenotes
  obtain _ | ⟨hm, hdenotes⟩ := hdenotes
  obtain _ | ⟨hk, hdenotes⟩ := hdenotes
  cases hdenotes
  refine ⟨p, hp, n, _, _, _, (hdeclares _ _ hn).label, hkind, ?_,
    (hdeclares _ _ (hm.own.mpr (by simp))).label, (hdeclares _ _ (hk.own.mpr (by simp))).label⟩
  obtain ⟨v, hv, hvalue⟩ := hf.outer (by simp)
  have hnone : graphs.get? "make_tuple" = none :=
    OrderedMap.get?_eq_none_iff.mpr (by simp [hkeys, negBetween])
  rw [outer?, hnone] at hv
  exact hvalue.trans (hv.symm.trans (by decide))

/-- The node comes too late for the apply before it, which negates nothing and adds the operation
itself. -/
theorem neg_operation_build_negBetween : ∃ p, build negBetween = .ok p ∧
    ∃ n f m k l, p.store.arena.label? n = some "sum" ∧ p.store.arena.inputs n = [f, m, k] ∧
      p.store.arena.label? l = some "neg" ∧ k ≠ l ∧
      p.store.arena.value? k = some (.prim .neg) ∧ p.store.arena.value? l = some (.int 5) := by
  have hok : (match build negBetween with
    | .ok p => some (p.store.arena.label? ⟨3⟩, p.store.arena.inputs ⟨3⟩, p.store.arena.label? ⟨4⟩,
        p.store.arena.value? ⟨2⟩, p.store.arena.value? ⟨4⟩)
    | .error _ => none) =
      some (some "sum", [⟨1⟩, ⟨0⟩, ⟨2⟩], some "neg", some (.prim .neg), some (.int 5)) := by cbv
  cases hbuild : build negBetween with
  | ok p =>
    simp only [hbuild, Option.some.injEq, Prod.mk.injEq] at hok
    obtain ⟨hsum, hinputs, hneg, hk, hl⟩ := hok
    exact ⟨p, rfl, ⟨3⟩, ⟨1⟩, ⟨0⟩, ⟨2⟩, ⟨4⟩, hsum, hinputs, hneg, by simp, hk, hl⟩
  | error e => simp [hbuild] at hok

end Program

end Midend
