import Midend.Program
import Midend.Proofs.Arena.Refitted
import Midend.Proofs.OrderedMap
import Midend.Proofs.Store.Built

/-!
# Loaded programs

While a program is loaded nodes are only added, and a node uses nodes of its own graph and
constants. The output of each graph is set once, over an apply of the return operation.
-/

namespace Midend

namespace Arena

variable {a b c : Arena} {n m : NodeId} {g : GraphId}

/-- Whether `b` has the nodes of `a`, and perhaps others too. -/
structure Grown (a b : Arena) : Prop where
  nodeIds : ∀ {n}, n ∈ a.nodeIds → n ∈ b.nodeIds
  kind : ∀ {n}, n ∈ a.nodeIds → b.kind? n = a.kind? n
  owner : ∀ {n}, n ∈ a.nodeIds → b.owner? n = a.owner? n

theorem Grown.refl (a : Arena) : a.Grown a := ⟨id, fun _ => rfl, fun _ => rfl⟩

theorem Grown.trans (h : a.Grown b) (h' : b.Grown c) : a.Grown c :=
  ⟨fun hn => h'.nodeIds (h.nodeIds hn), fun hn => (h'.kind (h.nodeIds hn)).trans (h.kind hn),
    fun hn => (h'.owner (h.nodeIds hn)).trans (h.owner hn)⟩

theorem grown_addNode (a : Arena) (k : NodeKind) (o : Option GraphId) (t : Option Ty) :
    a.Grown (a.addNode k o t).2 :=
  ⟨fun hn => (a.mem_nodeIds_addNode k o t).mpr (Or.inr hn),
    fun hn => kind?_congr (a.node?_addNode_of_mem k o t hn),
    fun hn => owner?_congr (a.node?_addNode_of_mem k o t hn)⟩

theorem Grown.inputs (h : a.Grown b) (hn : n ∈ a.nodeIds) : b.inputs n = a.inputs n := by
  simp only [Arena.inputs, h.kind hn]

theorem Grown.value? (h : a.Grown b) (hn : n ∈ a.nodeIds) : b.value? n = a.value? n := by
  simp only [Arena.value?, h.kind hn]

theorem Grown.applied? (h : a.Grown b) (hwf : a.WellFormed) (hn : n ∈ a.nodeIds) :
    b.applied? n = a.applied? n := by
  simp only [Arena.applied?, h.inputs hn]
  cases hf : (a.inputs n).head? with
  | none => rfl
  | some f => simp only [Option.bind_some, h.value? (hwf.input_mem (List.mem_of_mem_head? hf))]

/-- What loading keeps to: the rules of ownership hold, return nodes return, and there are no
placeholders. -/
structure Tidy (a : Arena) : Prop where
  owned : a.Owned
  returns : ∀ {g r}, a.ret? g = some r → a.applied? r = some .ret
  undead : ∀ n, a.value? n ≠ some .dead

theorem tidy_empty : Arena.empty.Tidy :=
  ⟨⟨fun hm => by simp [inputs, kind?, node?, Arena.empty] at hm,
      fun hn => by simp [nodeIds, Arena.empty] at hn⟩,
    fun hr => by simp [ret?, graph?, Arena.empty] at hr,
    fun n => by simp [value?, kind?, node?, Arena.empty]⟩

/-- It is enough to look at the nodes and return nodes that are new. -/
theorem Tidy.grown (h : a.Tidy) (hwf : a.WellFormed) (hgrown : a.Grown b)
    (hnew : ∀ n ∈ b.nodeIds, n ∉ a.nodeIds → b.value? n ≠ some .dead ∧
      (∀ m ∈ b.inputs n, b.owner? m = b.owner? n ∨ b.owner? m = none) ∧
      (b.owner? n = none ↔ ∃ v, b.value? n = some v))
    (hret : ∀ g r, b.ret? g = some r → a.ret? g = some r ∨ b.applied? r = some .ret) : b.Tidy := by
  refine ⟨⟨fun {n m} hm => ?_, fun {n} hn => ?_⟩, fun {g r} hr => ?_, fun n hv => ?_⟩
  · by_cases hn : n ∈ a.nodeIds
    · rw [hgrown.inputs hn] at hm
      rw [hgrown.owner hn, hgrown.owner (hwf.input_mem hm)]
      exact h.owned.input hm
    · exact (hnew n (mem_nodeIds_of_mem_inputs hm) hn).2.1 m hm
  · by_cases hold : n ∈ a.nodeIds
    · rw [hgrown.owner hold, hgrown.value? hold]
      exact h.owned.free_iff hold
    · exact (hnew n hn hold).2.2
  · rcases hret g r hr with hr | hr
    · rw [hgrown.applied? hwf (hwf.ret_mem hr)]
      exact h.returns hr
    · exact hr
  · by_cases hn : n ∈ a.nodeIds
    · exact h.undead n ((hgrown.value? hn).symm.trans hv)
    · exact (hnew n (mem_nodeIds_of_value? hv) hn).1 hv

/-- Whether `n` is in the arena and may be used by the nodes of `g`. -/
def Usable (a : Arena) (g : GraphId) (n : NodeId) : Prop :=
  n ∈ a.nodeIds ∧ (a.owner? n = some g ∨ a.owner? n = none)

theorem Usable.grown (h : a.Usable g n) (hgrown : a.Grown b) : b.Usable g n :=
  ⟨hgrown.nodeIds h.1, by rw [hgrown.owner h.1]; exact h.2⟩

variable {k : NodeKind} {o : Option GraphId} {t : Option Ty}

theorem node?_addNode_self (a : Arena) (k : NodeKind) (o : Option GraphId) (t : Option Ty) :
    (a.addNode k o t).2.node? ⟨a.nodes.size⟩ = some ⟨k, o, t, none⟩ :=
  (a.node?_addNode k o t _).trans (if_pos rfl)

theorem usable_addNode (a : Arena) (k : NodeKind) (t : Option Ty) (ho : o = some g ∨ o = none) :
    (a.addNode k o t).2.Usable g (a.addNode k o t).1 :=
  ⟨(a.mem_nodeIds_addNode k o t).mpr (Or.inl rfl), by
    rw [show (a.addNode k o t).1 = ⟨a.nodes.size⟩ from rfl, owner?, node?_addNode_self]
    exact ho⟩

theorem Tidy.addNode (h : a.Tidy) (hwf : a.WellFormed) (hk : k ≠ .constant .dead)
    (ho : o = none ↔ ∃ v, k = .constant v)
    (hin : ∀ m ∈ k.inputs, m ∈ a.nodeIds ∧ (a.owner? m = o ∨ a.owner? m = none)) :
    (a.addNode k o t).2.Tidy := by
  have hgrown := a.grown_addNode k o t
  refine h.grown hwf hgrown (fun n hn hold => ?_) fun _ _ hr => Or.inl hr
  obtain rfl := ((a.mem_nodeIds_addNode k o t).mp hn).resolve_right hold
  have hkind : (a.addNode k o t).2.kind? ⟨a.nodes.size⟩ = some k := by
    rw [kind?, node?_addNode_self, Option.map_some]
  have howner : (a.addNode k o t).2.owner? ⟨a.nodes.size⟩ = o := by
    rw [owner?, node?_addNode_self, Option.bind_some]
  refine ⟨fun hv => ?_, fun m hm => ?_, ?_⟩
  · rw [kind?_of_value? hv, Option.some.injEq] at hkind
    exact hk hkind.symm
  · rw [Arena.inputs, hkind] at hm
    obtain ⟨hmem, hm⟩ := hin m hm
    rw [howner, hgrown.owner hmem]
    exact hm
  · rw [howner, ho]
    exact exists_congr fun v => ⟨fun hv => value?_of_kind? (hv ▸ hkind), fun hv =>
      Option.some.inj (hkind.symm.trans (kind?_of_value? hv))⟩

end Arena

namespace Store

variable {s : Store} {g : GraphId} {n : NodeId} {v : Value}

/-- What holds of a store that programs are loaded into: nothing is live. -/
structure Loaded (s : Store) : Prop where
  reached : s.ReachedAcyclic
  tidy : s.arena.Tidy
  live : s.live = .empty
  roots : s.roots = .empty

theorem loaded_empty : Store.empty.Loaded := ⟨.start, Arena.tidy_empty, rfl, rfl⟩

theorem Loaded.wellFormed (h : s.Loaded) : s.arena.WellFormed := h.reached.settled.wellFormed

theorem Loaded.not_mem_graphs (h : s.Loaded) (g : GraphId) : g ∉ s.live.graphs := by
  rw [h.live]
  exact OrderedSet.not_mem_empty g

/-- A further anchor of a graph that is not live is only written down. -/
theorem Loaded.of_acquireIn {s₁ : Store} (hreached : (s₁.acquireIn g n).ReachedAcyclic)
    (h : s.Loaded) (hlive : s₁.live = s.live) (hroots : s₁.roots = s.roots)
    (htidy : s₁.arena.Tidy) :
    (s₁.acquireIn g n).Loaded := by
  have heq : s₁.acquireIn g n = s₁ := if_neg (hlive ▸ h.not_mem_graphs g)
  rw [heq] at hreached ⊢
  exact ⟨hreached, htidy, hlive.trans h.live, hroots.trans h.roots⟩

theorem Loaded.newGraph (h : s.Loaded) (name : String) : (s.newGraph name).2.Loaded := by
  have howned : (s.newGraph name).2.arena.Owned := ⟨h.tidy.owned.input, h.tidy.owned.free_iff⟩
  refine ⟨h.reached.newGraph name, ⟨howned, fun {g r} hr => ?_, h.tidy.undead⟩, h.live, h.roots⟩
  refine h.tidy.returns (g := g) ?_
  by_cases hg : g = ⟨s.arena.graphs.size⟩
  · simp [Store.newGraph, Arena.ret?, Arena.graph?_addGraph, hg] at hr
  · simpa only [Store.newGraph, Arena.ret?, Arena.graph?_addGraph, if_neg hg] using hr

theorem Loaded.constantWith (h : s.Loaded) (hdead : v ≠ .dead)
    (hv : ∀ g, v = .graph g → g ∈ s.arena.graphIds) (t : Option Ty) :
    (s.constantWith v t).2.Loaded :=
  ⟨h.reached.constantWith hv t, h.tidy.addNode h.wellFormed (by simpa using hdead) (by simp)
    fun m hm => absurd hm List.not_mem_nil, h.live, h.roots⟩

theorem Loaded.apply {inputs : List NodeId} (h : s.Loaded) (hg : g ∈ s.arena.graphIds)
    (hin : ∀ m ∈ inputs, s.arena.Usable g m) (t : Option Ty) : (s.apply g inputs t).2.Loaded :=
  ⟨h.reached.apply hg (fun m hm => (hin m hm).1) t,
    h.tidy.addNode h.wellFormed (by simp) (by simp) hin, h.live, h.roots⟩

theorem grown_setLabel (s : Store) (n : NodeId) (label : String) :
    s.arena.Grown (s.setLabel n label).arena := by
  refine ⟨(s.arena.mem_nodeIds_modifyNode n _).mpr, fun {m} _ => ?_, fun {m} _ => ?_⟩
  · simp only [Store.setLabel, Arena.kind?, Arena.node?_modifyNode]
    split
    · simp [Function.comp_def]
    · rfl
  · simp only [Store.setLabel, Arena.owner?, Arena.node?_modifyNode]
    split
    · rw [Option.bind_map]
      rfl
    · rfl

theorem Loaded.setLabel (h : s.Loaded) (n : NodeId) (label : String) :
    (s.setLabel n label).Loaded :=
  ⟨h.reached.setLabel n label, h.tidy.grown h.wellFormed (s.grown_setLabel n label)
    (fun _ hm hold => absurd ((s.arena.mem_nodeIds_modifyNode n _).mp hm) hold)
    (fun _ _ hr => Or.inl hr), h.live, h.roots⟩

theorem arena_addParameter (s : Store) (g : GraphId) (t : Option Ty) :
    (s.addParameter g t).2.arena = (s.arena.addNode .parameter (some g) t).2.modifyGraph g
      (fun d => { d with parameters := d.parameters ++ [⟨s.arena.nodes.size⟩] }) :=
  arena_acquireIn _ g _

theorem grown_addParameter (s : Store) (g : GraphId) (t : Option Ty) :
    s.arena.Grown (s.addParameter g t).2.arena := by
  have hgrown := s.arena.grown_addNode .parameter (some g) t
  rw [arena_addParameter]
  exact ⟨hgrown.nodeIds, hgrown.kind, hgrown.owner⟩

theorem ret?_addParameter (s : Store) (g : GraphId) (t : Option Ty) (k : GraphId) :
    (s.addParameter g t).2.arena.ret? k = s.arena.ret? k := by
  rw [arena_addParameter]
  simp only [Arena.ret?, Arena.graph?_modifyGraph, Arena.graph?_addNode]
  split
  · rw [Option.bind_map]
    rfl
  · rfl

theorem graphIds_addParameter (s : Store) (g : GraphId) (t : Option Ty) (k : GraphId) :
    k ∈ (s.addParameter g t).2.arena.graphIds ↔ k ∈ s.arena.graphIds := by
  rw [arena_addParameter]
  exact Arena.mem_graphIds_modifyGraph _ g _

theorem Loaded.addParameter (h : s.Loaded) (hg : g ∈ s.arena.graphIds) (t : Option Ty) :
    (s.addParameter g t).2.Loaded := by
  have hadd : (s.arena.addNode .parameter (some g) t).2.Tidy :=
    h.tidy.addNode h.wellFormed (by simp) (by simp) fun m hm => absurd hm List.not_mem_nil
  refine Loaded.of_acquireIn (h.reached.addParameter hg t) h rfl rfl
    ⟨⟨hadd.owned.input, hadd.owned.free_iff⟩, fun {k r} hr => hadd.returns (g := k) ?_, hadd.undead⟩
  exact (ret?_addParameter s g t k).symm.trans ((congrArg (Arena.ret? · k)
    (arena_addParameter s g t)).trans hr)

/-- The first output of a graph is returned by an apply of the return operation. -/
theorem Loaded.addReturn (h : s.Loaded) (hg : g ∈ s.arena.graphIds) (hn : s.arena.Usable g n)
    (hret : s.arena.ret? g = none) : (s.addReturn g n).Loaded := by
  have hc : (s.constant (.prim .ret)).2.Loaded := h.constantWith (by simp) (by simp) _
  have hgrown : s.arena.Grown (s.constant (.prim .ret)).2.arena := s.arena.grown_addNode _ none _
  have hin : ∀ m ∈ [(s.constant (.prim .ret)).1, n],
      (s.constant (.prim .ret)).2.arena.Usable g m := by
    intro m hm
    rcases List.mem_cons.mp hm with rfl | hm
    · exact Arena.usable_addNode _ _ _ (Or.inr rfl)
    · exact List.mem_singleton.mp hm ▸ hn.grown hgrown
  have ha := hc.apply hg hin (s.arena.type? n)
  have happ : ((s.constant (.prim .ret)).2.apply g [(s.constant (.prim .ret)).1, n]
      (s.arena.type? n)).2.arena.applied? ((s.constant (.prim .ret)).2.apply g
        [(s.constant (.prim .ret)).1, n] (s.arena.type? n)).1 = some .ret := by
    refine Arena.applied?_eq_some_iff.mpr
      ⟨(s.constant (.prim .ret)).1, by rw [inputs_apply]; rfl, ?_⟩
    refine (((s.constant (.prim .ret)).2.arena.grown_addNode _ _ _).value?
      (hin _ List.mem_cons_self).1).trans (Arena.value?_of_kind? ?_)
    exact congrArg (Option.map Node.kind)
      (s.arena.node?_addNode_self (.constant (.prim .ret)) none _)
  refine Loaded.of_acquireIn (h.reached.addReturn g n hg hn.1 hret) h rfl rfl
    ⟨⟨ha.tidy.owned.input, ha.tidy.owned.free_iff⟩, fun {k r} hr => ?_, ha.tidy.undead⟩
  rw [Arena.ret?, Arena.graph?_modifyGraph] at hr
  split at hr
  · obtain ⟨d, -, hd⟩ := Option.bind_eq_some_iff.mp ((Option.bind_map ..).symm.trans hr)
    exact Option.some.inj hd ▸ happ
  · exact ha.tidy.returns (g := k) hr

theorem graphIds_addReturn (s : Store) (g : GraphId) (n : NodeId) (k : GraphId) :
    k ∈ (s.addReturn g n).arena.graphIds ↔ k ∈ s.arena.graphIds := by
  rw [Store.addReturn, arena_acquireIn]
  exact Arena.mem_graphIds_modifyGraph _ g _

theorem ret?_addReturn_of_ne {k : GraphId} (hk : k ≠ g) :
    (s.addReturn g n).arena.ret? k = s.arena.ret? k := by
  rw [Store.addReturn, arena_acquireIn, Arena.ret?, Arena.graph?_modifyGraph, if_neg hk]
  rfl

end Store

/-! ### Building one graph -/

namespace Program

variable {graphs : GraphNames} {s s' : Store} {g : GraphId}

/-- Whether the graphs that have names are in the arena. -/
def Placed (graphs : GraphNames) (a : Arena) : Prop :=
  ∀ name g, graphs.get? name = some g → g ∈ a.graphIds

/-- A described constant is no placeholder, and names only graphs that have names. -/
theorem constantOf_eq_ok {v : Json} {x : Value} (h : constantOf graphs v = .ok x) :
    x ≠ .dead ∧ ∀ g, x = .graph g → ∃ name, graphs.get? name = some g := by
  unfold constantOf at h
  split at h
  · obtain rfl := (Except.ok.inj h).symm
    simp
  · obtain rfl := (Except.ok.inj h).symm
    split <;> simp
  · obtain rfl := (Except.ok.inj h).symm
    simp
  · obtain rfl := (Except.ok.inj h).symm
    simp
  · unfold taggedConstant at h
    split at h
    · obtain rfl := (Except.ok.inj h).symm
      simp
    · obtain rfl := (Except.ok.inj h).symm
      simp
    · obtain rfl := (Except.ok.inj h).symm
      simp
    · split at h
      · next name g hg =>
        obtain rfl := (Except.ok.inj h).symm
        exact ⟨by simp, fun g' hg' => ⟨_, Value.graph.inj hg' ▸ hg⟩⟩
      · cases h
    · split at h
      · obtain rfl := (Except.ok.inj h).symm
        simp
      · cases h
    · cases h
  · cases h

/-- The constant that a name means which no node of the graph has: the graph of that name, or else
the operation. -/
def outer? (graphs : GraphNames) (name : String) : Option Value :=
  match graphs.get? name with
  | some g => some (.graph g)
  | none => (Prim.ofName? name).map .prim

theorem outer?_spec {name : String} {v : Value} (h : outer? graphs name = some v) :
    v ≠ .dead ∧ ∀ g, v = .graph g → graphs.get? name = some g := by
  unfold outer? at h
  split at h
  · next g hg =>
    obtain rfl := Option.some.inj h
    exact ⟨by simp, fun g' hg' => Value.graph.inj hg' ▸ hg⟩
  · obtain ⟨p, -, rfl⟩ := Option.map_eq_some_iff.mp h
    exact ⟨by simp, by simp⟩

namespace Draft

variable {d d' d'' : Draft} {name : String} {n : NodeId}

/-! What the steps do when they succeed. -/

theorem checkNew_eq_ok {u : Unit} (hok : d.checkNew name = .ok u) : d.names.get? name = none := by
  unfold checkNew at hok
  split at hok
  · cases hok
  · next hnew => simpa using hnew

theorem addParams_cons_eq_ok {t : Option Ty} {params : List (String × Option Ty)}
    (hok : d.addParams ((name, t) :: params) = .ok d') :
    d.names.get? name = none ∧
      ({ d with store := (d.store.addParameter d.graph t).2 }.bind name
        (d.store.addParameter d.graph t).1).addParams params = .ok d' := by
  unfold addParams at hok
  split at hok
  · cases hok
  · next hnew => exact ⟨checkNew_eq_ok hnew, hok⟩

theorem resolve_eq_ok (hok : d.resolve graphs name = .ok (n, d')) :
    d.names.get? name = some n ∧ d' = d ∨
      d.names.get? name = none ∧ ∃ v, outer? graphs name = some v ∧ n = (d.store.constant v).1 ∧
        d' = { d with store := (d.store.constant v).2 } := by
  unfold resolve at hok
  split at hok
  · next m hm =>
    obtain ⟨rfl, rfl⟩ := Prod.mk.inj (Except.ok.inj hok)
    exact Or.inl ⟨hm, rfl⟩
  · next hnone =>
    simp only at hok
    split at hok
    · cases hok
    · next v hv =>
      obtain ⟨rfl, rfl⟩ := Prod.mk.inj (Except.ok.inj hok)
      exact Or.inr ⟨hnone, v, hv, rfl, rfl⟩

theorem resolveAll_cons_eq_ok {names : List String} {ns : List NodeId}
    (hok : d.resolveAll graphs (name :: names) = .ok (ns, d')) :
    ∃ n d₁ ms, d.resolve graphs name = .ok (n, d₁) ∧ d₁.resolveAll graphs names = .ok (ms, d') ∧
      ns = n :: ms := by
  unfold resolveAll at hok
  split at hok
  · cases hok
  · next n d₁ hone =>
    cases hrest : d₁.resolveAll graphs names with
    | error e => simp [hrest, Except.map] at hok
    | ok r =>
      obtain ⟨ms, d₂⟩ := r
      simp only [hrest, Except.map, Except.ok.injEq, Prod.mk.injEq] at hok
      obtain ⟨rfl, rfl⟩ := hok
      exact ⟨n, d₁, ms, hone, hrest, rfl⟩

/-- An apply is made of what all its names mean, the function among them. -/
theorem addApply_eq_ok {names : List String} {t : Option Ty}
    (hok : d.addApply graphs name t names = .ok (n, d')) :
    ∃ func args d₁ funcName, d.resolveAll graphs names = .ok (func :: args, d₁) ∧
      d₁.checkCall name funcName func args.length = .ok () ∧
      n = (d₁.store.call d₁.graph func args t).1 ∧
      d' = { d₁ with store := (d₁.store.call d₁.graph func args t).2 } := by
  cases names with
  | nil => cases hok
  | cons funcName argNames =>
    rw [addApply] at hok
    split at hok
    · cases hok
    · next func d₁ hfunc =>
      split at hok
      · cases hok
      · next args d₂ hargs =>
        split at hok
        · cases hok
        · next hcheck =>
          obtain ⟨rfl, rfl⟩ := Prod.mk.inj (Except.ok.inj hok)
          refine ⟨func, args, d₂, funcName, ?_, hcheck, rfl, rfl⟩
          simp only [resolveAll, hfunc, hargs, Except.map]

/-- A node is made in one of the two forms, and gets a name that is new. -/
theorem addNode_eq_ok {x : NodeSpec} {t : Option Ty} (hok : d.addNode graphs x t = .ok d') :
    d.names.get? x.name = none ∧ ∃ n d₁, d' = d₁.bind x.name n ∧
      ((∃ v, x.constant = some v ∧ x.apply = none ∧
          d.addConstant graphs x.name t v = .ok (n, d₁)) ∨
        ∃ names, x.constant = none ∧ x.apply = some names ∧
          d.addApply graphs x.name t names = .ok (n, d₁)) := by
  unfold addNode at hok
  split at hok
  · cases hok
  · next hnew =>
    refine ⟨checkNew_eq_ok hnew, ?_⟩
    simp only at hok
    split at hok
    · next v hconst happly =>
      cases hmade : d.addConstant graphs x.name t v with
      | error e => simp [hmade, Except.map] at hok
      | ok r =>
        rw [hmade] at hok
        exact ⟨r.1, r.2, (Except.ok.inj hok).symm, Or.inl ⟨v, hconst, happly, hmade⟩⟩
    · next names hconst happly =>
      cases hmade : d.addApply graphs x.name t names with
      | error e => simp [hmade, Except.map] at hok
      | ok r =>
        rw [hmade] at hok
        exact ⟨r.1, r.2, (Except.ok.inj hok).symm, Or.inr ⟨names, hconst, happly, hmade⟩⟩
    · cases hok

/-- What holds of a graph under construction: its names mean nodes that it may use. -/
structure Good (d : Draft) : Prop where
  loaded : d.store.Loaded
  graph_mem : d.graph ∈ d.store.arena.graphIds
  usable : ∀ {name n}, d.names.get? name = some n → d.store.arena.Usable d.graph n

/-- What is kept from one graph under construction to a later state of it. -/
structure Onto (d d' : Draft) : Prop where
  good : d'.Good
  graph : d'.graph = d.graph
  grown : d.store.arena.Grown d'.store.arena
  graphIds : ∀ g, g ∈ d'.store.arena.graphIds ↔ g ∈ d.store.arena.graphIds
  ret : ∀ g, d'.store.arena.ret? g = d.store.arena.ret? g

theorem Good.onto (h : d.Good) : d.Onto d :=
  ⟨h, rfl, .refl _, fun _ => Iff.rfl, fun _ => rfl⟩

theorem Onto.trans (h : d.Onto d') (h' : d'.Onto d'') : d.Onto d'' :=
  ⟨h'.good, h'.graph.trans h.graph, h.grown.trans h'.grown,
    fun g => (h'.graphIds g).trans (h.graphIds g), fun g => (h'.ret g).trans (h.ret g)⟩

theorem Onto.placed (h : d.Onto d') (hp : Placed graphs d.store.arena) :
    Placed graphs d'.store.arena := fun name g hg => (h.graphIds g).mpr (hp name g hg)

theorem Onto.usable (h : d.Onto d') (hn : d.store.arena.Usable d.graph n) :
    d'.store.arena.Usable d'.graph n := by
  rw [h.graph]
  exact hn.grown h.grown

/-- The store may be extended by nodes. -/
theorem Good.withStore (h : d.Good) (hs : s.Loaded) (hgrown : d.store.arena.Grown s.arena)
    (hids : ∀ g, g ∈ s.arena.graphIds ↔ g ∈ d.store.arena.graphIds)
    (hret : ∀ g, s.arena.ret? g = d.store.arena.ret? g) : d.Onto { d with store := s } :=
  ⟨⟨hs, (hids d.graph).mpr h.graph_mem, fun hn => (h.usable hn).grown hgrown⟩, rfl, hgrown, hids,
    hret⟩

theorem Good.newNode (h : d.Good) {k : NodeKind} {o : Option GraphId} {t : Option Ty}
    (hs : (d.store.newNode k o t).2.Loaded) (ho : o = some d.graph ∨ o = none) :
    d.Onto { d with store := (d.store.newNode k o t).2 } ∧
      (d.store.newNode k o t).2.arena.Usable d.graph (d.store.newNode k o t).1 :=
  ⟨h.withStore hs (d.store.arena.grown_addNode k o t) (fun _ => Iff.rfl) fun _ => rfl,
    d.store.arena.usable_addNode k t ho⟩

theorem Good.bind (h : d.Good) (hn : d.store.arena.Usable d.graph n) (name : String) :
    d.Onto (d.bind name n) := by
  have hgrown := d.store.grown_setLabel n name
  refine ⟨⟨h.loaded.setLabel n name, h.graph_mem, fun {name' m} hm => ?_⟩, rfl, hgrown,
    fun _ => Iff.rfl, fun _ => rfl⟩
  rw [Draft.bind, OrderedMap.get?_insert] at hm
  split at hm
  · exact Option.some.inj hm ▸ hn.grown hgrown
  · exact (h.usable hm).grown hgrown

theorem Good.addParams (h : d.Good) {params : List (String × Option Ty)}
    (hok : d.addParams params = .ok d') : d.Onto d' := by
  induction params generalizing d with
  | nil => exact Except.ok.inj hok ▸ h.onto
  | cons p params ih =>
    obtain ⟨name, t⟩ := p
    have hone := h.withStore (h.loaded.addParameter h.graph_mem t)
      (d.store.grown_addParameter d.graph t) (d.store.graphIds_addParameter d.graph t)
      (d.store.ret?_addParameter d.graph t)
    have hnew : (d.store.addParameter d.graph t).2.arena.Usable d.graph
        (d.store.addParameter d.graph t).1 := by
      have husable : (d.store.arena.addNode .parameter (some d.graph) t).2.Usable d.graph _ :=
        d.store.arena.usable_addNode .parameter t (Or.inl rfl)
      rw [Store.arena_addParameter]
      exact husable
    have htwo := hone.trans (hone.good.bind hnew name)
    exact htwo.trans (ih htwo.good (addParams_cons_eq_ok hok).2)

theorem Good.resolve (h : d.Good) (hp : Placed graphs d.store.arena)
    (hok : d.resolve graphs name = .ok (n, d')) :
    d.Onto d' ∧ d'.store.arena.Usable d'.graph n := by
  obtain ⟨hn, rfl⟩ | ⟨-, v, hv, rfl, rfl⟩ := resolve_eq_ok hok
  · exact ⟨h.onto, h.usable hn⟩
  · obtain ⟨hdead, hgraph⟩ := outer?_spec hv
    exact h.newNode (h.loaded.constantWith hdead (fun g hg => hp name g (hgraph g hg)) _)
      (Or.inr rfl)

theorem Good.resolveAll (h : d.Good) (hp : Placed graphs d.store.arena) {names : List String}
    {ns : List NodeId} (hok : d.resolveAll graphs names = .ok (ns, d')) :
    d.Onto d' ∧ ∀ n ∈ ns, d'.store.arena.Usable d'.graph n := by
  induction names generalizing d ns with
  | nil =>
    obtain ⟨rfl, rfl⟩ := Prod.mk.inj (Except.ok.inj hok)
    exact ⟨h.onto, fun n hn => absurd hn List.not_mem_nil⟩
  | cons name names ih =>
    obtain ⟨n, d₁, ms, hone, hrest, rfl⟩ := resolveAll_cons_eq_ok hok
    obtain ⟨honto, hn⟩ := h.resolve hp hone
    obtain ⟨honto', hms⟩ := ih honto.good (honto.placed hp) hrest
    refine ⟨honto.trans honto', fun m hm => ?_⟩
    rcases List.mem_cons.mp hm with rfl | hm
    · exact honto'.usable hn
    · exact hms m hm

theorem Good.addApply (h : d.Good) (hp : Placed graphs d.store.arena) {names : List String}
    {t : Option Ty} (hok : d.addApply graphs name t names = .ok (n, d')) :
    d.Onto d' ∧ d'.store.arena.Usable d'.graph n := by
  obtain ⟨func, args, d₁, -, hall, -, rfl, rfl⟩ := addApply_eq_ok hok
  obtain ⟨honto, hin⟩ := h.resolveAll hp hall
  obtain ⟨hlast, hnew⟩ := honto.good.newNode
    (honto.good.loaded.apply honto.good.graph_mem hin t) (Or.inl rfl)
  exact ⟨honto.trans hlast, hnew⟩

theorem Good.addConstant (h : d.Good) (hp : Placed graphs d.store.arena) {v : Json} {t : Option Ty}
    (hok : d.addConstant graphs name t v = .ok (n, d')) :
    d.Onto d' ∧ d'.store.arena.Usable d'.graph n := by
  unfold Draft.addConstant at hok
  split at hok
  · cases hok
  · next x hx =>
    obtain ⟨hdead, hgraph⟩ := constantOf_eq_ok hx
    have hmem : ∀ g, x = .graph g → g ∈ d.store.arena.graphIds := fun g hg => by
      obtain ⟨name', hname⟩ := hgraph g hg
      exact hp name' g hname
    obtain ⟨rfl, rfl⟩ := Prod.mk.inj (Except.ok.inj hok)
    cases t with
    | none => exact h.newNode (h.loaded.constantWith hdead hmem _) (Or.inr rfl)
    | some t => exact h.newNode (h.loaded.constantWith hdead hmem _) (Or.inr rfl)

theorem Good.addNode (h : d.Good) (hp : Placed graphs d.store.arena) {spec : NodeSpec}
    {t : Option Ty} (hok : d.addNode graphs spec t = .ok d') : d.Onto d' := by
  obtain ⟨-, n, d₁, rfl, ⟨v, -, -, hmade⟩ | ⟨names, -, -, hmade⟩⟩ := addNode_eq_ok hok
  · obtain ⟨honto, hn⟩ := h.addConstant hp hmade
    exact honto.trans (honto.good.bind hn spec.name)
  · obtain ⟨honto, hn⟩ := h.addApply hp hmade
    exact honto.trans (honto.good.bind hn spec.name)

theorem Good.addNodes (h : d.Good) (hp : Placed graphs d.store.arena)
    {nodes : List (NodeSpec × Option Ty)} (hok : d.addNodes graphs nodes = .ok d') : d.Onto d' := by
  induction nodes generalizing d with
  | nil => exact Except.ok.inj hok ▸ h.onto
  | cons x nodes ih =>
    unfold Draft.addNodes at hok
    split at hok
    · cases hok
    · next d₁ hone =>
      have honto := h.addNode hp hone
      exact honto.trans (ih honto.good (honto.placed hp) hok)

end Draft

/-- A graph that has no output yet is built of its annotations, its parameters and its nodes, and
gets its output last. -/
theorem buildGraph_eq_ok {spec : GraphSpec} (h : s.Loaded) (hp : Placed graphs s.arena)
    (hg : g ∈ s.arena.graphIds) (hret : s.arena.ret? g = none)
    (hok : buildGraph graphs s g spec = .ok s') :
    ∃ pts nts d₁ d₂ n, optionalTypes graphs (spec.params.map ParamSpec.type) = .ok pts ∧
      optionalTypes graphs (spec.nodes.map NodeSpec.type) = .ok nts ∧
      (⟨g, spec.name, s, .empty⟩ : Draft).addParams ((spec.params.map ParamSpec.name).zip pts) =
        .ok d₁ ∧
      d₁.addNodes graphs (spec.nodes.zip nts) = .ok d₂ ∧ d₂.names.get? spec.output = some n ∧
      (⟨g, spec.name, s, .empty⟩ : Draft).Onto d₂ ∧ s' = d₂.store.addReturn g n := by
  simp only [buildGraph, bind, Except.bind] at hok
  split at hok
  · cases hok
  · next pts hpts =>
    split at hok
    · cases hok
    · next nts hnts =>
      split at hok
      · cases hok
      · next d₁ hparams =>
        split at hok
        · cases hok
        · next d₂ hnodes =>
          have hstart : (⟨g, spec.name, s, .empty⟩ : Draft).Good :=
            ⟨h, hg, fun hn => by simp at hn⟩
          have honto₁ := hstart.addParams hparams
          have honto := honto₁.trans (honto₁.good.addNodes (honto₁.placed hp) hnodes)
          unfold Draft.finish at hok
          split at hok
          · cases hok
          · next n hn =>
            have hgraph : d₂.graph = g := honto.graph
            have hnone : d₂.store.arena.ret? d₂.graph = none := by
              rw [honto.ret, hgraph]
              exact hret
            rw [Store.setOutput_of_ret?_eq_none hnone, hgraph] at hok
            exact ⟨pts, nts, d₁, d₂, n, hpts, hnts, hparams, hnodes, hn, honto,
              (Except.ok.inj hok).symm⟩

/-- Building a graph that has no output yet sets its output, and no other one. -/
theorem loaded_buildGraph {spec : GraphSpec} (h : s.Loaded) (hp : Placed graphs s.arena)
    (hg : g ∈ s.arena.graphIds) (hret : s.arena.ret? g = none)
    (hok : buildGraph graphs s g spec = .ok s') :
    s'.Loaded ∧ (∀ k, k ∈ s'.arena.graphIds ↔ k ∈ s.arena.graphIds) ∧
      ∀ k, k ≠ g → s'.arena.ret? k = s.arena.ret? k := by
  obtain ⟨-, -, -, d, n, -, -, -, -, hn, honto, rfl⟩ := buildGraph_eq_ok h hp hg hret hok
  have hgraph : d.graph = g := honto.graph
  have husable : d.store.arena.Usable g n := hgraph ▸ honto.good.usable hn
  refine ⟨honto.good.loaded.addReturn ((honto.graphIds g).mpr hg) husable
    ((honto.ret g).trans hret), fun k => ?_, fun k hk => ?_⟩
  · rw [Store.graphIds_addReturn, honto.graphIds]
  · rw [Store.ret?_addReturn_of_ne hk, honto.ret]

/-! ### Building all graphs -/

/-- Names stand for different graphs, so those still to be built have no output yet. -/
theorem unbuilt_rest {spec : GraphSpec} {todo : List (GraphSpec × GraphId)}
    (hg : ∀ x ∈ (spec, g) :: todo, x.2 ∈ s.arena.graphIds ∧ s.arena.ret? x.2 = none)
    (hnot : g ∉ todo.map Prod.snd) (hids : ∀ k, k ∈ s'.arena.graphIds ↔ k ∈ s.arena.graphIds)
    (hret : ∀ k, k ≠ g → s'.arena.ret? k = s.arena.ret? k) :
    ∀ y ∈ todo, y.2 ∈ s'.arena.graphIds ∧ s'.arena.ret? y.2 = none := by
  intro y hy
  have hne : y.2 ≠ g := fun heq => hnot (List.mem_map.mpr ⟨y, hy, heq⟩)
  obtain ⟨hmem, hnone⟩ := hg y (List.mem_cons_of_mem _ hy)
  exact ⟨(hids y.2).mpr hmem, (hret y.2 hne).trans hnone⟩

theorem loaded_buildGraphs {todo : List (GraphSpec × GraphId)} (h : s.Loaded)
    (hp : Placed graphs s.arena) (hnodup : (todo.map Prod.snd).Nodup)
    (hg : ∀ x ∈ todo, x.2 ∈ s.arena.graphIds ∧ s.arena.ret? x.2 = none)
    (hok : buildGraphs graphs s todo = .ok s') :
    s'.Loaded ∧ ∀ k, k ∈ s'.arena.graphIds ↔ k ∈ s.arena.graphIds := by
  induction todo generalizing s with
  | nil => exact Except.ok.inj hok ▸ ⟨h, fun _ => Iff.rfl⟩
  | cons x todo ih =>
    obtain ⟨spec, g⟩ := x
    obtain ⟨hnot, hnodup⟩ := List.nodup_cons.mp hnodup
    obtain ⟨hmem, hnone⟩ := hg _ List.mem_cons_self
    unfold buildGraphs at hok
    split at hok
    · cases hok
    · next s₁ hone =>
      obtain ⟨h₁, hids, hret⟩ := loaded_buildGraph h hp hmem hnone hone
      have hrest := unbuilt_rest hg hnot hids hret
      obtain ⟨h', hids'⟩ := ih h₁ (fun name k hk => (hids k).mpr (hp name k hk)) hnodup hrest hok
      exact ⟨h', fun k => (hids' k).trans (hids k)⟩

/-- The graphs that were made for names: different ones, and without outputs. -/
structure Named (graphs : GraphNames) (s : Store) : Prop where
  loaded : s.Loaded
  nodup : (graphs.entries.map Prod.snd).Nodup
  graph_mem : ∀ x ∈ graphs.entries, x.2 ∈ s.arena.graphIds
  ret : ∀ g, s.arena.ret? g = none

theorem Named.addGraphs {graphs' : GraphNames} {names : List String} (h : Named graphs s)
    (hok : addGraphs s graphs names = .ok (s', graphs')) : Named graphs' s' := by
  induction names generalizing s graphs with
  | nil =>
    obtain ⟨rfl, rfl⟩ := Prod.mk.inj (Except.ok.inj hok)
    exact h
  | cons name names ih =>
    unfold Program.addGraphs at hok
    split at hok
    · cases hok
    · next hnew =>
      have hentries : (graphs.insert name (s.newGraph name).1).entries =
          graphs.entries ++ [(name, (s.newGraph name).1)] := OrderedMap.entries_insert hnew
      have hfresh : (s.newGraph name).1 ∉ s.arena.graphIds := by
        simp [Store.newGraph, Arena.addGraph, Arena.mem_graphIds]
      have hnext : Named (graphs.insert name (s.newGraph name).1) (s.newGraph name).2 := by
        refine ⟨h.loaded.newGraph name, ?_, fun x hx => ?_, fun g => ?_⟩
        · rw [hentries, List.map_append, List.nodup_append]
          refine ⟨h.nodup, by simp, fun g hg k hk hgk => ?_⟩
          obtain ⟨x, hx, rfl⟩ := List.mem_map.mp hg
          obtain rfl : k = (s.newGraph name).1 := by simpa using hk
          exact hfresh (hgk ▸ h.graph_mem x hx)
        · refine (s.arena.mem_graphIds_addGraph name).mpr ?_
          rw [hentries, List.mem_append, List.mem_singleton] at hx
          rcases hx with hx | rfl
          · exact Or.inr (h.graph_mem x hx)
          · exact Or.inl rfl
        · have hg := h.ret g
          simp only [Store.newGraph, Arena.ret?, Arena.graph?_addGraph] at hg ⊢
          split
          · rfl
          · exact hg
      exact ih hnext hok

theorem named_empty : Named .empty .empty :=
  ⟨Store.loaded_empty, List.nodup_nil, fun x hx => absurd hx List.not_mem_nil,
    fun g => by simp [Store.empty, Arena.empty, Arena.ret?, Arena.graph?]⟩

theorem sublist_snd_zip {α β : Type} (xs : List α) (ys : List β) :
    ((xs.zip ys).map Prod.snd).Sublist ys := by
  induction xs generalizing ys with
  | nil => simp
  | cons x xs ih =>
    cases ys with
    | nil => simp
    | cons y ys => exact (ih ys).cons_cons y

theorem Named.placed (h : Named graphs s) : Placed graphs s.arena := fun name g hg =>
  h.graph_mem (name, g) (OrderedMap.mem_entries_of_get? hg)

/-- Descriptions are matched with different graphs, which have no output yet. -/
theorem Named.zip {gs : List GraphId} (h : Named graphs s)
    (hgs : graphs.entries.map Prod.snd = gs) (specs : List GraphSpec) :
    ((specs.zip gs).map Prod.snd).Nodup ∧
      ∀ x ∈ specs.zip gs, x.2 ∈ s.arena.graphIds ∧ s.arena.ret? x.2 = none := by
  subst hgs
  have hsub := sublist_snd_zip specs (graphs.entries.map Prod.snd)
  refine ⟨h.nodup.sublist hsub, fun x hx => ⟨?_, h.ret x.2⟩⟩
  obtain ⟨y, hy, heq⟩ := List.mem_map.mp (hsub.subset (List.mem_map_of_mem hx))
  exact heq ▸ h.graph_mem y hy

/-- The root has a name or is the first graph. -/
theorem rootOf_mem {first root : GraphId} {name : Option String} {gs : List GraphId}
    (hgs : gs = graphs.entries.map Prod.snd) (hfirst : first ∈ gs)
    (hok : rootOf graphs first name = .ok root) : root ∈ gs := by
  unfold rootOf at hok
  split at hok
  · exact Except.ok.inj hok ▸ hfirst
  · split at hok
    · next g hg =>
      rw [← Except.ok.inj hok, hgs]
      exact List.mem_map.mpr ⟨_, OrderedMap.mem_entries_of_get? hg, rfl⟩
    · cases hok

/-- A program is built of its graphs, which are made first, and its root. -/
theorem build_eq_ok {spec : Spec} {p : Program} (hok : build spec = .ok p) :
    ∃ s₀ graphs first others s root,
      addGraphs .empty .empty (spec.graphs.map GraphSpec.name) = .ok (s₀, graphs) ∧
      graphs.entries.map Prod.snd = first :: others ∧
      buildGraphs graphs s₀ (spec.graphs.zip (first :: others)) = .ok s ∧
      rootOf graphs first spec.root = .ok root ∧ p = ⟨s, root, first :: others⟩ := by
  simp only [build, bind, Except.bind] at hok
  split at hok
  · cases hok
  · next r hadd =>
    obtain ⟨s₀, graphs⟩ := r
    simp only at hok
    split at hok
    · cases hok
    · next first others hgraphs =>
      split at hok
      · cases hok
      · next s hbuilt =>
        split at hok
        · cases hok
        · next root hroot =>
          exact ⟨s₀, graphs, first, others, s, root, hadd, hgraphs, hbuilt, hroot,
            (Except.ok.inj hok).symm⟩

/-- An accepted program was loaded, and its root is one of its graphs. -/
theorem loaded_build {spec : Spec} {p : Program} (hok : build spec = .ok p) :
    p.store.Loaded ∧ p.root ∈ p.store.arena.graphIds := by
  obtain ⟨s₀, graphs, first, others, s, root, hadd, hgraphs, hbuilt, hroot, rfl⟩ := build_eq_ok hok
  have hnamed := named_empty.addGraphs hadd
  obtain ⟨hnodup, hg⟩ := hnamed.zip hgraphs spec.graphs
  obtain ⟨hloaded, hids⟩ := loaded_buildGraphs hnamed.loaded hnamed.placed hnodup hg hbuilt
  obtain ⟨x, hx, heq⟩ := List.mem_map.mp
    (hgraphs ▸ rootOf_mem hgraphs.symm List.mem_cons_self hroot)
  exact ⟨hloaded, (hids root).mpr (heq ▸ hnamed.graph_mem x hx)⟩

end Program

end Midend
