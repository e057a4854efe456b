import Midend.Proofs.Program.Formed

/-!
# Names of a graph under construction

A name is given once, to the parameter or node that was just made for it.
-/

namespace Midend

namespace Program

open Arena (Enlarged Formed)

variable {graphs : GraphNames} {a b : Arena} {g : GraphId} {n : NodeId} {name : String}
  {ps ps' : List String} {xs xs' : List NodeSpec}

/-! ### What descriptions declare -/

/-- Whether `n` is what the description of a node makes in `g`: the constant described, or an apply
of `g` to as many inputs as there are names. -/
def Makes (graphs : GraphNames) (a : Arena) (g : GraphId) (x : NodeSpec) (n : NodeId) : Prop :=
  (∃ v w, x.constant = some v ∧ constantOf graphs v = .ok w ∧ a.kind? n = some (.constant w)) ∨
  ∃ names inputs, x.apply = some names ∧ a.owner? n = some g ∧
    a.kind? n = some (.apply inputs) ∧ inputs.length = names.length

/-- Whether `n` is the parameter or node of `g` that is declared under a name. -/
structure Declares (graphs : GraphNames) (a : Arena) (g : GraphId) (params : List String)
    (nodes : List NodeSpec) (name : String) (n : NodeId) : Prop where
  mem : n ∈ a.nodeIds
  label : a.label? n = some name
  origin : name ∈ params ∧ a.kind? n = some .parameter ∧ a.owner? n = some g ∨
    ∃ x ∈ nodes, x.name = name ∧ Makes graphs a g x n

theorem Makes.grown {x : NodeSpec} (h : Makes graphs a g x n) (hab : a.Grown b)
    (hn : n ∈ a.nodeIds) : Makes graphs b g x n := by
  unfold Makes
  rw [hab.kind hn, hab.owner hn]
  exact h

theorem Declares.enlarged (h : Declares graphs a g ps xs name n) (hab : a.Enlarged b) :
    Declares graphs b g ps xs name n := by
  refine ⟨hab.nodeIds h.mem, (hab.label h.mem).trans h.label, ?_⟩
  rw [hab.kind h.mem, hab.owner h.mem]
  exact h.origin.imp_right fun ⟨x, hx, hname, hmade⟩ =>
    ⟨x, hx, hname, hmade.grown hab.toGrown h.mem⟩

theorem Declares.mono (h : Declares graphs a g ps xs name n) (hps : ps ⊆ ps') (hxs : xs ⊆ xs') :
    Declares graphs a g ps' xs' name n :=
  ⟨h.mem, h.label, h.origin.imp (And.imp_left (@hps _)) fun ⟨x, hx, hmade⟩ => ⟨x, hxs hx, hmade⟩⟩

/-- Whether `g` returns the node that the output of its description names. -/
def Returns (graphs : GraphNames) (a : Arena) (g : GraphId) (spec : GraphSpec) : Prop :=
  ∃ r f n, a.ret? g = some r ∧ a.inputs r = [f, n] ∧ a.value? f = some (.prim .ret) ∧
    Declares graphs a g (spec.params.map ParamSpec.name) spec.nodes spec.output n

theorem Returns.enlarged {spec : GraphSpec} (h : Returns graphs a g spec) (hab : a.Enlarged b)
    (hwf : a.WellFormed) (hret : b.ret? g = a.ret? g) : Returns graphs b g spec := by
  obtain ⟨r, f, n, hr, hin, hf, hdecl⟩ := h
  have hmem : f ∈ a.nodeIds := hwf.input_mem (n := r) (by simp [hin])
  exact ⟨r, f, n, hret.trans hr, (hab.inputs (hwf.ret_mem hr)).trans hin,
    (hab.value? hmem).trans hf, hdecl.enlarged hab⟩

namespace Draft

variable {d d' : Draft} {s : Store} {t : Option Ty}

/-- What holds of a graph under construction besides: its nodes are formed, and its names are those
of the parameters and nodes made so far. -/
structure Sound (graphs : GraphNames) (ps : List String) (xs : List NodeSpec) (d : Draft) :
    Prop where
  good : d.Good
  formed : d.store.arena.Formed (Given graphs)
  declared : ∀ {name n}, d.names.get? name = some n →
    Declares graphs d.store.arena d.graph ps xs name n

/-- A step that makes nodes without names. -/
structure Adds (graphs : GraphNames) (ps : List String) (xs : List NodeSpec) (d d' : Draft) :
    Prop where
  onto : d.Onto d'
  sound : d'.Sound graphs ps xs
  enlarged : d.store.arena.Enlarged d'.store.arena
  names : d'.names = d.names

theorem Sound.adds (h : d.Sound graphs ps xs) : d.Adds graphs ps xs d :=
  ⟨h.good.onto, h, .refl _, rfl⟩

theorem Adds.trans {d'' : Draft} (h : d.Adds graphs ps xs d') (h' : d'.Adds graphs ps xs d'') :
    d.Adds graphs ps xs d'' :=
  ⟨h.onto.trans h'.onto, h'.sound, h.enlarged.trans h'.enlarged, h'.names.trans h.names⟩

theorem Sound.withStore (h : d.Sound graphs ps xs) (honto : d.Onto { d with store := s })
    (hab : d.store.arena.Enlarged s.arena) (hs : s.arena.Formed (Given graphs)) :
    d.Adds graphs ps xs { d with store := s } :=
  ⟨honto, ⟨honto.good, hs, fun hn => (h.declared hn).enlarged hab⟩, hab, rfl⟩

/-- A constant that names no graph without a name. -/
theorem Sound.constantWith (h : d.Sound graphs ps xs) (hp : Placed graphs d.store.arena) {v : Value}
    (hdead : v ≠ .dead) (hv : ∀ g, v = .graph g → Given graphs g) (ht : Covers graphs t) :
    d.Adds graphs ps xs { d with store := (d.store.constantWith v t).2 } := by
  have hmem : ∀ g, v = .graph g → g ∈ d.store.arena.graphIds := fun g hg => by
    obtain ⟨name, hname⟩ := hv g hg
    exact hp name g hname
  refine h.withStore (h.good.newNode (h.good.loaded.constantWith hdead hmem t) (Or.inr rfl)).1
    (d.store.arena.enlarged_addNode _ _ _) ?_
  exact h.formed.addNode h.good.loaded.wellFormed (by simp) (by simp [NodeKind.inputs])
    (fun g hg => hv g (NodeKind.constant.inj hg)) ht

theorem covers_type? {v : Value} (hv : ∀ g, v = .graph g → Given graphs g) :
    Covers graphs v.type? := fun _ ht g hg => hv g (Value.namedGraphs_type? ht hg)

theorem Sound.resolve (h : d.Sound graphs ps xs) (hp : Placed graphs d.store.arena)
    (hok : d.resolve graphs name = .ok (n, d')) : d.Adds graphs ps xs d' := by
  obtain ⟨-, rfl⟩ | ⟨-, v, hv, rfl, rfl⟩ := resolve_eq_ok hok
  · exact h.adds
  · obtain ⟨hdead, hgraph⟩ := outer?_spec hv
    have hgiven : ∀ g, v = .graph g → Given graphs g := fun g hg => ⟨name, hgraph g hg⟩
    exact h.constantWith hp hdead hgiven (covers_type? hgiven)

theorem Sound.resolveAll (h : d.Sound graphs ps xs) (hp : Placed graphs d.store.arena)
    {names : List String} {ns : List NodeId} (hok : d.resolveAll graphs names = .ok (ns, d')) :
    d.Adds graphs ps xs d' ∧ ns.length = names.length := by
  induction names generalizing d ns with
  | nil =>
    obtain ⟨rfl, rfl⟩ := Prod.mk.inj (Except.ok.inj hok)
    exact ⟨h.adds, rfl⟩
  | cons name names ih =>
    obtain ⟨n, d₁, ms, hone, hrest, rfl⟩ := resolveAll_cons_eq_ok hok
    have hadds := h.resolve hp hone
    obtain ⟨hadds', hlen⟩ := ih hadds.sound (hadds.onto.placed hp) hrest
    exact ⟨hadds.trans hadds', by simp [hlen]⟩

/-- A call that is accepted is one of a function to as many arguments as it takes. -/
theorem callable_of_checkCall {node funcName : String} {func : NodeId} {args : List NodeId}
    (h : d.checkCall node funcName func args.length = .ok ()) :
    d.store.arena.Callable (func :: args) := by
  unfold Draft.checkCall at h
  split at h
  · cases h
  · next hfunc =>
    obtain ⟨ts, hts⟩ : ∃ ts, (d.store.arena.type? func).bind Ty.targets? = some ts := by
      simpa [Option.isNone_iff_eq_none, ← Option.ne_none_iff_exists'] using hfunc
    obtain ⟨t, ht, htargets⟩ := Option.bind_eq_some_iff.mp hts
    obtain rfl : t = .function ts := by cases t <;> simp [Ty.targets?] at htargets ⊢; exact htargets
    refine ⟨func, args, ts, rfl, ht, fun p k hp hk => ?_⟩
    split at h
    · next hnone => simp [hp, hk, Value.prim?] at hnone
    · next expected hsome =>
      obtain rfl : k = expected := by simpa [hp, hk, Value.prim?] using hsome
      split at h
      · next heq => exact heq.symm
      · cases h

/-- A step that makes one node for a name to come. -/
structure Gives (graphs : GraphNames) (ps : List String) (xs : List NodeSpec) (x : NodeSpec)
    (n : NodeId) (d d' : Draft) : Prop extends Adds graphs ps xs d d' where
  fresh : n ∉ d.store.arena.nodeIds
  usable : d'.store.arena.Usable d'.graph n
  makes : Makes graphs d'.store.arena d'.graph x n

theorem Sound.addApply (h : d.Sound graphs ps xs) (hp : Placed graphs d.store.arena) {x : NodeSpec}
    {names : List String} (hx : x.apply = some names) (ht : Covers graphs t)
    (hok : d.addApply graphs name t names = .ok (n, d')) : d.Gives graphs ps xs x n d' := by
  have husable := (h.good.addApply hp hok).2
  obtain ⟨func, args, d₁, _, hall, hcheck, rfl, rfl⟩ := addApply_eq_ok hok
  obtain ⟨hadds, hlen⟩ := h.resolveAll hp hall
  have hin := (h.good.resolveAll hp hall).2
  have hgood := hadds.sound.good
  have hstore : d₁.Adds graphs ps xs
      { d₁ with store := (d₁.store.call d₁.graph func args t).2 } := by
    refine hadds.sound.withStore
      (hgood.newNode (hgood.loaded.apply hgood.graph_mem hin t) (Or.inl rfl)).1
      (d₁.store.arena.enlarged_addNode _ _ _) ?_
    refine hadds.sound.formed.addNode hgood.loaded.wellFormed (fun inputs heq => ?_)
      (fun m hm => (hin m hm).1) (by simp) ht
    exact NodeKind.apply.inj heq ▸ callable_of_checkCall hcheck
  have hnew : (d₁.store.call d₁.graph func args t).2.arena.node?
      (d₁.store.call d₁.graph func args t).1 = _ :=
    Store.node?_apply d₁.store d₁.graph (func :: args) t
  refine ⟨hadds.trans hstore, fun hold => ?_, husable, Or.inr ?_⟩
  · exact d₁.store.arena.not_mem_nodeIds_size (hadds.enlarged.nodeIds hold)
  · refine ⟨names, func :: args, hx, ?_, ?_, hlen⟩
    · exact congrArg (Option.bind · Node.owner) hnew
    · exact congrArg (Option.map Node.kind) hnew

theorem Sound.addConstant (h : d.Sound graphs ps xs) (hp : Placed graphs d.store.arena)
    {x : NodeSpec} {v : Json} (hx : x.constant = some v) (ht : Covers graphs t)
    (hok : d.addConstant graphs name t v = .ok (n, d')) : d.Gives graphs ps xs x n d' := by
  have husable := (h.good.addConstant hp hok).2
  unfold Draft.addConstant at hok
  split at hok
  · cases hok
  · next w hw =>
    obtain ⟨hdead, hgiven⟩ := constantOf_eq_ok hw
    obtain ⟨u, hu, heq⟩ : ∃ u, Covers graphs u ∧ (d.store.constantWith w u).1 = n ∧
        { d with store := (d.store.constantWith w u).2 } = d' := by
      cases t with
      | none => exact ⟨w.type?, covers_type? hgiven, Prod.mk.inj (Except.ok.inj hok)⟩
      | some t => exact ⟨some t, ht, Prod.mk.inj (Except.ok.inj hok)⟩
    obtain ⟨rfl, rfl⟩ := heq
    refine ⟨h.constantWith hp hdead hgiven hu, d.store.arena.not_mem_nodeIds_size, husable,
      Or.inl ⟨v, w, hx, hw, ?_⟩⟩
    exact congrArg (Option.map Node.kind) (d.store.arena.node?_addNode_self (.constant w) none u)

/-- A name is given to a node that had none. -/
theorem Sound.bind (h : d.Sound graphs ps xs) (hn : d.store.arena.Usable d.graph n)
    (hfresh : ∀ {name' m}, d.names.get? name' = some m → m ≠ n) (hps : ps ⊆ ps') (hxs : xs ⊆ xs')
    (horigin : name ∈ ps' ∧ d.store.arena.kind? n = some .parameter ∧
        d.store.arena.owner? n = some d.graph ∨
      ∃ x ∈ xs', x.name = name ∧ Makes graphs d.store.arena d.graph x n) :
    (d.bind name n).Sound graphs ps' xs' := by
  have hgrown := d.store.grown_setLabel n name
  have hmakes : ∀ {name' m}, m ∈ d.store.arena.nodeIds →
      (∃ x ∈ xs', x.name = name' ∧ Makes graphs d.store.arena d.graph x m) →
      ∃ x ∈ xs', x.name = name' ∧ Makes graphs (d.bind name n).store.arena d.graph x m := by
    rintro name' m hm ⟨x, hx, hname, hmade⟩
    exact ⟨x, hx, hname, hmade.grown hgrown hm⟩
  refine ⟨(h.good.bind hn name).good, Store.formed_setLabel h.formed, fun {name' m} hm => ?_⟩
  rw [Draft.bind, OrderedMap.get?_insert] at hm
  split at hm
  · next heq =>
    obtain rfl := heq
    obtain rfl := Option.some.inj hm
    refine ⟨hgrown.nodeIds hn.1, Store.label?_setLabel hn.1, ?_⟩
    rw [show (d.bind name' n).store.arena.kind? n = _ from hgrown.kind hn.1,
      show (d.bind name' n).store.arena.owner? n = _ from hgrown.owner hn.1]
    exact horigin.imp_right (hmakes hn.1)
  · have hdecl := (h.declared hm).mono hps hxs
    have hnode : (d.bind name n).store.arena.node? m = d.store.arena.node? m :=
      (d.store.arena.node?_modifyNode n _).trans (if_neg (hfresh hm))
    refine ⟨hgrown.nodeIds hdecl.mem, ?_, ?_⟩
    · rw [← hdecl.label, Arena.label?, Arena.label?, hnode]
    · rw [show (d.bind name n).store.arena.kind? m = _ from hgrown.kind hdecl.mem,
        show (d.bind name n).store.arena.owner? m = _ from hgrown.owner hdecl.mem]
      exact hdecl.origin.imp_right (hmakes hdecl.mem)

theorem Sound.addParams (h : d.Sound graphs ps xs) {params : List (String × Option Ty)}
    (ht : ∀ p ∈ params, Covers graphs p.2) (hok : d.addParams params = .ok d') :
    d'.Sound graphs (ps ++ params.map Prod.fst) xs ∧
      d.store.arena.Enlarged d'.store.arena := by
  induction params generalizing d ps with
  | nil =>
    obtain rfl := Except.ok.inj hok
    exact ⟨by simpa using h, .refl _⟩
  | cons p params ih =>
    obtain ⟨name, t⟩ := p
    have hgood := h.good
    have honto := hgood.withStore (hgood.loaded.addParameter hgood.graph_mem t)
      (d.store.grown_addParameter d.graph t) (d.store.graphIds_addParameter d.graph t)
      (d.store.ret?_addParameter d.graph t)
    have hadds := h.withStore honto (d.store.enlarged_addParameter d.graph t)
      (Store.formed_addParameter h.formed hgood.loaded.wellFormed
        (ht (name, t) List.mem_cons_self))
    have hnew : (d.store.addParameter d.graph t).2.arena.node?
        (d.store.addParameter d.graph t).1 = some ⟨.parameter, some d.graph, t, none⟩ := by
      rw [Store.arena_addParameter]
      exact d.store.arena.node?_addNode_self .parameter (some d.graph) t
    have hsize : (d.store.addParameter d.graph t).1 ∉ d.store.arena.nodeIds :=
      d.store.arena.not_mem_nodeIds_size
    have hone := hadds.sound.bind (n := (d.store.addParameter d.graph t).1)
      ⟨Arena.mem_nodeIds_iff_node?.mpr (by simp [hnew]), Or.inl (by simp [Arena.owner?, hnew])⟩
      (fun hm heq => hsize (heq ▸ (h.declared hm).mem)) (List.subset_append_left ps [name])
      (List.Subset.refl xs)
      (Or.inl ⟨List.mem_append_right ps (List.mem_singleton_self name),
        by simp [Arena.kind?, hnew], by simp [Arena.owner?, hnew]⟩)
    obtain ⟨hlast, hab⟩ := ih hone (fun q hq => ht q (List.mem_cons_of_mem _ hq))
      (addParams_cons_eq_ok hok).2
    refine ⟨by simpa using hlast, ?_⟩
    exact Enlarged.trans (Store.enlarged_setLabel hadds.enlarged hsize) hab

/-- The node of a description is made in its form, and then gets its name. -/
theorem Sound.addNode_eq_ok (h : d.Sound graphs ps xs) (hp : Placed graphs d.store.arena)
    {x : NodeSpec} (ht : Covers graphs t) (hok : d.addNode graphs x t = .ok d') :
    ∃ n d₁, d.Gives graphs ps xs x n d₁ ∧ d' = d₁.bind x.name n ∧
      ∀ names, x.apply = some names → d.addApply graphs x.name t names = .ok (n, d₁) := by
  obtain ⟨-, n, d₁, rfl, ⟨v, hv, hx, hmade⟩ | ⟨names, -, hx, hmade⟩⟩ := Draft.addNode_eq_ok hok
  · exact ⟨n, d₁, h.addConstant hp hv ht hmade, rfl, fun names hnames => by simp [hx] at hnames⟩
  · refine ⟨n, d₁, h.addApply hp hx ht hmade, rfl, fun names' hnames => ?_⟩
    obtain rfl := Option.some.inj (hx.symm.trans hnames)
    exact hmade

theorem Sound.addNode (h : d.Sound graphs ps xs) (hp : Placed graphs d.store.arena) {x : NodeSpec}
    (ht : Covers graphs t) (hok : d.addNode graphs x t = .ok d') :
    d'.Sound graphs ps (xs ++ [x]) ∧ d.store.arena.Enlarged d'.store.arena := by
  obtain ⟨n, d₁, hgives, rfl, -⟩ := h.addNode_eq_ok hp ht hok
  exact ⟨hgives.sound.bind hgives.usable
    (fun {name' m} hm heq => hgives.fresh (heq ▸ (h.declared (hgives.names ▸ hm)).mem))
    (List.Subset.refl ps) (List.subset_append_left xs [x])
    (Or.inr ⟨x, by simp, rfl, hgives.makes⟩),
    Store.enlarged_setLabel hgives.enlarged hgives.fresh⟩

theorem Sound.addNodes (h : d.Sound graphs ps xs) (hp : Placed graphs d.store.arena)
    {nodes : List (NodeSpec × Option Ty)} (ht : ∀ x ∈ nodes, Covers graphs x.2)
    (hok : d.addNodes graphs nodes = .ok d') :
    d'.Sound graphs ps (xs ++ nodes.map Prod.fst) ∧ d.store.arena.Enlarged d'.store.arena := by
  induction nodes generalizing d xs with
  | nil =>
    obtain rfl := Except.ok.inj hok
    exact ⟨by simpa using h, .refl _⟩
  | cons y nodes ih =>
    obtain ⟨x, t⟩ := y
    unfold Draft.addNodes at hok
    split at hok
    · cases hok
    · next d₁ hone =>
      obtain ⟨hsound, hab⟩ := h.addNode hp (ht (x, t) List.mem_cons_self) hone
      obtain ⟨hlast, hab'⟩ := ih hsound ((h.good.addNode hp hone).placed hp)
        (fun y hy => ht y (List.mem_cons_of_mem _ hy)) hok
      exact ⟨by simpa using hlast, hab.trans hab'⟩

end Draft

end Program

end Midend
