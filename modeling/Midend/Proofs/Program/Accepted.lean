import Mathlib
import Midend.Proofs.Program.Valid
import Midend.Proofs.Program.WellFormed

/-!
# Accepted programs

While a graph is built, each name that has been given stands for a node that is annotated, and
valued, as the description of that name says, so what is looked up in the arena can be read off the
description instead.
-/

namespace Midend

namespace Program

open Arena (Enlarged)

variable {a b : Arena} {s : Store} {g : GraphId} {graphs : GraphNames} {n : NodeId}
  {name : String} {r : Referent} {scope : Scope}

/-! ### Names and their nodes -/

theorem Scope.lookup_eq_none_iff : scope.lookup name = none ↔ name ∉ scope.map Prod.fst := by
  rw [List.lookup_eq_none_iff, List.mem_map]
  constructor
  · intro h hmem
    obtain ⟨x, hx, rfl⟩ := hmem
    simpa using h x hx
  · intro h x hx
    simpa using fun heq => h ⟨x, hx, Eq.symm heq⟩

theorem rel_imp {α β : Type} {R S : α → β → Prop} {x : Option α} {y : Option β}
    (h : Option.Rel R x y) (hRS : ∀ u v, R u v → S u v) : Option.Rel S x y := by
  cases h with
  | none => exact .none
  | some h => exact .some (hRS _ _ h)

theorem eq_none_iff_of_rel {α β : Type} {R : α → β → Prop} {x : Option α} {y : Option β}
    (h : Option.Rel R x y) : x = none ↔ y = none := by
  cases h <;> simp

/-- Names after given ones are all new if the first is, and then the others are. -/
theorem nodup_append_cons_iff {names rest : List String} :
    (names ++ name :: rest).Nodup ↔ name ∉ names ∧ ((names ++ [name]) ++ rest).Nodup := by
  rw [List.append_assoc, List.singleton_append]
  refine ⟨fun h => ⟨fun hmem => ?_, h⟩, fun h => h.2⟩
  exact (List.nodup_append.mp h).2.2 name hmem name List.mem_cons_self rfl

/-- Whether a node has the annotation and the value that its description tells. -/
structure Fits (a : Arena) (n : NodeId) (r : Referent) : Prop where
  mem : n ∈ a.nodeIds
  function : ((a.type? n).bind Ty.targets?).isSome = r.isFunction
  prim : (a.value? n).bind Value.prim? = r.prim?

theorem Fits.enlarged (h : Fits a n r) (hab : a.Enlarged b) : Fits b n r :=
  ⟨hab.nodeIds h.mem, by rw [hab.type h.mem, h.function], by rw [hab.value? h.mem, h.prim]⟩

theorem Fits.setLabel (h : Fits s.arena n r) (m : NodeId) (label : String) :
    Fits (s.setLabel m label).arena n r := by
  refine ⟨(s.grown_setLabel m label).nodeIds h.mem, ?_, ?_⟩
  · rw [Store.type?_setLabel, h.function]
  · rw [(s.grown_setLabel m label).value? h.mem, h.prim]

theorem fits_addNode {k : NodeKind} {o : Option GraphId} {t : Option Ty}
    (hfun : (t.bind Ty.targets?).isSome = r.isFunction)
    (hprim : k.value?.bind Value.prim? = r.prim?) :
    Fits (a.addNode k o t).2 (a.addNode k o t).1 r := by
  have hnode := a.node?_addNode_self k o t
  refine ⟨(a.mem_nodeIds_addNode k o t).mpr (Or.inl rfl), ?_, ?_⟩
  · rw [← hfun, show (a.addNode k o t).1 = ⟨a.nodes.size⟩ from rfl, Arena.type?, hnode]
    rfl
  · rw [← hprim, show (a.addNode k o t).1 = ⟨a.nodes.size⟩ from rfl, Arena.value?, Arena.kind?,
      hnode]
    rfl

theorem isSome_targets?_of_annotatedAs {type : Option Ty} {spec : Option TypeSpec}
    (h : AnnotatedAs type spec) :
    (type.bind Ty.targets?).isSome = spec.any TypeSpec.isFunction := by
  cases h with
  | none => rfl
  | some h => exact h

/-! ### Steps of building a graph -/

namespace Draft

variable {d d' : Draft}

/-- Whether the names that have been given are those of a scope, and stand for what it says. -/
structure Shows (d : Draft) (scope : Scope) : Prop where
  nodup : (scope.map Prod.fst).Nodup
  fits : ∀ name, Option.Rel (Fits d.store.arena) (d.names.get? name) (scope.lookup name)

theorem Shows.enlarged (h : d.Shows scope) (hs : d.store.arena.Enlarged s.arena) :
    { d with store := s }.Shows scope :=
  ⟨h.nodup, fun name => rel_imp (h.fits name) fun _ _ hfits => hfits.enlarged hs⟩

theorem Shows.get?_eq_none_iff (h : d.Shows scope) :
    d.names.get? name = none ↔ name ∉ scope.map Prod.fst :=
  (eq_none_iff_of_rel (h.fits name)).trans Scope.lookup_eq_none_iff

theorem Shows.bind (h : d.Shows scope) (hn : Fits d.store.arena n r)
    (hnew : name ∉ scope.map Prod.fst) : (d.bind name n).Shows (scope ++ [(name, r)]) := by
  refine ⟨?_, fun name' => ?_⟩
  · rw [List.map_append, List.map_singleton, ← List.concat_eq_append]
    exact h.nodup.concat hnew
  · rw [Draft.bind, OrderedMap.get?_insert, List.lookup_append]
    by_cases heq : name' = name
    · obtain rfl := heq
      rw [if_pos rfl, Scope.lookup_eq_none_iff.mpr hnew]
      simpa using Option.Rel.some (hn.setLabel n name')
    · rw [if_neg heq]
      have hlast : List.lookup name' [(name, r)] = none := by simp [List.lookup_eq_none_iff, heq]
      rw [hlast, Option.or_none]
      exact rel_imp (h.fits name') fun _ _ hfits => hfits.setLabel n name

theorem Shows.decides_checkNew (h : d.Shows scope) (name : String) :
    Decides (d.checkNew name) (name ∉ scope.map Prod.fst) fun _ => True := by
  rw [← h.get?_eq_none_iff]
  unfold Draft.checkNew
  cases d.names.get? name <;> simp [Decides]

/-- A name in an apply is found if it is known, and means what it stands for. -/
theorem Shows.decides_resolve (h : d.Shows scope) (name : String) :
    Decides (d.resolve graphs name) (IsKnown graphs.keys scope name) fun x =>
      x.2.Shows scope ∧ ∃ r, referent? graphs.keys scope name = some r ∧
        Fits x.2.store.arena x.1 r := by
  have hconstant : ∀ v r, referent? graphs.keys scope name = some r →
      (v.type?.bind Ty.targets?).isSome = r.isFunction → v.prim? = r.prim? →
      { d with store := (d.store.constant v).2 }.Shows scope ∧
        ∃ r, referent? graphs.keys scope name = some r ∧
          Fits (d.store.constant v).2.arena (d.store.constant v).1 r := fun v r hr hfun hprim =>
    ⟨h.enlarged (d.store.arena.enlarged_addNode (.constant v) none v.type?), r, hr,
      fits_addNode hfun hprim⟩
  unfold Draft.resolve
  cases hn : d.names.get? name with
  | some n =>
    have hrel := h.fits name
    rw [hn] at hrel
    cases hscope : scope.lookup name with
    | none => simp [hscope] at hrel
    | some r =>
      rw [hscope] at hrel
      have hfits : Fits d.store.arena n r := by simpa using hrel
      have hmem : name ∈ scope.map Prod.fst := by
        by_contra hnot
        simp [Scope.lookup_eq_none_iff.mpr hnot] at hscope
      exact ⟨Or.inl hmem, h, r, by simp [referent?, hscope], hfits⟩
  | none =>
    have hnot := h.get?_eq_none_iff.mp hn
    have hscope := Scope.lookup_eq_none_iff.mpr hnot
    simp only
    cases hg : graphs.get? name with
    | some g =>
      have hmem := exists_get?_iff.mp ⟨g, hg⟩
      exact ⟨Or.inr (Or.inl hmem),
        hconstant (.graph g) .graph (by simp [referent?, hscope, hmem]) rfl rfl⟩
    | none =>
      have hnone : name ∉ graphs.keys := fun hmem => by
        simpa [hg] using exists_get?_iff.mpr hmem
      cases hp : Prim.ofName? name with
      | some p =>
        exact ⟨Or.inr (Or.inr (exists_ofName?_iff.mp ⟨p, hp⟩)),
          hconstant (.prim p) (.prim p) (by simp [referent?, hscope, hnone, hp]) rfl rfl⟩
      | none =>
        refine ⟨fun hknown => ?_, by simp⟩
        obtain hmem | hmem | hprim := hknown
        · exact hnot hmem
        · exact hnone hmem
        · simpa [hp] using exists_ofName?_iff.mpr hprim

theorem enlarged_resolve {x : NodeId × Draft} (hok : d.resolve graphs name = .ok x) :
    d.store.arena.Enlarged x.2.store.arena := by
  unfold Draft.resolve at hok
  split at hok
  · exact Except.ok.inj hok ▸ .refl _
  · simp only at hok
    split at hok
    · cases hok
    · next v _ => exact Except.ok.inj hok ▸ d.store.arena.enlarged_addNode _ _ _

theorem Shows.decides_resolveAll (h : d.Shows scope) (names : List String) :
    Decides (d.resolveAll graphs names) (∀ name ∈ names, IsKnown graphs.keys scope name) fun x =>
      x.1.length = names.length ∧ x.2.Shows scope ∧
        d.store.arena.Enlarged x.2.store.arena := by
  induction names generalizing d with
  | nil => exact ⟨fun _ hname => absurd hname List.not_mem_nil, rfl, h, .refl _⟩
  | cons name names ih =>
    rw [Draft.resolveAll, List.forall_mem_cons]
    refine (h.decides_resolve name).next (fun e he => by rw [he]) fun x hx hshows => ?_
    rw [hx]
    refine (ih hshows.1).map fun y hy => ?_
    obtain ⟨hlen, hshows', hab⟩ := hy
    exact ⟨by simp [hlen], hshows', (enlarged_resolve hx).trans hab⟩

/-- What a call of what a name stands for needs. -/
theorem decides_checkCall (hn : Fits d.store.arena n r) (node funcName : String) (count : Nat) :
    Decides (d.checkCall node funcName n count)
      (r.isFunction = true ∧ ∀ p k, r.prim? = some p → p.arity = some k → count = k)
      fun _ => True := by
  unfold Draft.checkCall
  rw [hn.prim, ← Option.not_isSome, hn.function]
  by_cases hfun : r.isFunction = true
  · rw [if_neg (by simp [hfun])]
    cases hk : r.prim?.bind Prim.arity with
    | none =>
      refine ⟨⟨hfun, fun p k hp hpk => ?_⟩, trivial⟩
      simp [hp, hpk] at hk
    | some expected =>
      obtain ⟨p, hp, hpk⟩ := Option.bind_eq_some_iff.mp hk
      by_cases heq : expected = count
      · simp only [if_pos heq]
        refine ⟨⟨hfun, fun p' k hp' hk' => ?_⟩, trivial⟩
        obtain rfl : p = p' := Option.some.inj (hp.symm.trans hp')
        exact heq.symm.trans (Option.some.inj (hpk.symm.trans hk'))
      · simp only [if_neg heq]
        exact ⟨fun hall => heq (hall.2 p expected hp hpk).symm, by simp⟩
  · rw [if_pos (by simp [hfun])]
    exact ⟨fun hall => hfun hall.1, by simp⟩

theorem Shows.decides_addApply (h : d.Shows scope) {x : NodeSpec} {names : List String}
    {t : Option Ty} (hconst : x.constant = none) (happly : x.apply = some names)
    (ht : AnnotatedAs t x.type) :
    Decides (d.addApply graphs x.name t names) (x.Valid graphs.keys scope) fun y =>
      y.2.Shows scope ∧ Fits y.2.store.arena y.1 (.node x) := by
  cases names with
  | nil =>
    refine ⟨fun hvalid => ?_, by simp⟩
    cases hvalid with
    | constant hsome => simp [hconst] at hsome
    | apply _ hnames => simp [happly] at hnames
  | cons func args =>
    rw [Draft.addApply, NodeSpec.valid_apply_iff hconst happly]
    refine (h.decides_resolve func).next (fun e he => by rw [he]) fun y hy hshows => ?_
    obtain ⟨hshows, r, hr, hfits⟩ := hshows
    rw [hy]
    refine (hshows.decides_resolveAll args).next (fun e he => by simp only [he]) fun z hz hall => ?_
    obtain ⟨hlen, hshows', hab⟩ := hall
    -- the constants made for the arguments leave what is called as it is
    have hcall := decides_checkCall (hfits.enlarged hab) x.name func z.1.length
    simp only [hz, hr, Option.some.injEq, exists_eq_left', ← hlen]
    cases hcheck : z.2.checkCall x.name func y.1 z.1.length with
    | error e =>
      rw [hcheck] at hcall
      exact hcall
    | ok =>
      rw [hcheck] at hcall
      have hfun : (t.bind Ty.targets?).isSome = (Referent.node x).isFunction := by
        rw [isSome_targets?_of_annotatedAs ht, Referent.isFunction, hconst]
        cases x.type <;> rfl
      exact ⟨hcall.1, hshows'.enlarged (z.2.store.arena.enlarged_addNode _ _ t),
        fits_addNode hfun (by simp [NodeKind.value?, Referent.prim?, hconst])⟩

theorem Shows.decides_addConstant (h : d.Shows scope) {x : NodeSpec} {v : Json} {t : Option Ty}
    (hconst : x.constant = some v) (happly : x.apply = none) (ht : AnnotatedAs t x.type) :
    Decides (d.addConstant graphs x.name t v) (x.Valid graphs.keys scope) fun y =>
      y.2.Shows scope ∧ Fits y.2.store.arena y.1 (.node x) := by
  rw [NodeSpec.valid_constant_iff hconst happly, ← constantOf_iff]
  unfold Draft.addConstant
  cases hw : constantOf graphs v with
  | error cause => exact ⟨by simp, by simp⟩
  | ok w =>
    obtain ⟨hprim, hfun⟩ := constantOf_described hw
    have hmade : ∀ u : Option Ty,
        (u.bind Ty.targets?).isSome = (Referent.node x).isFunction →
        { d with store := (d.store.constantWith w u).2 }.Shows scope ∧
          Fits (d.store.constantWith w u).2.arena (d.store.constantWith w u).1 (.node x) :=
      fun u hu => ⟨h.enlarged (d.store.arena.enlarged_addNode (.constant w) none u),
        fits_addNode hu (by simpa [NodeKind.value?, Referent.prim?, hconst] using hprim)⟩
    refine ⟨⟨w, rfl⟩, ?_⟩
    cases t with
    | none =>
      have hnone : x.type = none := (eq_none_iff_of_rel ht).mp rfl
      exact hmade w.type? (by simpa [Referent.isFunction, hnone, hconst] using hfun)
    | some t =>
      refine hmade (some t) ?_
      have hsome := isSome_targets?_of_annotatedAs ht
      cases htype : x.type with
      | none => exact absurd ((eq_none_iff_of_rel ht).mpr htype) (by simp)
      | some u => simpa [Referent.isFunction, htype] using hsome

/-- A node is made if its name is new and it has a valid description. -/
theorem Shows.decides_addNode (h : d.Shows scope) (x : NodeSpec) {t : Option Ty}
    (ht : AnnotatedAs t x.type) :
    Decides (d.addNode graphs x t) (x.name ∉ scope.map Prod.fst ∧ x.Valid graphs.keys scope)
      fun d' => d'.Shows (scope ++ [(x.name, .node x)]) := by
  unfold Draft.addNode
  refine (h.decides_checkNew x.name).next (fun e he => by rw [he]) fun _ hnew _ => ?_
  have hfresh : x.name ∉ scope.map Prod.fst :=
    (h.decides_checkNew x.name).exists_ok_iff.mp ⟨_, hnew⟩
  rw [hnew]
  have hneither : (∀ v, x.constant = some v → x.apply = none → False) →
      (∀ names, x.constant = none → x.apply = some names → False) →
      ¬ x.Valid graphs.keys scope := fun hconst happly hvalid => by
    cases hvalid with
    | constant hv hnone => exact hconst _ hv hnone
    | apply hnone hnames => exact happly _ hnone hnames
  refine Decides.map (Q := fun y => y.2.Shows scope ∧ Fits y.2.store.arena y.1 (.node x)) ?_
    fun y hy => hy.1.bind hy.2 hfresh
  cases hconst : x.constant with
  | some v =>
    cases happly : x.apply with
    | none => exact h.decides_addConstant hconst happly ht
    | some names => exact ⟨hneither (by simp [happly]) (by simp [hconst]), by simp⟩
  | none =>
    cases happly : x.apply with
    | none => exact ⟨hneither (by simp [hconst]) (by simp [happly]), by simp⟩
    | some names => exact h.decides_addApply hconst happly ht

/-- A list of nodes is valid if each of them is, given the nodes before it. -/
theorem forall_split_cons_iff {names : List String} {x : NodeSpec} {xs : List NodeSpec} :
    (∀ before y after, x :: xs = before ++ y :: after →
        y.Valid names (scope ++ nodeScope before)) ↔
      x.Valid names scope ∧ ∀ before y after, xs = before ++ y :: after →
        y.Valid names ((scope ++ [(x.name, .node x)]) ++ nodeScope before) := by
  have hscope : ∀ before, (scope ++ [(x.name, .node x)]) ++ nodeScope before =
      scope ++ nodeScope (x :: before) := fun before => List.append_assoc ..
  simp only [hscope]
  constructor
  · intro h
    exact ⟨by simpa [nodeScope] using h [] x xs rfl,
      fun before y after heq => h (x :: before) y after (by rw [heq]; rfl)⟩
  · intro h before y after heq
    cases before with
    | nil =>
      obtain ⟨rfl, -⟩ := List.cons.inj heq
      simpa [nodeScope] using h.1
    | cons z before =>
      obtain ⟨rfl, htail⟩ := List.cons.inj heq
      exact h.2 before y after htail

theorem Shows.decides_addNodes (h : d.Shows scope) {xs : List NodeSpec} {ts : List (Option Ty)}
    (hts : List.Forall₂ AnnotatedAs ts (xs.map NodeSpec.type)) :
    Decides (d.addNodes graphs (xs.zip ts))
      ((scope.map Prod.fst ++ xs.map NodeSpec.name).Nodup ∧
        ∀ before x after, xs = before ++ x :: after →
          x.Valid graphs.keys (scope ++ nodeScope before))
      fun d' => d'.Shows (scope ++ nodeScope xs) := by
  induction xs generalizing d scope ts with
  | nil => exact ⟨⟨by simpa using h.nodup, by simp⟩, by simpa [nodeScope] using h⟩
  | cons x xs ih =>
    cases hts with
    | cons ht hts =>
      rw [List.zip_cons_cons, Draft.addNodes, List.map_cons, nodup_append_cons_iff,
        forall_split_cons_iff, and_and_and_comm]
      refine (h.decides_addNode x ht).next (fun e he => by rw [he]) fun d' hd' hshows => ?_
      rw [hd']
      refine (ih hshows hts).congr ?_ fun _ hlast => ?_
      · rw [List.map_append, List.map_singleton]
      · simpa [nodeScope] using hlast

theorem Shows.decides_addParams (h : d.Shows scope) {ps : List ParamSpec} {ts : List (Option Ty)}
    (hts : List.Forall₂ AnnotatedAs ts (ps.map ParamSpec.type)) :
    Decides (d.addParams ((ps.map ParamSpec.name).zip ts))
      (scope.map Prod.fst ++ ps.map ParamSpec.name).Nodup
      fun d' => d'.Shows (scope ++ paramScope ps) := by
  induction ps generalizing d scope ts with
  | nil => exact ⟨by simpa using h.nodup, by simpa [paramScope] using h⟩
  | cons p ps ih =>
    cases hts with
    | @cons t _ ts _ ht hts =>
      rw [List.map_cons, List.zip_cons_cons, Draft.addParams, nodup_append_cons_iff]
      refine (h.decides_checkNew p.name).next (fun e he => by rw [he]) fun _ hnew _ => ?_
      have hfresh : p.name ∉ scope.map Prod.fst :=
        (h.decides_checkNew p.name).exists_ok_iff.mp ⟨_, hnew⟩
      have hfits : Fits (d.store.addParameter d.graph t).2.arena (d.store.addParameter d.graph t).1
          (.param p) := by
        have hnode := fits_addNode (a := d.store.arena) (k := .parameter) (o := some d.graph)
          (r := .param p) (isSome_targets?_of_annotatedAs ht) rfl
        rw [Store.arena_addParameter]
        exact hnode.enlarged ((Enlarged.refl _).modifyGraph d.graph _)
      have hshows := (h.enlarged (d.store.enlarged_addParameter d.graph t)).bind hfits hfresh
      rw [hnew]
      refine (ih hshows hts).congr ?_ fun _ hlast => ?_
      · rw [List.map_append, List.map_singleton]
      · simpa [paramScope] using hlast

/-- A name that has been given can be the output of a graph that has none. -/
theorem Shows.decides_finish (h : d.Shows scope) (hret : d.store.arena.ret? d.graph = none)
    (output : String) :
    Decides (d.finish output) (output ∈ scope.map Prod.fst) fun _ => True := by
  unfold Draft.finish
  have hnone : d.names.get? output = none ↔ output ∉ scope.map Prod.fst := h.get?_eq_none_iff
  cases hn : d.names.get? output with
  | none => exact ⟨hnone.mp hn, by simp⟩
  | some n =>
    simp only [Store.setOutput_of_ret?_eq_none hret]
    refine ⟨Classical.not_not.mp fun hnot => ?_, trivial⟩
    simp [hnone.mpr hnot] at hn

end Draft

/-! ### Building graphs -/

/-- A graph is built if it has a valid description. -/
theorem decides_buildGraph {spec : GraphSpec} (h : s.Loaded) (hp : Placed graphs s.arena)
    (hg : g ∈ s.arena.graphIds) (hret : s.arena.ret? g = none) :
    Decides (buildGraph graphs s g spec) (spec.Valid graphs.keys) fun _ => True := by
  have hgood : (⟨g, spec.name, s, .empty⟩ : Draft).Good := ⟨h, hg, fun hn => by simp at hn⟩
  have hstart : (⟨g, spec.name, s, .empty⟩ : Draft).Shows [] :=
    ⟨List.nodup_nil, fun name => .none⟩
  rw [GraphSpec.valid_iff]
  unfold buildGraph
  refine (decides_optionalTypes _).bind fun pts _ hps => ?_
  refine (decides_optionalTypes _).bind fun nts _ hxs => ?_
  refine (hstart.decides_addParams hps).bind fun d₁ hd₁ hshows₁ => ?_
  rw [List.nil_append] at hshows₁
  refine (hshows₁.decides_addNodes hxs).bind fun d₂ hd₂ hshows₂ => ?_
  have honto₁ := hgood.addParams hd₁
  have honto := honto₁.trans (honto₁.good.addNodes (honto₁.placed hp) hd₂)
  have hnone : d₂.store.arena.ret? d₂.graph = none := by
    rw [honto.ret, honto.graph]
    exact hret
  exact hshows₂.decides_finish hnone spec.output

/-- The graphs are built if each has a valid description. -/
theorem decides_buildGraphs {todo : List (GraphSpec × GraphId)} (h : s.Loaded)
    (hp : Placed graphs s.arena) (hnodup : (todo.map Prod.snd).Nodup)
    (hg : ∀ x ∈ todo, x.2 ∈ s.arena.graphIds ∧ s.arena.ret? x.2 = none) :
    Decides (buildGraphs graphs s todo) (∀ x ∈ todo, x.1.Valid graphs.keys) fun _ => True := by
  induction todo generalizing s with
  | nil => exact ⟨fun _ hx => absurd hx List.not_mem_nil, trivial⟩
  | cons x todo ih =>
    obtain ⟨spec, g⟩ := x
    obtain ⟨hnot, hnodup⟩ := List.nodup_cons.mp hnodup
    obtain ⟨hmem, hnone⟩ := hg _ List.mem_cons_self
    rw [buildGraphs, List.forall_mem_cons]
    refine (decides_buildGraph h hp hmem hnone).next (fun e he => by rw [he]) fun s₁ hs₁ _ => ?_
    obtain ⟨h₁, hids, hret⟩ := loaded_buildGraph h hp hmem hnone hs₁
    rw [hs₁]
    exact ih h₁ (fun name k hk => (hids k).mpr (hp name k hk)) hnodup
      (unbuilt_rest hg hnot hids hret)

theorem decides_addGraphs (s : Store) (graphs : GraphNames) (names : List String) :
    Decides (addGraphs s graphs names) (graphs.keys ++ names).Nodup fun _ => True := by
  induction names generalizing s graphs with
  | nil => exact ⟨by simpa [OrderedMap.keys] using graphs.nodup, trivial⟩
  | cons name names ih =>
    rw [addGraphs, nodup_append_cons_iff, ← exists_get?_iff, ← Option.isSome_iff_exists]
    by_cases hold : (graphs.get? name).isSome = true
    · rw [if_pos hold]
      exact ⟨fun hnew => hnew.1 hold, by simp⟩
    · rw [if_neg hold]
      refine (ih _ _).congr ?_ fun _ h => h
      rw [and_iff_right hold, OrderedMap.keys, OrderedMap.entries_insert hold, List.map_append]
      rfl

theorem decides_rootOf (first : GraphId) (root : Option String) :
    Decides (rootOf graphs first root) (∀ name, root = some name → name ∈ graphs.keys)
      fun _ => True := by
  cases root with
  | none => exact ⟨by simp, trivial⟩
  | some name =>
    have hroot : (∀ name', some name = some name' → name' ∈ graphs.keys) ↔
        ∃ g, graphs.get? name = some g := by
      rw [exists_get?_iff]
      simp
    rw [rootOf, hroot]
    cases graphs.get? name with
    | none => exact ⟨by simp, by simp⟩
    | some g => exact ⟨⟨g, rfl⟩, trivial⟩

/-- A program is built if it has a valid description. -/
theorem decides_build (spec : Spec) : Decides (build spec) spec.Valid fun _ => True := by
  rw [Spec.valid_iff]
  unfold build
  refine (decides_addGraphs .empty .empty _).bind fun x hx _ => ?_
  obtain ⟨s, names⟩ := x
  have hnamed := named_empty.addGraphs hx
  have hlisted := listed_empty.addGraphs hx
  have hkeys : names.keys = spec.graphs.map GraphSpec.name := hlisted.keys
  have hlen : (names.entries.map Prod.snd).length = spec.graphs.length := by
    have hkeys' := congrArg List.length hkeys
    simpa [OrderedMap.keys] using hkeys'
  simp only
  cases hgraphs : names.entries.map Prod.snd with
  | nil =>
    have hnil : spec.graphs = [] := by simpa [hgraphs] using hlen.symm
    exact ⟨fun h => h.1 hnil, by simp⟩
  | cons first others =>
    have hne : spec.graphs ≠ [] := by
      intro hnil
      simp [hgraphs, hnil] at hlen
    obtain ⟨hnodup, hg⟩ := hnamed.zip hgraphs spec.graphs
    have hfst : (spec.graphs.zip (first :: others)).map Prod.fst = spec.graphs :=
      List.map_fst_zip (by rw [← hgraphs, hlen])
    rw [and_iff_right hne, ← hkeys]
    have hvalid : (∀ g ∈ spec.graphs, g.Valid names.keys) ↔
        ∀ x ∈ spec.graphs.zip (first :: others), x.1.Valid names.keys := by
      rw [← List.forall_mem_map (f := Prod.fst), hfst]
    rw [hvalid]
    refine (decides_buildGraphs hnamed.loaded hnamed.placed hnodup hg).bind fun s' _ _ => ?_
    have hroot : Decides (rootOf names first spec.root) _ _ := decides_rootOf first spec.root
    rw [← and_true (∀ name, _ → _)]
    exact hroot.bind fun root _ _ => ⟨trivial, trivial⟩

/-- A program is accepted if and only if it has a valid description: there are graphs, with
different names, and a root that is named is one of them; every annotation names what is there; and
in each graph names are given once, each node is a constant that is described well or an apply of
names that are known by then, the first of them that of a function that takes as many arguments, and
the output is a name. Any other program is an invalid input. -/
theorem build_accepts_valid (spec : Spec) : ((∃ p, build spec = .ok p) ↔ spec.Valid) ∧
    ∀ e, build spec = .error e →
      e.toFailure = .invalidInput .error e.message "graphopt.program" := by
  have hdecides := decides_build spec
  refine ⟨hdecides.exists_ok_iff, fun e he => ?_⟩
  rw [he] at hdecides
  exact LoadError.toFailure_of_ne_broken hdecides.2

end Program

end Midend
