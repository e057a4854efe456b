import Mathlib
import Midend.Proofs.Program.Given
import Midend.Proofs.Program.Loaded

/-!
# Valid descriptions

What makes the description of a program valid, said of the description alone.
-/

namespace Midend

namespace Program

/-! ### Types -/

/-- The number that digits stand for. -/
def decimal (digits : List Char) : Nat :=
  digits.foldl (fun n c => 10 * n + (c.toNat - '0'.toNat)) 0

/-- Whether a string names a type: by a word, or by a letter with a width below 256 in digits, which
may have a plus sign in front. -/
def IsTypeName (s : String) : Prop :=
  s ∈ ["bool", "str", "env", "nil", "symkey"] ∨
    ∃ c ∈ ['i', 'u', 'f'], ∃ digits : List Char,
      (s.toList = c :: digits ∨ s.toList = c :: '+' :: digits) ∧
      digits ≠ [] ∧ (∀ d ∈ digits, d.isDigit = true) ∧ decimal digits < 256

/-- Whether a string names what a function may run. -/
def IsTargetName (names : List String) (s : String) : Prop :=
  s = "opaque" ∨ s ∈ names ∨ ∃ p : Prim, p.name = s

mutual

/-- Whether everything that a type names is there, `names` being the graphs. -/
inductive TypeSpec.Resolves (names : List String) : TypeSpec → Prop
  | name {s : String} : IsTypeName s → TypeSpec.Resolves names (.name s)
  | tuple {parts : List TypeSpec} : (∀ t ∈ parts, TypeSpec.Resolves names t) →
      TypeSpec.Resolves names (.tuple parts)
  | array {element : TypeSpec} : TypeSpec.Resolves names element →
      TypeSpec.Resolves names (.array element)
  | function {targets : List FnSpec} : (∀ f ∈ targets, FnSpec.Resolves names f) →
      TypeSpec.Resolves names (.function targets)

inductive FnSpec.Resolves (names : List String) : FnSpec → Prop
  | name {s : String} : IsTargetName names s → FnSpec.Resolves names (.name s)
  | bound {f : String} {args : List TypeSpec} : IsTargetName names f →
      (∀ t ∈ args, TypeSpec.Resolves names t) → FnSpec.Resolves names (.bound f args)

end

def TypeSpec.isFunction : TypeSpec → Bool
  | .function _ => true
  | _ => false

/-! ### Constants -/

/-- Whether a value describes a constant. -/
inductive IsConstant (names : List String) : Json → Prop
  | bool (b : Bool) : IsConstant names (.bool b)
  | number (n : Json.Number) : IsConstant names (.number n)
  | string (s : String) : IsConstant names (.string s)
  | key (k : String) : IsConstant names (.object [("key", .string k)])
  | float (n : Json.Number) : IsConstant names (.object [("float", .number n)])
  | nil (v : Json) : IsConstant names (.object [("nil", v)])
  | graph {name : String} : name ∈ names → IsConstant names (.object [("graph", .string name)])
  | prim (p : Prim) : IsConstant names (.object [("prim", .string p.name)])

/-- The operation that a described constant is. -/
def describedPrim? (v : Json) : Option Prim :=
  match v.merged with
  | .object [("prim", .string name)] => Prim.ofName? name
  | _ => none

/-- Whether a described constant is a graph or an operation. -/
def describesFunction (v : Json) : Bool :=
  match v.merged with
  | .object [("graph", _)] => true
  | .object [("prim", _)] => true
  | _ => false

/-! ### Names -/

/-- What a name in an apply stands for. -/
inductive Referent where
  | param (p : ParamSpec)
  | node (x : NodeSpec)
  | graph
  | prim (p : Prim)

/-- Whether what a name stands for is annotated as a function. A constant without an annotation has
that of its value. -/
def Referent.isFunction : Referent → Bool
  | .param p => p.type.any TypeSpec.isFunction
  | .node x =>
    match x.type with
    | some t => t.isFunction
    | none => x.constant.any describesFunction
  | .graph => true
  | .prim _ => true

/-- The operation that a name stands for as a constant. -/
def Referent.prim? : Referent → Option Prim
  | .param _ => none
  | .node x => x.constant.bind describedPrim?
  | .graph => none
  | .prim p => some p

/-- Names that have been given, with what they stand for. -/
abbrev Scope := List (String × Referent)

def paramScope (params : List ParamSpec) : Scope := params.map fun p => (p.name, .param p)

def nodeScope (nodes : List NodeSpec) : Scope := nodes.map fun x => (x.name, .node x)

/-- Whether a name is given, or names a graph or an operation. -/
def IsKnown (names : List String) (scope : Scope) (name : String) : Prop :=
  name ∈ scope.map Prod.fst ∨ name ∈ names ∨ ∃ p : Prim, p.name = name

/-- What a name stands for: what it is given to, else a graph, else an operation. -/
def referent? (names : List String) (scope : Scope) (name : String) : Option Referent :=
  match scope.lookup name with
  | some r => some r
  | none => if name ∈ names then some .graph else (Prim.ofName? name).map .prim

/-! ### Programs -/

/-- Whether a node has one form, and what it is made of is there: a constant that is described
well, or known names, the first of which stands for a function and, as an operation that takes a
fixed number of arguments, is followed by as many. -/
inductive NodeSpec.Valid (names : List String) (scope : Scope) (x : NodeSpec) : Prop
  | constant {v : Json} : x.constant = some v → x.apply = none → IsConstant names v.merged →
      NodeSpec.Valid names scope x
  | apply {func : String} {args : List String} {r : Referent} : x.constant = none →
      x.apply = some (func :: args) → (∀ name ∈ func :: args, IsKnown names scope name) →
      referent? names scope func = some r → r.isFunction = true →
      (∀ p k, r.prim? = some p → p.arity = some k → args.length = k) →
      NodeSpec.Valid names scope x

/-- A constant is valid if it is described well. -/
theorem NodeSpec.valid_constant_iff {names : List String} {scope : Scope} {x : NodeSpec} {v : Json}
    (hconst : x.constant = some v) (happly : x.apply = none) :
    x.Valid names scope ↔ IsConstant names v.merged := by
  constructor
  · intro h
    cases h with
    | constant hsome _ hv =>
      obtain rfl : v = _ := by simpa [hconst] using hsome
      exact hv
    | apply hnone => simp [hconst] at hnone
  · exact .constant hconst happly

/-- An apply has one form: its names are known, and the first is called as it may be. -/
theorem NodeSpec.valid_apply_iff {names : List String} {scope : Scope} {x : NodeSpec}
    {func : String} {args : List String} (hconst : x.constant = none)
    (happly : x.apply = some (func :: args)) :
    x.Valid names scope ↔ IsKnown names scope func ∧
      (∀ name ∈ args, IsKnown names scope name) ∧
      ∃ r, referent? names scope func = some r ∧ r.isFunction = true ∧
        ∀ p k, r.prim? = some p → p.arity = some k → args.length = k := by
  constructor
  · intro h
    cases h with
    | constant hsome => simp [hconst] at hsome
    | apply _ hnames hknown hr hfun harity =>
      obtain ⟨rfl, rfl⟩ : func = _ ∧ args = _ := by simpa [happly] using hnames
      exact ⟨hknown func List.mem_cons_self, fun name hname =>
        hknown name (List.mem_cons_of_mem _ hname), _, hr, hfun, harity⟩
  · intro h
    obtain ⟨hfunc, hargs, r, hr, hfun, harity⟩ := h
    exact .apply hconst happly (List.forall_mem_cons.mpr ⟨hfunc, hargs⟩) hr hfun harity

structure GraphSpec.Valid (names : List String) (g : GraphSpec) : Prop where
  paramTypes : ∀ p ∈ g.params, ∀ t, p.type = some t → t.Resolves names
  nodeTypes : ∀ x ∈ g.nodes, ∀ t, x.type = some t → t.Resolves names
  nodup : (g.params.map ParamSpec.name ++ g.nodes.map NodeSpec.name).Nodup
  /-- A node may use the parameters and the nodes before it. -/
  nodes : ∀ before x after, g.nodes = before ++ x :: after →
    x.Valid names (paramScope g.params ++ nodeScope before)
  output : g.output ∈ g.params.map ParamSpec.name ++ g.nodes.map NodeSpec.name

/-- What makes the description of a graph valid, in the order in which it is looked at. -/
theorem GraphSpec.valid_iff {names : List String} {spec : GraphSpec} :
    spec.Valid names ↔
      (∀ t ∈ spec.params.map ParamSpec.type, ∀ u, t = some u → u.Resolves names) ∧
      (∀ t ∈ spec.nodes.map NodeSpec.type, ∀ u, t = some u → u.Resolves names) ∧
      (spec.params.map ParamSpec.name).Nodup ∧
      (((paramScope spec.params).map Prod.fst ++ spec.nodes.map NodeSpec.name).Nodup ∧
        ∀ before x after, spec.nodes = before ++ x :: after →
          x.Valid names (paramScope spec.params ++ nodeScope before)) ∧
      spec.output ∈ (paramScope spec.params ++ nodeScope spec.nodes).map Prod.fst := by
  have hparams : (paramScope spec.params).map Prod.fst = spec.params.map ParamSpec.name := by
    simp [paramScope]
  have hnodes : (nodeScope spec.nodes).map Prod.fst = spec.nodes.map NodeSpec.name := by
    simp [nodeScope]
  rw [List.map_append, hparams, hnodes, List.forall_mem_map, List.forall_mem_map]
  constructor
  · intro h
    exact ⟨h.paramTypes, h.nodeTypes, h.nodup.of_append_left, ⟨h.nodup, h.nodes⟩, h.output⟩
  · intro h
    obtain ⟨hps, hxs, -, ⟨hnodup, hvalid⟩, hout⟩ := h
    exact ⟨hps, hxs, hnodup, hvalid, hout⟩

structure Spec.Valid (spec : Spec) : Prop where
  graphs_ne : spec.graphs ≠ []
  nodup : (spec.graphs.map GraphSpec.name).Nodup
  root : ∀ name, spec.root = some name → name ∈ spec.graphs.map GraphSpec.name
  graphs : ∀ g ∈ spec.graphs, g.Valid (spec.graphs.map GraphSpec.name)

/-- What makes the description of a program valid, in the order in which it is looked at. -/
theorem Spec.valid_iff {spec : Spec} :
    spec.Valid ↔ (spec.graphs.map GraphSpec.name).Nodup ∧ spec.graphs ≠ [] ∧
      (∀ g ∈ spec.graphs, g.Valid (spec.graphs.map GraphSpec.name)) ∧
      ∀ name, spec.root = some name → name ∈ spec.graphs.map GraphSpec.name := by
  constructor
  · intro h
    exact ⟨h.nodup, h.graphs_ne, h.graphs, h.root⟩
  · intro h
    obtain ⟨hnodup, hne, hgraphs, hroot⟩ := h
    exact ⟨hne, hnodup, hroot, hgraphs⟩

/-! ### Steps that refuse what is not valid -/

section

variable {α β : Type} {P P' : Prop} {Q Q' : α → Prop} {R : β → Prop} {r : Except LoadError α}

/-- Whether a step succeeds exactly under a condition, with a result that is as it should be, and
else finds fault with the description. -/
def Decides (r : Except LoadError α) (P : Prop) (Q : α → Prop) : Prop :=
  match r with
  | .ok x => P ∧ Q x
  | .error e => ¬ P ∧ ∀ fault, e ≠ .broken fault

theorem Decides.congr (h : Decides r P Q) (hP : P ↔ P') (hQ : ∀ x, Q x → Q' x) :
    Decides r P' Q' := by
  cases r with
  | ok x => exact ⟨hP.mp h.1, hQ x h.2⟩
  | error e => exact ⟨fun hp => h.1 (hP.mpr hp), h.2⟩

theorem Decides.map {f : α → β} (h : Decides r P Q) (hf : ∀ x, Q x → R (f x)) :
    Decides (r.map f) P R := by
  cases r with
  | ok x => exact ⟨h.1, hf x h.2⟩
  | error e => exact h

/-- A step that goes on after another one. -/
theorem Decides.next {r' : Except LoadError β} (h : Decides r P Q)
    (herror : ∀ e, r = .error e → r' = .error e)
    (hok : ∀ x, r = .ok x → Q x → Decides r' P' R) : Decides r' (P ∧ P') R := by
  cases hr : r with
  | ok x =>
    rw [hr] at h
    exact (hok x hr h.2).congr (and_iff_right h.1).symm fun _ hy => hy
  | error e =>
    rw [hr] at h
    rw [herror e hr]
    exact ⟨fun hp => h.1 hp.1, h.2⟩

theorem Decides.bind {f : α → Except LoadError β} (h : Decides r P Q)
    (hf : ∀ x, r = .ok x → Q x → Decides (f x) P' R) : Decides (r >>= f) (P ∧ P') R := by
  refine h.next (fun e he => ?_) fun x hx hq => ?_
  · rw [he]
    rfl
  · rw [hx]
    exact hf x hx hq

theorem Decides.exists_ok_iff (h : Decides r P Q) : (∃ x, r = .ok x) ↔ P := by
  cases r with
  | ok x => exact iff_of_true ⟨x, rfl⟩ h.1
  | error e => exact iff_of_false (by simp) h.1

end

/-! ### Annotations -/

variable {graphs : GraphNames}

theorem exists_get?_iff {name : String} :
    (∃ g, graphs.get? name = some g) ↔ name ∈ graphs.keys := by
  constructor
  · intro h
    obtain ⟨g, hg⟩ := h
    exact OrderedMap.mem_keys_of_get? hg
  · intro h
    obtain ⟨⟨k, g⟩, hmem, rfl⟩ := List.mem_map.mp h
    exact ⟨g, OrderedMap.mem_entries_iff.mp hmem⟩

theorem exists_ofName?_iff {name : String} :
    (∃ p, Prim.ofName? name = some p) ↔ ∃ p : Prim, p.name = name := by
  constructor
  · intro h
    obtain ⟨p, hp⟩ := h
    exact ⟨p, Prim.name_of_ofName? hp⟩
  · intro h
    obtain ⟨p, rfl⟩ := h
    exact ⟨p, Prim.ofName?_name p⟩

theorem exists_width?_iff {cs : List Char} : (∃ w, width? cs = some w) ↔
    ∃ digits, (cs = digits ∨ cs = '+' :: digits) ∧ digits ≠ [] ∧
      (∀ d ∈ digits, d.isDigit = true) ∧ decimal digits < 256 := by
  have hdigits : ∀ ds : List Char, (∃ w : UInt8, (if ds ≠ [] ∧ ds.all Char.isDigit then
      if decimal ds < 256 then some (decimal ds).toUInt8 else none else none) = some w) ↔
      ds ≠ [] ∧ (∀ d ∈ ds, d.isDigit = true) ∧ decimal ds < 256 := by
    intro ds
    rw [← List.all_eq_true, ← and_assoc]
    by_cases hds : ds ≠ [] ∧ ds.all Char.isDigit = true
    · rw [if_pos hds]
      by_cases hlt : decimal ds < 256
      · simp [hlt, hds]
      · simp [hlt]
    · rw [if_neg hds]
      exact iff_of_false (by simp) fun h => hds h.1
  unfold width?
  split
  · next ds =>
    refine (hdigits ds).trans ⟨fun h => ⟨ds, Or.inr rfl, h⟩, fun h => ?_⟩
    obtain ⟨digits, hcs | hcs, hne, hall, hlt⟩ := h
    · exact absurd (hall '+' (by simp [← hcs])) (by decide)
    · obtain rfl := (List.cons.inj hcs).2
      exact ⟨hne, hall, hlt⟩
  · next hplus =>
    refine (hdigits cs).trans ⟨fun h => ⟨cs, Or.inl rfl, h⟩, fun h => ?_⟩
    obtain ⟨digits, rfl | hcs, hne, hall, hlt⟩ := h
    · exact ⟨hne, hall, hlt⟩
    · exact absurd hcs (hplus digits)

/-- The types that have names are those whose names are formed well. -/
theorem exists_namedType?_iff {s : String} : (∃ t, namedType? s = some t) ↔ IsTypeName s := by
  by_cases hword : s ∈ ["bool", "str", "env", "nil", "symkey"]
  · refine iff_of_true ?_ (Or.inl hword)
    simp only [List.mem_cons, List.not_mem_nil, or_false] at hword
    rcases hword with rfl | rfl | rfl | rfl | rfl
    all_goals exact ⟨_, rfl⟩
  · have hletter : ∀ (c : Char) (cs : List Char) (make : UInt8 → ScalarType), c ∈ ['i', 'u', 'f'] →
        ((∃ t, (width? cs).map (fun w => Ty.scalar (make w)) = some t) ↔
          ∃ c' ∈ ['i', 'u', 'f'], ∃ digits : List Char,
            (c :: cs = c' :: digits ∨ c :: cs = c' :: '+' :: digits) ∧
            digits ≠ [] ∧ (∀ d ∈ digits, d.isDigit = true) ∧ decimal digits < 256) := by
      intro c cs make hc
      have hwidth : (∃ t, (width? cs).map (fun w => Ty.scalar (make w)) = some t) ↔
          ∃ w, width? cs = some w := by simp
      rw [hwidth, exists_width?_iff]
      constructor
      · intro h
        obtain ⟨digits, hcs, hrest⟩ := h
        exact ⟨c, hc, digits, hcs.imp (congrArg _) (congrArg _), hrest⟩
      · intro h
        obtain ⟨c', -, digits, hcs, hrest⟩ := h
        exact ⟨digits, hcs.imp (fun heq => (List.cons.inj heq).2) fun heq => (List.cons.inj heq).2,
          hrest⟩
    unfold IsTypeName
    rw [or_iff_right hword]
    simp only [List.mem_cons, List.not_mem_nil, or_false, not_or] at hword
    obtain ⟨hbool, hstr, henv, hnil, hkey⟩ := hword
    rw [namedType?, if_neg hbool, if_neg hstr, if_neg henv, if_neg hnil, if_neg hkey]
    split
    · next cs hcs =>
      rw [hcs]
      exact hletter 'i' cs _ (by simp)
    · next cs hcs =>
      rw [hcs]
      exact hletter 'u' cs _ (by simp)
    · next cs hcs =>
      rw [hcs]
      exact hletter 'f' cs _ (by simp)
    · next hi hu hf =>
      refine iff_of_false (by simp) fun h => ?_
      obtain ⟨c, hc, digits, hcs, -⟩ := h
      obtain ⟨cs, hcs⟩ : ∃ cs, s.toList = c :: cs := hcs.elim (fun h => ⟨_, h⟩) fun h => ⟨_, h⟩
      simp only [List.mem_cons, List.not_mem_nil, or_false] at hc
      rcases hc with rfl | rfl | rfl
      · exact hi cs hcs
      · exact hu cs hcs
      · exact hf cs hcs

theorem isFunction_namedType? {s : String} {t : Ty} (h : namedType? s = some t) :
    t.isFunction = false := by
  obtain ⟨x, rfl⟩ | rfl | rfl | rfl := namedType?_cases h
  all_goals rfl

theorem decides_namedTarget (name : String) :
    Decides (namedTarget graphs name) (IsTargetName graphs.keys name) fun _ => True := by
  unfold namedTarget
  by_cases hopaque : name = "opaque"
  · rw [if_pos hopaque]
    exact ⟨Or.inl hopaque, trivial⟩
  · rw [if_neg hopaque]
    cases hg : graphs.get? name with
    | some g => exact ⟨Or.inr (Or.inl (exists_get?_iff.mp ⟨g, hg⟩)), trivial⟩
    | none =>
      cases hp : Prim.ofName? name with
      | some p => exact ⟨Or.inr (Or.inr ⟨p, Prim.name_of_ofName? hp⟩), trivial⟩
      | none =>
        refine ⟨fun h => ?_, by simp⟩
        obtain h | h | h := h
        · exact hopaque h
        · simpa [hg] using exists_get?_iff.mpr h
        · simpa [hp] using exists_ofName?_iff.mpr h

mutual

/-- The annotations that can be looked up are those that name what is there. -/
theorem decides_typeOf : ∀ t : TypeSpec, Decides (typeOf graphs t) (t.Resolves graphs.keys)
    fun a => a.isFunction = t.isFunction
  | .name s => by
    rw [typeOf]
    cases ht : namedType? s with
    | some t => exact ⟨.name (exists_namedType?_iff.mp ⟨t, ht⟩), isFunction_namedType? ht⟩
    | none =>
      refine ⟨fun h => ?_, by simp⟩
      cases h with
      | name h => simpa [ht] using exists_namedType?_iff.mpr h
  | .tuple parts => by
    rw [typeOf]
    refine Decides.congr ((decides_typesOf parts).map (R := fun a => a.isFunction = false)
      fun _ _ => rfl) ⟨.tuple, fun h => ?_⟩ fun _ h => h
    cases h with
    | tuple h => exact h
  | .array element => by
    rw [typeOf]
    refine Decides.congr ((decides_typeOf element).map (R := fun a => a.isFunction = false)
      fun _ _ => rfl) ⟨.array, fun h => ?_⟩ fun _ h => h
    cases h with
    | array h => exact h
  | .function targets => by
    rw [typeOf]
    refine Decides.congr ((decides_targetsOf targets).map (R := fun a => a.isFunction = true)
      fun _ _ => rfl) ⟨.function, fun h => ?_⟩ fun _ h => h
    cases h with
    | function h => exact h

theorem decides_typesOf : ∀ ts : List TypeSpec,
    Decides (typesOf graphs ts) (∀ t ∈ ts, t.Resolves graphs.keys) fun _ => True
  | [] => ⟨fun _ ht => absurd ht List.not_mem_nil, trivial⟩
  | t :: ts => by
    rw [typesOf, List.forall_mem_cons]
    refine (decides_typeOf t).next (fun e he => by rw [he]) fun a ha _ => ?_
    rw [ha]
    exact (decides_typesOf ts).map fun _ _ => trivial

theorem decides_targetOf : ∀ f : FnSpec,
    Decides (targetOf graphs f) (f.Resolves graphs.keys) fun _ => True
  | .name s => by
    refine Decides.congr (decides_namedTarget s) ⟨.name, fun h => ?_⟩ fun _ h => h
    cases h with
    | name h => exact h
  | .bound f args => by
    have hresolves : FnSpec.Resolves graphs.keys (.bound f args) ↔
        IsTargetName graphs.keys f ∧ ∀ t ∈ args, t.Resolves graphs.keys :=
      ⟨fun h => by cases h with | bound hf hargs => exact ⟨hf, hargs⟩, fun h => .bound h.1 h.2⟩
    rw [targetOf, hresolves]
    refine (decides_namedTarget f).next (fun e he => by rw [he]) fun t ht _ => ?_
    rw [ht]
    exact (decides_typesOf args).map fun _ _ => trivial

theorem decides_targetsOf : ∀ fs : List FnSpec,
    Decides (targetsOf graphs fs) (∀ f ∈ fs, f.Resolves graphs.keys) fun _ => True
  | [] => ⟨fun _ hf => absurd hf List.not_mem_nil, trivial⟩
  | f :: fs => by
    rw [targetsOf, List.forall_mem_cons]
    refine (decides_targetOf f).next (fun e he => by rw [he]) fun t ht _ => ?_
    rw [ht]
    exact (decides_targetsOf fs).map fun _ _ => trivial

end

/-- Whether an optional annotation is there, and one of functions, as described. -/
def AnnotatedAs (type : Option Ty) (spec : Option TypeSpec) : Prop :=
  Option.Rel (fun t s => t.isFunction = s.isFunction) type spec

theorem decides_optionalType (t : Option TypeSpec) :
    Decides (optionalType graphs t) (∀ s, t = some s → s.Resolves graphs.keys)
      fun a => AnnotatedAs a t := by
  cases t with
  | none => exact ⟨fun s hs => absurd hs (by simp), Option.Rel.none⟩
  | some t =>
    have hresolves : (∀ s, some t = some s → s.Resolves graphs.keys) ↔ t.Resolves graphs.keys :=
      ⟨fun h => h t rfl, fun h s hs => Option.some.inj hs ▸ h⟩
    rw [optionalType, hresolves]
    exact (decides_typeOf t).map fun a ha => Option.Rel.some ha

theorem decides_optionalTypes (ts : List (Option TypeSpec)) :
    Decides (optionalTypes graphs ts) (∀ t ∈ ts, ∀ s, t = some s → s.Resolves graphs.keys)
      fun as => List.Forall₂ AnnotatedAs as ts := by
  induction ts with
  | nil => exact ⟨fun _ ht => absurd ht List.not_mem_nil, .nil⟩
  | cons t ts ih =>
    rw [optionalTypes, List.forall_mem_cons]
    refine (decides_optionalType t).next (fun e he => by rw [he]) fun a ha hannotated => ?_
    rw [ha]
    exact ih.map fun _ has => .cons hannotated has

/-! ### Constants -/

theorem isConstant_graph_iff {names : List String} {name : String} :
    IsConstant names (.object [("graph", .string name)]) ↔ name ∈ names := by
  constructor
  · intro h
    generalize hv : Json.object [("graph", .string name)] = v at h
    cases h with
    | graph h =>
      obtain rfl : name = _ := by simpa using hv
      exact h
    | _ => simp at hv
  · exact .graph

theorem isConstant_prim_iff {names : List String} {name : String} :
    IsConstant names (.object [("prim", .string name)]) ↔ ∃ p : Prim, p.name = name := by
  constructor
  · intro h
    generalize hv : Json.object [("prim", .string name)] = v at h
    cases h with
    | prim p =>
      obtain rfl : name = p.name := by simpa using hv
      exact ⟨p, rfl⟩
    | _ => simp at hv
  · intro h
    obtain ⟨p, rfl⟩ := h
    exact .prim p

/-- The constants that can be made are those that are described well. -/
theorem constantOf_iff (v : Json) :
    (∃ w, constantOf graphs v = .ok w) ↔ IsConstant graphs.keys v.merged := by
  unfold constantOf
  generalize v.merged = j
  split
  · next b => exact iff_of_true ⟨_, rfl⟩ (.bool b)
  · next i => exact iff_of_true ⟨_, rfl⟩ (.number _)
  · next bits => exact iff_of_true ⟨_, rfl⟩ (.number _)
  · next s => exact iff_of_true ⟨_, rfl⟩ (.string s)
  · next tag w =>
    unfold taggedConstant
    split
    · next k => exact iff_of_true ⟨_, rfl⟩ (.key k)
    · next n => exact iff_of_true ⟨_, rfl⟩ (.float n)
    · next w => exact iff_of_true ⟨_, rfl⟩ (.nil _)
    · next name =>
      rw [isConstant_graph_iff, ← exists_get?_iff]
      cases graphs.get? name <;> simp
    · next name =>
      rw [isConstant_prim_iff, ← exists_ofName?_iff]
      cases Prim.ofName? name <;> simp
    · next hnil hkey hfloat hgraph hprim =>
      refine iff_of_false (by simp) fun h => ?_
      cases h with
      | key k => exact hkey k rfl rfl
      | float n => exact hfloat n rfl rfl
      | nil => exact hnil rfl
      | graph h => exact hgraph _ rfl rfl
      | prim p => exact hprim _ rfl rfl
  · next hbool hwhole hfloat hstring htagged =>
    refine iff_of_false (by simp) fun h => ?_
    cases h with
    | bool b => exact hbool b rfl
    | number n =>
      cases n with
      | whole i => exact hwhole i rfl
      | float bits => exact hfloat bits rfl
    | string s => exact hstring s rfl
    | _ => exact htagged _ _ rfl

/-- A constant is the operation, and has the annotation, that its description says. -/
theorem constantOf_described {v : Json} {w : Value} (h : constantOf graphs v = .ok w) :
    w.prim? = describedPrim? v ∧ (w.type?.bind Ty.targets?).isSome = describesFunction v := by
  unfold constantOf at h
  unfold describedPrim? describesFunction
  generalize v.merged = j at h ⊢
  split at h
  · cases h
    exact ⟨rfl, rfl⟩
  · cases h
    split_ifs <;> exact ⟨rfl, rfl⟩
  · cases h
    exact ⟨rfl, rfl⟩
  · cases h
    exact ⟨rfl, rfl⟩
  · next tag w =>
    unfold taggedConstant at h
    split at h
    · cases h
      exact ⟨rfl, rfl⟩
    · cases h
      exact ⟨rfl, rfl⟩
    · cases h
      exact ⟨rfl, rfl⟩
    · next name =>
      cases hg : graphs.get? name with
      | some g =>
        rw [hg] at h
        cases h
        exact ⟨rfl, rfl⟩
      | none => simp [hg] at h
    · next name =>
      cases hp : Prim.ofName? name with
      | some p =>
        rw [hp] at h
        cases h
        exact ⟨hp.symm, rfl⟩
      | none => simp [hp] at h
    · cases h
  · cases h

end Program

end Midend
