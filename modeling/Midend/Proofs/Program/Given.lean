import Midend.Program

/-!
# Graphs that annotations name

An annotation names the graphs among the targets of its functions, at any depth.
-/

namespace Midend

mutual

/-- The graphs that an annotation names, those in the types of a typed operation as well. -/
def Ty.namedGraphs : Ty → List GraphId
  | .tuple parts => Ty.namedGraphsOfList parts
  | .array element => element.namedGraphs
  | .function targets => Target.namedGraphsOfList targets
  | .scalar _ | .env | .key | .nil | .dead => []

/-- The graphs that a target names. -/
def Target.namedGraphs : Target → List GraphId
  | .graph g => [g]
  | .typed _ args output => Ty.namedGraphsOfList args ++ output.namedGraphs
  | .bound func args => func.namedGraphs ++ Ty.namedGraphsOfList args
  | .prim _ | .unknown => []

/-- The graphs that some annotations name. -/
def Ty.namedGraphsOfList : List Ty → List GraphId
  | [] => []
  | t :: ts => t.namedGraphs ++ Ty.namedGraphsOfList ts

/-- The graphs that some targets name. -/
def Target.namedGraphsOfList : List Target → List GraphId
  | [] => []
  | t :: ts => t.namedGraphs ++ Target.namedGraphsOfList ts

end

theorem Target.mem_namedGraphsOfList {ts : List Target} {g : GraphId} :
    g ∈ Target.namedGraphsOfList ts ↔ ∃ t ∈ ts, g ∈ t.namedGraphs := by
  induction ts with
  | nil => simp [Target.namedGraphsOfList]
  | cons t ts ih => simp [Target.namedGraphsOfList, ih]

/-- Listing each target once leaves out no graph and adds none. -/
theorem Ty.mem_namedGraphs_functionOf {ts : List Target} {g : GraphId} :
    g ∈ (Ty.functionOf ts).namedGraphs ↔ g ∈ Target.namedGraphsOfList ts := by
  rw [Ty.functionOf, Ty.namedGraphs, Target.mem_namedGraphsOfList, Target.mem_namedGraphsOfList]
  simp only [← OrderedSet.mem_def, OrderedSet.mem_ofList]

/-- By itself a constant is annotated with the graph that it names, if any. -/
theorem Value.namedGraphs_type? {v : Value} {t : Ty} {g : GraphId} (ht : v.type? = some t)
    (hg : g ∈ t.namedGraphs) : v = .graph g := by
  cases v with
  | graph k =>
    obtain rfl := Option.some.inj ht
    simp only [Ty.namedGraphs, Target.namedGraphsOfList, Target.namedGraphs, List.append_nil,
      List.mem_singleton] at hg
    rw [hg]
  | dead => cases ht
  | _ =>
    obtain rfl := Option.some.inj ht
    simp [Ty.namedGraphs, Target.namedGraphsOfList, Target.namedGraphs, Ty.int64, Ty.float64] at hg

namespace Program

variable {graphs : GraphNames} {g : GraphId}

/-- Whether a graph has a name. -/
def Given (graphs : GraphNames) (g : GraphId) : Prop := ∃ name, graphs.get? name = some g

/-- A type that has a name is no type with parts. -/
theorem namedType?_cases {name : String} {t : Ty} (h : namedType? name = some t) :
    (∃ x, t = .scalar x) ∨ t = .env ∨ t = .nil ∨ t = .key := by
  unfold namedType? at h
  have hwidth : ∀ {cs : List Char} {make : UInt8 → ScalarType},
      (width? cs).map (fun w => Ty.scalar (make w)) = some t → ∃ x, t = .scalar x := by
    intro cs make hmap
    obtain ⟨w, -, rfl⟩ := Option.map_eq_some_iff.mp hmap
    exact ⟨make w, rfl⟩
  split at h
  · exact Or.inl ⟨.bool, (Option.some.inj h).symm⟩
  split at h
  · exact Or.inl ⟨.str, (Option.some.inj h).symm⟩
  split at h
  · exact Or.inr (Or.inl (Option.some.inj h).symm)
  split at h
  · exact Or.inr (Or.inr (Or.inl (Option.some.inj h).symm))
  split at h
  · exact Or.inr (Or.inr (Or.inr (Option.some.inj h).symm))
  split at h
  · exact Or.inl (hwidth h)
  · exact Or.inl (hwidth h)
  · exact Or.inl (hwidth h)
  · cases h

theorem namedGraphs_namedType? {name : String} {t : Ty} (h : namedType? name = some t) :
    t.namedGraphs = [] := by
  obtain ⟨x, rfl⟩ | rfl | rfl | rfl := namedType?_cases h
  all_goals rfl

theorem given_namedTarget {name : String} {t : Target} (h : namedTarget graphs name = .ok t)
    (hg : g ∈ t.namedGraphs) : Given graphs g := by
  unfold namedTarget at h
  split at h
  · obtain rfl := Except.ok.inj h
    cases hg
  · split at h
    · next k hk =>
      obtain rfl := Except.ok.inj h
      exact ⟨name, List.mem_singleton.mp hg ▸ hk⟩
    · split at h
      · obtain rfl := Except.ok.inj h
        cases hg
      · cases h

mutual

/-- A described annotation names only graphs that have names. -/
theorem given_typeOf : ∀ (t : TypeSpec) {a : Ty}, typeOf graphs t = .ok a → ∀ g ∈ a.namedGraphs,
    Given graphs g
  | .name s, a, h, g, hg => by
    rw [typeOf] at h
    split at h
    · next t ht =>
      obtain rfl := Except.ok.inj h
      rw [namedGraphs_namedType? ht] at hg
      cases hg
    · cases h
  | .tuple parts, a, h, g, hg => by
    rw [typeOf] at h
    cases hparts : typesOf graphs parts with
    | error e => simp [hparts, Except.map] at h
    | ok as =>
      obtain rfl : Ty.tuple as = a := by simpa [hparts, Except.map] using h
      exact given_typesOf parts hparts g (by simpa [Ty.namedGraphs] using hg)
  | .array element, a, h, g, hg => by
    rw [typeOf] at h
    cases helem : typeOf graphs element with
    | error e => simp [helem, Except.map] at h
    | ok b =>
      obtain rfl : Ty.array b = a := by simpa [helem, Except.map] using h
      exact given_typeOf element helem g (by simpa [Ty.namedGraphs] using hg)
  | .function targets, a, h, g, hg => by
    rw [typeOf] at h
    cases htargets : targetsOf graphs targets with
    | error e => simp [htargets, Except.map] at h
    | ok ts =>
      obtain rfl : Ty.functionOf ts = a := by simpa [htargets, Except.map] using h
      exact given_targetsOf targets htargets g (Ty.mem_namedGraphs_functionOf.mp hg)

theorem given_typesOf : ∀ (ts : List TypeSpec) {as : List Ty}, typesOf graphs ts = .ok as →
    ∀ g ∈ Ty.namedGraphsOfList as, Given graphs g
  | [], as, h, g, hg => by
    obtain rfl := Except.ok.inj h
    cases hg
  | t :: ts, as, h, g, hg => by
    rw [typesOf] at h
    split at h
    · cases h
    · next a ha =>
      cases hrest : typesOf graphs ts with
      | error e => simp [hrest, Except.map] at h
      | ok bs =>
        obtain rfl : a :: bs = as := by simpa [hrest, Except.map] using h
        rcases List.mem_append.mp hg with hg | hg
        · exact given_typeOf t ha g hg
        · exact given_typesOf ts hrest g hg

theorem given_targetOf : ∀ (f : FnSpec) {t : Target}, targetOf graphs f = .ok t →
    ∀ g ∈ t.namedGraphs, Given graphs g
  | .name s, t, h, g, hg => given_namedTarget h hg
  | .bound f args, t, h, g, hg => by
    rw [targetOf] at h
    split at h
    · cases h
    · next func hfunc =>
      cases hargs : typesOf graphs args with
      | error e => simp [hargs, Except.map] at h
      | ok as =>
        obtain rfl : Target.bound func as = t := by simpa [hargs, Except.map] using h
        rcases List.mem_append.mp hg with hg | hg
        · exact given_namedTarget hfunc hg
        · exact given_typesOf args hargs g hg

theorem given_targetsOf : ∀ (fs : List FnSpec) {ts : List Target}, targetsOf graphs fs = .ok ts →
    ∀ g ∈ Target.namedGraphsOfList ts, Given graphs g
  | [], ts, h, g, hg => by
    obtain rfl := Except.ok.inj h
    cases hg
  | f :: fs, ts, h, g, hg => by
    rw [targetsOf] at h
    split at h
    · cases h
    · next t ht =>
      cases hrest : targetsOf graphs fs with
      | error e => simp [hrest, Except.map] at h
      | ok us =>
        obtain rfl : t :: us = ts := by simpa [hrest, Except.map] using h
        rcases List.mem_append.mp hg with hg | hg
        · exact given_targetOf f ht g hg
        · exact given_targetsOf fs hrest g hg

end

/-- Whether an optional annotation names only graphs that have names. -/
def Covers (graphs : GraphNames) (type : Option Ty) : Prop :=
  ∀ t, type = some t → ∀ g ∈ t.namedGraphs, Given graphs g

theorem covers_optionalTypes {ts : List (Option TypeSpec)} {as : List (Option Ty)}
    (h : optionalTypes graphs ts = .ok as) : ∀ a ∈ as, Covers graphs a := by
  induction ts generalizing as with
  | nil =>
    obtain rfl := Except.ok.inj h
    exact fun a ha => absurd ha List.not_mem_nil
  | cons t ts ih =>
    unfold optionalTypes at h
    split at h
    · cases h
    · next a ha =>
      cases hrest : optionalTypes graphs ts with
      | error e => simp [hrest, Except.map] at h
      | ok bs =>
        obtain rfl : a :: bs = as := by simpa [hrest, Except.map] using h
        intro b hb
        rcases List.mem_cons.mp hb with rfl | hb
        · intro x hx
          cases t with
          | none =>
            obtain rfl := Except.ok.inj ha
            cases hx
          | some t =>
            cases htype : typeOf graphs t with
            | error e => simp [optionalType, htype, Except.map] at ha
            | ok y =>
              obtain rfl : some y = b := by simpa [optionalType, htype, Except.map] using ha
              exact given_typeOf t (htype.trans (congrArg _ (Option.some.inj hx)))
        · exact ih hrest b hb

theorem length_optionalTypes {ts : List (Option TypeSpec)} {as : List (Option Ty)}
    (h : optionalTypes graphs ts = .ok as) : as.length = ts.length := by
  induction ts generalizing as with
  | nil =>
    obtain rfl := Except.ok.inj h
    rfl
  | cons t ts ih =>
    unfold optionalTypes at h
    split at h
    · cases h
    · next a ha =>
      cases hrest : optionalTypes graphs ts with
      | error e => simp [hrest, Except.map] at h
      | ok bs =>
        obtain rfl : a :: bs = as := by simpa [hrest, Except.map] using h
        simp [ih hrest]

end Program

end Midend
