import Midend.Proofs.Demand.Least

/-!
# Graphs that are mapped

A mapping operation runs whatever the function that it maps runs, so mapped functions nest. Only the
targets that are mapped by the apply itself are demanded: below a target that is a mapping operation
in turn nothing is, and the graphs that run there may be cut.
-/

namespace Midend

/-- What is known about the elements of an array. -/
def Ty.element? : Ty → Option Ty
  | .array e => some e
  | _ => none

namespace Target

/-- Whether `t` is a mapping operation that, given arguments with the annotations `args`, applies `t'`
to arguments with the annotations `args'`. What is mapped comes first, bound arguments before others. -/
def Applies (t : Target) (args : List (Option Ty)) (t' : Target) (args' : List (Option Ty)) : Prop :=
  ∃ bound ts rest, t.callee = .ok (.prim .arrayMap, bound) ∧
    bound.map some ++ args = some (.function ts) :: rest ∧ t' ∈ ts ∧
    args' = rest.map (·.bind Ty.element?)

/-- The graphs that run when a target is applied. -/
inductive Runs : Target → List (Option Ty) → GraphId → Prop
  | graph {t : Target} {args : List (Option Ty)} {g : GraphId} {bound : List Ty} :
      t.callee = .ok (.graph g, bound) → Runs t args g
  | mapped {t t' : Target} {args args' : List (Option Ty)} {g : GraphId} :
      t.Applies args t' args' → Runs t' args' g → Runs t args g

end Target

namespace Arena

variable {a : Arena} {n : NodeId} {g : GraphId} {t t' : Target} {ts : List Target}
  {args args' : List (Option Ty)} {ins : List NodeId} {c c' : Calls}

/-- Whether `n` applies `t` to arguments with the annotations `args`. -/
def Invokes (a : Arena) (n : NodeId) (t : Target) (args : List (Option Ty)) : Prop :=
  ∃ f ins ts, a.inputs n = f :: ins ∧ (a.type? f).bind Ty.targets? = some ts ∧ t ∈ ts ∧
    args = ins.map a.type?

theorem mem_calledGraphs {gs : List GraphId} {bound : List Ty} (h : calledGraphs ts = .ok gs)
    (ht : t ∈ ts) (hc : t.callee = .ok (.graph g, bound)) : g ∈ gs := by
  induction ts generalizing gs with
  | nil => exact absurd ht List.not_mem_nil
  | cons t₁ ts ih =>
    unfold calledGraphs at h
    split at h
    · cases h
    · next c bound' hc' =>
      cases hrest : calledGraphs ts with
      | error f => simp [hrest, Except.map] at h
      | ok gs' =>
        rw [hrest] at h
        obtain rfl := Except.ok.inj h
        rcases List.mem_cons.mp ht with rfl | ht
        · rw [hc, Except.ok.injEq, Prod.mk.injEq] at hc'
          exact List.mem_append_left _ (by simp [← hc'.1, Callee.graph?])
        · exact List.mem_append_right _ (ih hrest ht)

theorem mappedGraphs_eq {bound : List Ty} {rest : List (Option Ty)}
    (h : bound.map some ++ ins.map a.type? = some (.function ts) :: rest) :
    a.mappedGraphs n ins bound = calledGraphs ts := by
  unfold mappedGraphs
  cases bound with
  | cons ty bound =>
    obtain ⟨rfl, -⟩ : ty = .function ts ∧ _ := by simpa using h
    rfl
  | nil =>
    cases ins with
    | nil => cases h
    | cons m ins =>
      obtain ⟨hty, -⟩ := List.cons.inj h
      simp [hty, Ty.targets?]

theorem mem_maps_of_callsOf (h : a.callsOf n ins ts c = .ok c') :
    (g ∈ c.maps → g ∈ c'.maps) ∧ ∀ t ∈ ts, ∀ t' args' bound, t.Applies (ins.map a.type?) t' args' →
      t'.callee = .ok (.graph g, bound) → g ∈ c'.maps := by
  induction ts generalizing c with
  | nil =>
    obtain rfl := Except.ok.inj h
    exact ⟨id, fun t ht => absurd ht List.not_mem_nil⟩
  | cons t ts ih =>
    obtain ⟨c₁, hrest, hcases⟩ := callsOf_cons h
    obtain ⟨hkeep, hall⟩ := ih hrest
    refine ⟨fun hg => hkeep ?_, fun t₁ ht₁ t' args' bound' happ hg => ?_⟩
    · rcases hcases with ⟨g', bound, -, rfl⟩ | ⟨bound, gs, -, -, rfl⟩ | ⟨p, bound, -, -, rfl⟩
      · exact hg
      · exact List.mem_append_left _ hg
      · exact hg
    · rcases List.mem_cons.mp ht₁ with rfl | ht₁
      · -- the first target applies something, so it is the mapping operation
        obtain ⟨bound, ts', rest, hc, hfirst, ht', -⟩ := happ
        rcases hcases with ⟨g', _, hc', -⟩ | ⟨bound₁, gs, hc', hgs, rfl⟩ | ⟨p, _, hc', hne, -⟩
        · simp [hc] at hc'
        · obtain rfl : bound = bound₁ := by simpa [hc] using hc'
          rw [mappedGraphs_eq hfirst] at hgs
          exact hkeep (List.mem_append_right _ (mem_calledGraphs hgs ht' hg))
        · obtain ⟨rfl, -⟩ : Prim.arrayMap = p ∧ _ := by simpa [hc] using hc'
          exact absurd rfl hne
      · exact hall t₁ ht₁ t' args' bound' happ hg

theorem mem_maps_of_applies {bound : List Ty} (h : a.calls n = .ok c) (hn : a.Invokes n t args)
    (happ : t.Applies args t' args') (hg : t'.callee = .ok (.graph g, bound)) : g ∈ c.maps := by
  obtain ⟨f, ins, ts, hin, hts, ht, rfl⟩ := hn
  unfold calls at h
  rw [hin] at h
  simp only [hts] at h
  exact (mem_maps_of_callsOf h).2 t ht t' args' bound happ hg

end Arena

namespace Store

variable {s : Store} {ds : OrderedMap NodeId (List Demand)} {g root : GraphId} {n : NodeId}
  {t t' : Target} {args args' : List (Option Ty)} {dead : List (GraphId × List Edge)}

/-- A graph that an apply maps is needed as a whole if the apply is read. -/
theorem Analysed.mem_needed_of_mapped (h : s.Analysed ds) {bound : List Ty} (hn : s.IsRead ds root n)
    (hix : s.arena.indexing? n = none) (hinv : s.arena.Invokes n t args)
    (happ : t.Applies args t' args') (hc : t'.callee = .ok (.graph g, bound))
    (hg : g ∈ s.live.graphs) (hr : (s.arena.ret? g).isSome) : (g, []) ∈ s.needed ds root := by
  obtain ⟨v, hv, pd, m, hat, hm, hu⟩ := hn
  have hlive := h.live_of_under hat hm hu
  have hmem := h.settled.agrees.mem_nodeIds hlive
  have hisApply : s.arena.isApply n = true := by
    obtain ⟨f, ins, ts, hin, -⟩ := hinv
    exact Arena.isApply_of_mem_inputs (m := f) (by simp [hin])
  obtain ⟨o, ho⟩ := exists_hasOrigin h.acyclic h.wellFormed h.demands hlive hmem
  cases ho with
  | indexed hix' _ => simp [hix] at hix'
  | other _ hnot => simp [hisApply] at hnot
  | called _ _ hcalls =>
    have hmaps := Arena.mem_maps_of_applies hcalls hinv happ hc
    have hd := mem_demands_of_charges h.acyclic h.wellFormed h.demands hlive hmem
      (.mapped hix hisApply hcalls hmaps)
    obtain ⟨p, hp, hneeded⟩ := h.exists_needed hv hat hm hu hd hg hr
    obtain rfl : p = [] := List.prefix_nil.mp hp
    exact hneeded

/-- What an apply that is read maps, unless that is a mapping operation in turn, runs graphs that are
needed as a whole and are not reported dead. -/
theorem mapped_kept_of_read (hs : s.Reachable) (hac : s.arena.Acyclic)
    (hroot : root ∈ s.arena.graphIds) (hdead : (s.keepRoots [root]).deadEdges root = .ok dead) :
    ∃ ds, (s.keepRoots [root]).demands = .ok ds ∧ ∀ n t t' args args' g,
      (s.keepRoots [root]).IsRead ds root n → s.arena.indexing? n = none →
      s.arena.Invokes n t args → t.Applies args t' args' →
      (∀ t'' args'', ¬ t'.Applies args' t'' args'') → t'.Runs args' g →
      g ∈ (s.keepRoots [root]).live.graphs → (s.arena.ret? g).isSome →
      (g, []) ∈ (s.keepRoots [root]).needed ds root ∧ (∀ x ∈ dead, x.1 ≠ g) ∧
        ((s.keepRoots [root]).PlainReturns → ∀ p pd,
          ((s.keepRoots [root]).recordOf ds).At (g, p) pd → ∀ x ∈ dead, pd.edge ∉ x.2) := by
  obtain ⟨ds, hds, -⟩ := deadEdges_spec hdead
  have han := hs.analysed hac hroot hds
  refine ⟨ds, hds, fun n t t' args args' g hn hix hinv happ hplain hruns hg hr => ?_⟩
  cases hruns with
  | graph hc =>
    have hneeded := han.mem_needed_of_mapped hn hix hinv happ hc hg hr
    exact ⟨hneeded, han.not_reported hdead fun p _ => partIsLive_of_mem_needed hneeded⟩
  | mapped happ' _ => exact absurd happ' (hplain _ _)

def pickedTargets : List Target := [.graph ⟨1⟩, .bound (.prim .arrayMap) [.function [.graph ⟨0⟩]]]

/-- A graph that maps, over arrays of arrays, one of two functions: a second graph, or the operation
that maps a third graph. -/
def pickedMap : Store := Store.empty.performAll
  [.newGraph "f", .addParameter ⟨0⟩ (some .int64), .setOutput ⟨0⟩ ⟨0⟩,
    .newGraph "h", .addParameter ⟨1⟩ (some (.array .int64)), .setOutput ⟨1⟩ ⟨3⟩,
    .newGraph "main", .addParameter ⟨2⟩ (some (.scalar .bool)),
    .addParameter ⟨2⟩ (some (.array (.array .int64))),
    .constant (.graph ⟨0⟩) (some (.function [.graph ⟨0⟩])),
    .constant (.graph ⟨1⟩) (some (.function [.graph ⟨1⟩])),
    .constant (.prim .arrayMap) (some (.function [.prim .arrayMap])),
    .constant (.prim .bindArgs) (some (.function [.prim .bindArgs])),
    .apply ⟨2⟩ [⟨11⟩, ⟨10⟩, ⟨8⟩]
      (some (.function [.bound (.prim .arrayMap) [.function [.graph ⟨0⟩]]])),
    .constant (.prim .switch) (some (.function [.prim .switch])),
    .apply ⟨2⟩ [⟨13⟩, ⟨6⟩, ⟨9⟩, ⟨12⟩] (some (.function pickedTargets)),
    .apply ⟨2⟩ [⟨10⟩, ⟨14⟩, ⟨7⟩] (some (.array (.array .int64))), .setOutput ⟨2⟩ ⟨15⟩]

theorem called_pickedMap : pickedMap.Called := Called.start.performAll (by decide)

theorem deadEdges_pickedMap :
    (pickedMap.keepRoots [⟨2⟩]).deadEdges ⟨2⟩ = .ok [(⟨0⟩, [⟨⟨2⟩, 1⟩])] := by
  cbv

theorem graphs_pickedMap :
    (pickedMap.keepRoots [⟨2⟩]).live.graphs.toList = [⟨2⟩, ⟨0⟩, ⟨1⟩] := by
  cbv

theorem acyclic_pickedMap : pickedMap.arena.Acyclic :=
  Arena.acyclic_of_lt (by decide)

theorem mem_graphIds_pickedMap : (⟨2⟩ : GraphId) ∈ pickedMap.arena.graphIds := by decide

theorem isRead_pickedMap (hds : (pickedMap.keepRoots [⟨2⟩]).demands = .ok ds) :
    (pickedMap.keepRoots [⟨2⟩]).IsRead ds ⟨2⟩ ⟨15⟩ :=
  have hs := called_pickedMap.reachable
  have han := hs.analysed acyclic_pickedMap mem_graphIds_pickedMap hds
  have hret : pickedMap.arena.ret? ⟨2⟩ = some ⟨17⟩ := by decide
  have hout : pickedMap.arena.slot? ⟨⟨17⟩, 1⟩ = some ⟨15⟩ := by decide
  han.isRead_of_under (hs.live_root mem_graphIds_pickedMap) hret hout (Arena.Under.refl _ _)

theorem invokes_pickedMap : pickedMap.arena.Invokes ⟨15⟩ (.prim .arrayMap)
    [some (.function pickedTargets), some (.array (.array .int64))] :=
  ⟨⟨10⟩, [⟨14⟩, ⟨7⟩], [.prim .arrayMap], rfl, rfl, by simp, rfl⟩

theorem applies_pickedMap {t : Target} (ht : t ∈ pickedTargets) :
    Target.Applies (.prim .arrayMap) [some (.function pickedTargets), some (.array (.array .int64))]
      t [some (.array .int64)] :=
  ⟨[], _, [some (.array (.array .int64))], rfl, rfl, ht, rfl⟩

/-- The second graph is mapped by the apply itself. -/
theorem mapped_kept_of_read_pickedMap : ∃ ds, (pickedMap.keepRoots [⟨2⟩]).demands = .ok ds ∧
    (⟨1⟩, []) ∈ (pickedMap.keepRoots [⟨2⟩]).needed ds ⟨2⟩ := by
  obtain ⟨ds, hds, hall⟩ := mapped_kept_of_read called_pickedMap.reachable acyclic_pickedMap
    mem_graphIds_pickedMap deadEdges_pickedMap
  have hplain : ∀ t args, ¬ Target.Applies (.graph ⟨1⟩) [some (.array .int64)] t args := by
    rintro t args ⟨bound, ts, rest, hc, -⟩
    cases hc
  have hlive : (⟨1⟩ : GraphId) ∈ (pickedMap.keepRoots [⟨2⟩]).live.graphs := by
    rw [OrderedSet.mem_def, graphs_pickedMap]
    decide
  exact ⟨ds, hds, (hall _ _ _ _ _ _ (isRead_pickedMap hds) (by decide) invokes_pickedMap
    (applies_pickedMap (by simp [pickedTargets])) hplain (.graph rfl) hlive (by decide)).1⟩

/-- The third graph runs below the operation that is mapped, and is reported dead. -/
theorem mapped_below_reported_dead :
    pickedMap.Reachable ∧ pickedMap.arena.Acyclic ∧ ∃ ds dead t t' args args',
      (pickedMap.keepRoots [⟨2⟩]).demands = .ok ds ∧
      (pickedMap.keepRoots [⟨2⟩]).deadEdges ⟨2⟩ = .ok dead ∧
      (pickedMap.keepRoots [⟨2⟩]).IsRead ds ⟨2⟩ ⟨15⟩ ∧ pickedMap.arena.indexing? ⟨15⟩ = none ∧
      pickedMap.arena.Invokes ⟨15⟩ t args ∧ t.Applies args t' args' ∧ t'.Runs args' ⟨0⟩ ∧
      ⟨0⟩ ∈ (pickedMap.keepRoots [⟨2⟩]).live.graphs ∧ (pickedMap.arena.ret? ⟨0⟩).isSome ∧
      (⟨0⟩, []) ∉ (pickedMap.keepRoots [⟨2⟩]).needed ds ⟨2⟩ ∧ ∃ x ∈ dead, x.1 = ⟨0⟩ := by
  have hs := called_pickedMap.reachable
  obtain ⟨ds, hds, -⟩ := deadEdges_spec deadEdges_pickedMap
  have han := hs.analysed acyclic_pickedMap mem_graphIds_pickedMap hds
  have hruns : Target.Runs (.bound (.prim .arrayMap) [.function [.graph ⟨0⟩]])
      [some (.array .int64)] ⟨0⟩ :=
    .mapped ⟨[.function [.graph ⟨0⟩]], [.graph ⟨0⟩], [some (.array .int64)], rfl, rfl,
      List.mem_singleton.mpr rfl, rfl⟩ (.graph rfl)
  have hlive : (⟨0⟩ : GraphId) ∈ (pickedMap.keepRoots [⟨2⟩]).live.graphs := by
    rw [OrderedSet.mem_def, graphs_pickedMap]
    decide
  have hreported : ∃ x ∈ [((⟨0⟩ : GraphId), [(⟨⟨2⟩, 1⟩ : Edge)])], x.1 = ⟨0⟩ :=
    ⟨_, List.mem_singleton.mpr rfl, rfl⟩
  have hcut : (⟨0⟩, []) ∉ (pickedMap.keepRoots [⟨2⟩]).needed ds ⟨2⟩ := by
    intro hneeded
    obtain ⟨x, hx, hx0⟩ := hreported
    exact (han.not_reported deadEdges_pickedMap fun p _ =>
      partIsLive_of_mem_needed hneeded).1 x hx hx0
  exact ⟨hs, acyclic_pickedMap, ds, _, _, _, _, _, hds, deadEdges_pickedMap, isRead_pickedMap hds,
    by decide, invokes_pickedMap, applies_pickedMap (by simp [pickedTargets]), hruns, hlive, by decide, hcut,
    hreported⟩

end Store

end Midend
