import Mathlib
import Midend.Proofs.Arena.SameShape
import Midend.Proofs.Demand.Charged
import Midend.Proofs.Demand.Cuts
import Midend.Proofs.Demand.Least

/-!
# More targets

An annotation is widened by listing more targets for the functions in it, at any depth: in tuples
and arrays, and for the arguments bound to a target. An apply of a function with more targets names
more graphs and maps more, and an output mentions more.
-/

namespace Midend

/-! ### Wider annotations -/

mutual

/-- Whether `b` is `a` with more targets listed for functions in it. -/
def Ty.WidenedTo : Ty → Ty → Prop
  | .function ts, .function us => Target.EachIn ts us
  | .tuple as, .tuple bs => Ty.EachTo as bs
  | .array a, .array b => a.WidenedTo b
  | a, b => a = b

/-- Whether `u` is `t` with more targets listed for functions among the annotations in it. -/
def Target.WidenedTo : Target → Target → Prop
  | .bound f as, .bound g bs => f.WidenedTo g ∧ Ty.EachTo as bs
  | .typed p as a, .typed q bs b => p = q ∧ Ty.EachTo as bs ∧ a.WidenedTo b
  | t, u => t = u

/-- Whether each annotation is widened to the one at the same place of another list. -/
def Ty.EachTo : List Ty → List Ty → Prop
  | [], [] => True
  | a :: as, b :: bs => a.WidenedTo b ∧ Ty.EachTo as bs
  | _, _ => False

/-- Whether each target is widened to one of another list. -/
def Target.EachIn : List Target → List Target → Prop
  | [], _ => True
  | t :: ts, us => (∃ u ∈ us, t.WidenedTo u) ∧ Target.EachIn ts us

end

theorem Target.eachIn_iff {ts us : List Target} :
    Target.EachIn ts us ↔ ∀ t ∈ ts, ∃ u ∈ us, t.WidenedTo u := by
  induction ts with
  | nil => simp [Target.EachIn]
  | cons t ts ih => simp [Target.EachIn, ih]

mutual

theorem Ty.widenedTo_refl : ∀ a : Ty, a.WidenedTo a
  | .function ts => by
    rw [Ty.WidenedTo]
    exact Target.eachIn_refl ts ts fun t ht => ht
  | .tuple as => by
    rw [Ty.WidenedTo]
    exact Ty.eachTo_refl as
  | .array a => by
    rw [Ty.WidenedTo]
    exact Ty.widenedTo_refl a
  | .scalar _ => by simp [Ty.WidenedTo]
  | .env => by simp [Ty.WidenedTo]
  | .key => by simp [Ty.WidenedTo]
  | .nil => by simp [Ty.WidenedTo]
  | .dead => by simp [Ty.WidenedTo]

theorem Target.widenedTo_refl : ∀ t : Target, t.WidenedTo t
  | .graph _ => by simp [Target.WidenedTo]
  | .prim _ => by simp [Target.WidenedTo]
  | .typed _ as a => by
    rw [Target.WidenedTo]
    exact ⟨rfl, Ty.eachTo_refl as, Ty.widenedTo_refl a⟩
  | .bound f as => by
    rw [Target.WidenedTo]
    exact ⟨Target.widenedTo_refl f, Ty.eachTo_refl as⟩
  | .unknown => by simp [Target.WidenedTo]

theorem Ty.eachTo_refl : ∀ as : List Ty, Ty.EachTo as as
  | [] => by simp [Ty.EachTo]
  | a :: as => by
    rw [Ty.EachTo]
    exact ⟨Ty.widenedTo_refl a, Ty.eachTo_refl as⟩

theorem Target.eachIn_refl : ∀ ts us : List Target, ts ⊆ us → Target.EachIn ts us
  | [], _, _ => by simp [Target.EachIn]
  | t :: ts, us, h => by
    rw [Target.EachIn]
    exact ⟨⟨t, h List.mem_cons_self, Target.widenedTo_refl t⟩,
      Target.eachIn_refl ts us fun u hu => h (List.mem_cons_of_mem t hu)⟩

end

theorem Ty.EachTo.append {as bs as' bs' : List Ty} (h : Ty.EachTo as bs) (h' : Ty.EachTo as' bs') :
    Ty.EachTo (as ++ as') (bs ++ bs') := by
  induction as generalizing bs with
  | nil =>
    cases bs with
    | nil => exact h'
    | cons b bs => simp [Ty.EachTo] at h
  | cons a as ih =>
    cases bs with
    | nil => simp [Ty.EachTo] at h
    | cons b bs =>
      rw [Ty.EachTo] at h
      rw [List.cons_append, List.cons_append, Ty.EachTo]
      exact ⟨h.1, ih h.2⟩

/-- A widened target has the same callee, with wider annotations of the bound arguments. -/
theorem Target.WidenedTo.callee : ∀ {t u : Target} {k : Callee} {as : List Ty}, t.WidenedTo u →
    t.callee = .ok (k, as) → ∃ bs, u.callee = .ok (k, bs) ∧ Ty.EachTo as bs
  | .bound f as, u, k, cs, h, hc => by
    cases u with
    | bound g bs =>
      rw [Target.WidenedTo] at h
      cases hf : f.callee with
      | error x => simp [Target.callee, hf, Except.map] at hc
      | ok r =>
        obtain ⟨k', before⟩ := r
        obtain ⟨rfl, rfl⟩ : k' = k ∧ before ++ as = cs := by
          simpa [Target.callee, hf, Except.map] using hc
        obtain ⟨before', hg, heach⟩ := h.1.callee hf
        exact ⟨before' ++ bs, by simp [Target.callee, hg, Except.map], heach.append h.2⟩
    | _ => simp [Target.WidenedTo] at h
  | .typed p as a, u, k, cs, h, hc => by
    cases u with
    | typed q bs b =>
      rw [Target.WidenedTo] at h
      obtain ⟨rfl, rfl⟩ : Callee.prim p = k ∧ [] = cs := by simpa [Target.callee] using hc
      exact ⟨[], by simp [Target.callee, h.1], by simp [Ty.EachTo]⟩
    | _ => simp [Target.WidenedTo] at h
  | .graph g, u, k, cs, h, hc => by
    obtain rfl : Target.graph g = u := by simpa [Target.WidenedTo] using h
    exact ⟨cs, hc, Ty.eachTo_refl cs⟩
  | .prim p, u, k, cs, h, hc => by
    obtain rfl : Target.prim p = u := by simpa [Target.WidenedTo] using h
    exact ⟨cs, hc, Ty.eachTo_refl cs⟩
  | .unknown, u, k, cs, h, hc => by
    obtain rfl : Target.unknown = u := by simpa [Target.WidenedTo] using h
    exact ⟨cs, hc, Ty.eachTo_refl cs⟩

theorem Target.AnyCalls.widened {ts us : List Target} {g : GraphId} (h : Target.AnyCalls ts g)
    (hw : Target.EachIn ts us) : Target.AnyCalls us g := by
  obtain ⟨t, ht, bound, hc⟩ := h
  obtain ⟨u, hu, htu⟩ := Target.eachIn_iff.mp hw t ht
  obtain ⟨bound', hc', -⟩ := htu.callee hc
  exact ⟨u, hu, bound', hc'⟩

theorem Ty.WidenedTo.targets? {a b : Ty} {ts : List Target} (h : a.WidenedTo b)
    (hts : a.targets? = some ts) : ∃ us, b.targets? = some us ∧ Target.EachIn ts us := by
  cases a with
  | function ts' =>
    obtain rfl := Option.some.inj hts
    cases b with
    | function us =>
      rw [Ty.WidenedTo] at h
      exact ⟨us, rfl, h⟩
    | _ => simp [Ty.WidenedTo] at h
  | _ => cases hts

theorem Target.graphs_subset_of_mem {u : Target} {us : List Target} (h : u ∈ us) :
    u.graphs ⊆ Target.graphsOfList us := by
  induction us with
  | nil => cases h
  | cons u' us ih =>
    rw [Target.graphsOfList]
    rcases List.mem_cons.mp h with rfl | h
    · exact List.subset_append_left _ _
    · exact List.subset_append_of_subset_right _ (ih h)

mutual

/-- A widened annotation names the graphs that were named before. -/
theorem Ty.WidenedTo.graphs_subset : ∀ {a b : Ty}, a.WidenedTo b → a.graphs ⊆ b.graphs
  | .function ts, b, h => by
    cases b with
    | function us =>
      rw [Ty.WidenedTo] at h
      rw [Ty.graphs, Ty.graphs]
      exact Target.graphsOfList_subset h
    | _ => simp [Ty.WidenedTo] at h
  | .tuple as, b, h => by
    cases b with
    | tuple bs =>
      rw [Ty.WidenedTo] at h
      rw [Ty.graphs, Ty.graphs]
      exact Ty.graphsOfList_subset h
    | _ => simp [Ty.WidenedTo] at h
  | .array a, b, h => by
    cases b with
    | array b =>
      rw [Ty.WidenedTo] at h
      rw [Ty.graphs, Ty.graphs]
      exact h.graphs_subset
    | _ => simp [Ty.WidenedTo] at h
  | .scalar _, _, _ => by simp [Ty.graphs]
  | .env, _, _ => by simp [Ty.graphs]
  | .key, _, _ => by simp [Ty.graphs]
  | .nil, _, _ => by simp [Ty.graphs]
  | .dead, _, _ => by simp [Ty.graphs]

theorem Target.WidenedTo.graphs_subset : ∀ {t u : Target}, t.WidenedTo u → t.graphs ⊆ u.graphs
  | .bound f as, u, h => by
    cases u with
    | bound g bs =>
      rw [Target.WidenedTo] at h
      rw [Target.graphs, Target.graphs]
      exact List.append_subset.mpr ⟨List.subset_append_of_subset_left _ h.1.graphs_subset,
        List.subset_append_of_subset_right _ (Ty.graphsOfList_subset h.2)⟩
    | _ => simp [Target.WidenedTo] at h
  | .graph g, u, h => by
    obtain rfl : Target.graph g = u := by simpa [Target.WidenedTo] using h
    exact List.Subset.refl _
  | .prim _, _, _ => by simp [Target.graphs]
  | .typed _ _ _, _, _ => by simp [Target.graphs]
  | .unknown, _, _ => by simp [Target.graphs]

theorem Ty.graphsOfList_subset : ∀ {as bs : List Ty}, Ty.EachTo as bs →
    Ty.graphsOfList as ⊆ Ty.graphsOfList bs
  | [], _, _ => by simp [Ty.graphsOfList]
  | a :: as, [], h => by simp [Ty.EachTo] at h
  | a :: as, b :: bs, h => by
    rw [Ty.EachTo] at h
    rw [Ty.graphsOfList, Ty.graphsOfList]
    exact List.append_subset.mpr ⟨List.subset_append_of_subset_left _ h.1.graphs_subset,
      List.subset_append_of_subset_right _ (Ty.graphsOfList_subset h.2)⟩

theorem Target.graphsOfList_subset : ∀ {ts us : List Target}, Target.EachIn ts us →
    Target.graphsOfList ts ⊆ Target.graphsOfList us
  | [], _, _ => by simp [Target.graphsOfList]
  | t :: ts, us, h => by
    rw [Target.EachIn] at h
    obtain ⟨⟨u, hu, htu⟩, hrest⟩ := h
    rw [Target.graphsOfList]
    exact List.append_subset.mpr ⟨List.Subset.trans htu.graphs_subset (Target.graphs_subset_of_mem hu),
      Target.graphsOfList_subset hrest⟩

end

/-! ### Wider arenas -/

namespace Arena

variable {a b : Arena} {n u c : NodeId} {g : GraphId} {p : Path} {args : List NodeId}
  {bound bound' : List Ty} {ts : List Target}

/-- Whether two arenas differ only in that annotations of the second list more targets. -/
structure WidenedTo (a b : Arena) : Prop extends a.SameShape b where
  type : ∀ n, Option.Rel Ty.WidenedTo (a.type? n) (b.type? n)

namespace WidenedTo

variable (h : a.WidenedTo b)
include h

theorem exists_type {t : Ty} (ht : a.type? n = some t) : ∃ t', b.type? n = some t' ∧ t.WidenedTo t' := by
  have hrel := h.type n
  rw [ht] at hrel
  cases htype : b.type? n with
  | none => simp [htype] at hrel
  | some t' =>
    rw [htype, Option.rel_some_some] at hrel
    exact ⟨t', rfl, hrel⟩

theorem exists_targets (hts : (a.type? n).bind Ty.targets? = some ts) :
    ∃ us, (b.type? n).bind Ty.targets? = some us ∧ Target.EachIn ts us := by
  obtain ⟨t, ht, hts⟩ := Option.bind_eq_some_iff.mp hts
  obtain ⟨t', ht', hw⟩ := h.exists_type ht
  obtain ⟨us, hus, heach⟩ := hw.targets? hts
  exact ⟨us, by simpa [ht'] using hus, heach⟩

theorem callNames (hn : a.CallNames n g) : b.CallNames n g := by
  obtain ⟨f, ts, t, bound, hf, hts, ht, hc⟩ := hn
  obtain ⟨us, hus, heach⟩ := h.exists_targets hts
  obtain ⟨u, hu, bound', hc'⟩ := Target.AnyCalls.widened ⟨t, ht, bound, hc⟩ heach
  exact ⟨f, us, u, bound', (h.slot? _).trans hf, hus, hu, hc'⟩

/-- What is mapped has wider targets. -/
theorem exists_mapped (hbound : Ty.EachTo bound bound')
    (hts : (a.mappedType? args bound).bind Ty.targets? = some ts) :
    ∃ us, (b.mappedType? args bound').bind Ty.targets? = some us ∧ Target.EachIn ts us := by
  cases bound with
  | nil =>
    cases bound' with
    | cons t' bound' => simp [Ty.EachTo] at hbound
    | nil =>
      cases args with
      | nil => simp [mappedType?] at hts
      | cons m args => simpa [mappedType?] using h.exists_targets (by simpa [mappedType?] using hts)
  | cons t bound =>
    cases bound' with
    | nil => simp [Ty.EachTo] at hbound
    | cons t' bound' =>
      rw [Ty.EachTo] at hbound
      simpa [mappedType?] using hbound.1.targets? (by simpa [mappedType?] using hts)

theorem mapNames (hn : a.MapNames n g) : b.MapNames n g := by
  obtain ⟨f, args, ts, t, bound, us, hin, hts, ht, hc, hus, hcalls⟩ := hn
  obtain ⟨ts', hts', heach⟩ := h.exists_targets hts
  obtain ⟨t', ht', htt'⟩ := Target.eachIn_iff.mp heach t ht
  obtain ⟨bound', hc', hbound⟩ := htt'.callee hc
  obtain ⟨us', hus', heach'⟩ := h.exists_mapped hbound hus
  exact ⟨f, args, ts', t', bound', us', (h.inputs n).trans hin, hts', ht', hc', hus',
    hcalls.widened heach'⟩

theorem picks (hn : a.Picks n p c) : b.Picks n p c := by
  induction hn with
  | here hnone happ => exact .here ((h.indexing? _).trans hnone) ((h.isApply _).trans happ)
  | key hix _ ih => exact .key ((h.indexing? _).trans hix) ih

theorem consumes (hn : a.Consumes u n) : b.Consumes u n := by
  simpa only [Consumes, h.indexing?, h.inputs] using hn

theorem graphsAt_subset (n : NodeId) : a.graphsAt n ⊆ b.graphsAt n := by
  rw [graphsAt, graphsAt, h.heldGraph?]
  refine List.append_subset.mpr ⟨?_, List.subset_append_right _ _⟩
  cases ht : a.type? n with
  | none => simp
  | some t =>
    obtain ⟨t', ht', hw⟩ := h.exists_type ht
    rw [ht']
    exact List.subset_append_of_subset_left _ hw.graphs_subset

end WidenedTo

end Arena

/-! ### Wider stores -/

namespace Store

variable {s s' : Store} {ds ds' : OrderedMap NodeId (List Demand)} {g root : GraphId} {p : Path}
  {n : NodeId} {d : Demand} {v : Part} {pd : PartDeps} {dead dead' : List (GraphId × List Edge)}

/-- Whether two stores differ only in that annotations of the second list more targets. -/
structure WidenedTo (s s' : Store) : Prop where
  arena : s.arena.WidenedTo s'.arena
  live : s'.live = s.live
  roots : s'.roots = s.roots

theorem WidenedTo.keepRoots (h : s.WidenedTo s') (gs : List GraphId) :
    (s.keepRoots gs).WidenedTo (s'.keepRoots gs) :=
  ⟨h.arena, live_keepRoots_of_sameShape h.arena.toSameShape h.live gs, rfl⟩

/-- The last slot that is listed at a path. -/
def lastSlot? (s : Store) (g : GraphId) (p : Path) : Option Edge :=
  ((s.live.parts s.arena g).foldl (fun m x => m.insert x.1 x.2) OrderedMap.empty).get? p

theorem get?_putParts_eq_map (f : Edge → PartDeps) (xs : List (Path × Edge)) (p : Path)
    (m : OrderedMap Path PartDeps) (m' : OrderedMap Path Edge)
    (h : m.get? p = (m'.get? p).map f) :
    (xs.foldl (fun m x => m.insert x.1 (f x.2)) m).get? p =
      ((xs.foldl (fun m x => m.insert x.1 x.2) m').get? p).map f := by
  induction xs generalizing m m' with
  | nil => exact h
  | cons x xs ih =>
    refine ih _ _ ?_
    rw [OrderedMap.get?_insert, OrderedMap.get?_insert]
    split
    · rfl
    · exact h

/-- A part is recorded with the last slot that is listed at its path. -/
theorem at_recordOf_iff : (s.recordOf ds).At v pd ↔
    v.1 ∈ s.live.graphs ∧ ∃ e, s.lastSlot? v.1 v.2 = some e ∧ s.partDepsAt ds e = pd := by
  have hget : ∀ g p, (s.partDeps ds g).get? p = (s.lastSlot? g p).map (s.partDepsAt ds) := fun g p =>
    get?_putParts_eq_map (s.partDepsAt ds) (s.live.parts s.arena g) p .empty .empty rfl
  constructor
  · rintro ⟨parts, hg, hp⟩
    obtain ⟨hlive, rfl⟩ := get?_recordOf_eq_some_iff.mp hg
    rw [hget, Option.map_eq_some_iff] at hp
    exact ⟨hlive, hp⟩
  · rintro ⟨hlive, hslot⟩
    refine ⟨_, get?_recordOf_eq_some_iff.mpr ⟨hlive, rfl⟩, ?_⟩
    rw [hget, Option.map_eq_some_iff]
    exact hslot

namespace WidenedTo

variable (h : s.WidenedTo s')
include h

/-- The same parts are recorded with the same slots. -/
theorem at_iff {e : Edge} : (∃ pd, (s'.recordOf ds').At v pd ∧ pd.edge = e) ↔
    ∃ pd, (s.recordOf ds).At v pd ∧ pd.edge = e := by
  have hslot : s'.lastSlot? v.1 v.2 = s.lastSlot? v.1 v.2 := by
    simp only [lastSlot?, h.live, h.arena.parts]
  simp only [at_recordOf_iff, h.live, hslot]
  constructor
  · rintro ⟨_, ⟨hlive, e, he, rfl⟩, rfl⟩
    exact ⟨_, ⟨hlive, e, he, rfl⟩, rfl⟩
  · rintro ⟨_, ⟨hlive, e, he, rfl⟩, rfl⟩
    exact ⟨_, ⟨hlive, e, he, rfl⟩, rfl⟩

theorem has_iff : (s'.recordOf ds').Has v ↔ (s.recordOf ds).Has v := by
  constructor
  · rintro ⟨pd, hat⟩
    obtain ⟨pd', hat', -⟩ := h.at_iff.mp ⟨pd, hat, rfl⟩
    exact ⟨pd', hat'⟩
  · rintro ⟨pd, hat⟩
    obtain ⟨pd', hat', -⟩ := h.at_iff.mpr ⟨pd, hat, rfl⟩
    exact ⟨pd', hat'⟩

theorem escaping_subset (root : GraphId) : s.escaping root ⊆ s'.escaping root := by
  intro g hg
  rw [escaping, ← OrderedSet.mem_def, OrderedSet.mem_ofList, List.mem_flatMap] at hg ⊢
  obtain ⟨x, hx, hg⟩ := hg
  refine ⟨x, by rwa [h.live, h.arena.parts], ?_⟩
  cases hn : s.arena.slot? x.2 with
  | none => simp [hn] at hg
  | some n =>
    have hn' : s'.arena.slot? x.2 = some n := (h.arena.slot? x.2).trans hn
    simp only [hn, hn'] at hg ⊢
    exact h.arena.graphsAt_subset n hg

variable (han : s.Analysed ds) (han' : s'.Analysed ds')
include han han'

/-- What was demanded with a node still is. -/
theorem demands_subset (n : NodeId) : (ds.get? n).getD [] ⊆ (ds'.get? n).getD [] := by
  intro d hd
  rcases (han.settled.mem_demands_iff han.acyclic han.demands).mp hd with
    ⟨⟨u, hu, hconsumes⟩, c, hpick, hname⟩ | ⟨hn, hnone, hp, hmap⟩
  · refine (han'.settled.mem_demands_iff han'.acyclic han'.demands).mpr (Or.inl ⟨⟨u, ?_, ?_⟩, c, ?_⟩)
    · rwa [h.live]
    · exact h.arena.consumes hconsumes
    · exact ⟨h.arena.picks hpick, h.arena.callNames hname⟩
  · refine (han'.settled.mem_demands_iff han'.acyclic han'.demands).mpr (Or.inr ⟨?_, ?_, hp, ?_⟩)
    · rwa [h.live]
    · exact (h.arena.indexing? n).trans hnone
    · exact h.arena.mapNames hmap

theorem demandsUnder_subset (hd : d ∈ s.demandsUnder ds n) : d ∈ s'.demandsUnder ds' n := by
  obtain ⟨m, hu, hd⟩ := mem_demandsUnder.mp hd
  exact mem_demandsUnder.mpr ⟨m, h.arena.under_iff.mpr hu, h.demands_subset han han' m hd⟩

/-- What was needed still is: what is needed now is closed for the store with fewer targets, too. -/
theorem needed_subset (hv : v ∈ s.needed ds root) : v ∈ s'.needed ds' root := by
  have hclosed : s'.Closed (s'.recordOf ds') root {v | v ∈ s'.needed ds' root} := han'.closed_needed
  have hhas : ∀ v, (s'.recordOf ds').Has v ↔ (s.recordOf ds).Has v := fun v => h.has_iff
  have hlongest : ∀ g p q, (s'.recordOf ds').Longest g p q ↔ (s.recordOf ds).Longest g p q :=
    fun g p q => by simp only [Dependencies.Longest, hhas]
  refine han.needed_subset (S := {v | v ∈ s'.needed ds' root}) ⟨fun p hp => ?_,
    fun g p hg hp => ?_, fun v pd d hv hat hd hrec hret => ?_⟩ v hv
  · exact hclosed.root_mem p ((hhas _).mpr hp)
  · exact hclosed.escaping_mem g p (h.escaping_subset root hg) ((hhas _).mpr hp)
  · obtain ⟨pd', hat', hedge⟩ := h.at_iff.mpr ⟨pd, hat, rfl⟩
    obtain ⟨-, -, m, -, -, -, hm, hdem, -⟩ := han.of_at hat
    obtain ⟨-, -, m', -, -, -, hm', hdem', -⟩ := han'.of_at hat'
    obtain rfl : m = m' := by
      rw [hedge, h.arena.slot?, hm] at hm'
      exact Option.some.inj hm'
    rw [hdem] at hd
    have hd' : d ∈ pd'.demands := by
      rw [hdem']
      exact h.demandsUnder_subset han han' hd
    have hrec' : ((s'.recordOf ds').get? d.graph).isSome := by
      obtain ⟨parts, hparts⟩ := Option.isSome_iff_exists.mp hrec
      have hlive := (get?_recordOf_eq_some_iff.mp hparts).1
      rw [get?_recordOf, if_pos (by rwa [h.live])]
      rfl
    have hret' : (s'.arena.ret? d.graph).isSome := by rwa [h.arena.ret?]
    obtain ⟨q, hq, hmem⟩ := hclosed.demand_mem v pd' d hv hat' hd' hrec' hret'
    exact ⟨q, (hlongest _ _ _).mp hq, hmem⟩

end WidenedTo

/-- More targets keep more alive: if two stores without cycles differ only in that annotations of the
second list more targets, and the dead parts under a root are found for both, every part that is live
in the first is live in the second, and every slot reported dead for the second is reported dead for
the same graph for the first. -/
theorem live_of_widened (hs : s.Reachable) (hs' : s'.Reachable) (hac : s.arena.Acyclic)
    (hw : s.WidenedTo s') (hroot : root ∈ s.arena.graphIds)
    (hdead : (s.keepRoots [root]).deadEdges root = .ok dead)
    (hdead' : (s'.keepRoots [root]).deadEdges root = .ok dead') :
    ∃ deps deps', (s.keepRoots [root]).dependencies = .ok deps ∧
      (s'.keepRoots [root]).dependencies = .ok deps' ∧
      (∀ g p, partIsLive ((s.keepRoots [root]).neededParts deps root) g p = true →
        partIsLive ((s'.keepRoots [root]).neededParts deps' root) g p = true) ∧
      ∀ g e, (∃ x ∈ dead', x.1 = g ∧ e ∈ x.2) → ∃ x ∈ dead, x.1 = g ∧ e ∈ x.2 := by
  obtain ⟨ds, hds, hiff⟩ := deadEdges_spec hdead
  obtain ⟨ds', hds', hiff'⟩ := deadEdges_spec hdead'
  have hwide : (s.keepRoots [root]).WidenedTo (s'.keepRoots [root]) := hw.keepRoots [root]
  have han : (s.keepRoots [root]).Analysed ds := hs.analysed hac hroot hds
  have han' : (s'.keepRoots [root]).Analysed ds' :=
    hs'.analysed (hw.arena.acyclic_iff.mpr hac) (hw.arena.mem_graphIds_iff.mpr hroot) hds'
  have hneeded : ∀ v ∈ (s.keepRoots [root]).needed ds root,
      v ∈ (s'.keepRoots [root]).needed ds' root := fun v hv => hwide.needed_subset han han' hv
  refine ⟨_, _, dependencies_eq_ok_iff.mpr ⟨ds, hds, rfl⟩, dependencies_eq_ok_iff.mpr ⟨ds', hds', rfl⟩,
    fun g p hlive => ?_, fun g e he => ?_⟩
  · obtain ⟨q, hq, hpq⟩ := partIsLive_iff.mp hlive
    exact partIsLive_iff.mpr ⟨q, hneeded _ hq, hpq⟩
  · obtain ⟨p, pd', hat', hedge', hnone⟩ := (hiff' g e).mp he
    obtain ⟨pd, hat, hedge⟩ : ∃ pd, ((s.keepRoots [root]).recordOf ds).At (g, p) pd ∧ pd.edge = e :=
      hwide.at_iff.mp ⟨pd', hat', hedge'⟩
    exact (hiff g e).mpr ⟨p, pd, hat, hedge, fun q hq => hnone q (hneeded _ hq)⟩

/-- An annotation that lists more targets makes the store wider. -/
theorem widenedTo_setType {t u : Ty} (ht : s.arena.type? n = some t) (htu : t.WidenedTo u) :
    s.WidenedTo (s.setType n (some u)) := by
  have hnode : ∀ m, (s.setType n (some u)).arena.node? m =
      if m = n then (s.arena.node? m).map fun d => { d with type := some u } else s.arena.node? m :=
    fun m => s.arena.node?_modifyNode n _
  have hread : ∀ {β : Type} (f : Option Node → β),
      (∀ d : Node, f (some { d with type := some u }) = f (some d)) →
      ∀ m, f ((s.setType n (some u)).arena.node? m) = f (s.arena.node? m) := by
    intro β f hf m
    rw [hnode]
    split
    · cases s.arena.node? m with
      | none => rfl
      | some d => exact hf d
    · rfl
  refine ⟨⟨⟨?_, hread (Option.map Node.kind) fun _ => rfl, hread (Option.bind · Node.owner) fun _ => rfl,
    fun g => rfl⟩, fun m => ?_⟩, rfl, rfl⟩
  · simp [setType, Arena.modifyNode]
  · by_cases hm : m = n
    · subst hm
      obtain ⟨d, hd, hdt⟩ := Option.bind_eq_some_iff.mp ht
      have htype : (s.setType m (some u)).arena.type? m = some u := by
        rw [Arena.type?, hnode, if_pos rfl, hd]
        rfl
      rw [ht, htype]
      exact .some htu
    · have htype : (s.setType n (some u)).arena.type? m = s.arena.type? m := by
        rw [Arena.type?, hnode, if_neg hm]
        rfl
      rw [htype]
      cases s.arena.type? m with
      | none => exact .none
      | some t => exact .some (Ty.widenedTo_refl t)

/-- A call of one of two graphs that return pairs, of which the annotation lists the first only. -/
def switchedPair : Store := Store.empty.performAll
  [.constant (.prim .makeTuple) (some (.function [.prim .makeTuple])),
    .newGraph "f", .addParameter ⟨0⟩ (some .int64), .apply ⟨0⟩ [⟨0⟩, ⟨1⟩, ⟨1⟩] none,
    .setOutput ⟨0⟩ ⟨2⟩,
    .newGraph "h", .addParameter ⟨1⟩ (some .int64), .apply ⟨1⟩ [⟨0⟩, ⟨5⟩, ⟨5⟩] none,
    .setOutput ⟨1⟩ ⟨6⟩,
    .newGraph "main", .addParameter ⟨2⟩ (some (.scalar .bool)), .addParameter ⟨2⟩ (some .int64),
    .constant (.graph ⟨0⟩) (some (.function [.graph ⟨0⟩])),
    .constant (.graph ⟨1⟩) (some (.function [.graph ⟨1⟩])),
    .constant (.prim .switch) (some (.function [.prim .switch])),
    .apply ⟨2⟩ [⟨13⟩, ⟨9⟩, ⟨11⟩, ⟨12⟩] (some (.function [.graph ⟨0⟩])),
    .apply ⟨2⟩ [⟨14⟩, ⟨10⟩] none, .constant (.int 1) none, .constant (.prim .tupleGet) none,
    .apply ⟨2⟩ [⟨17⟩, ⟨15⟩, ⟨16⟩] (some .int64), .setOutput ⟨2⟩ ⟨18⟩]

/-- The same with both graphs listed. -/
def switchedPairs : Store :=
  switchedPair.setType ⟨14⟩ (some (.function [.graph ⟨0⟩, .graph ⟨1⟩]))

/-- With both graphs listed only the first parts are dead, with one of them the whole of the other. -/
theorem live_of_widened_switchedPair : ∃ dead dead',
    (switchedPair.keepRoots [⟨2⟩]).deadEdges ⟨2⟩ = .ok dead ∧
    (switchedPairs.keepRoots [⟨2⟩]).deadEdges ⟨2⟩ = .ok dead' ∧
    dead = [(⟨1⟩, [⟨⟨8⟩, 1⟩, ⟨⟨6⟩, 1⟩, ⟨⟨6⟩, 2⟩]), (⟨0⟩, [⟨⟨2⟩, 1⟩])] ∧
    dead' = [(⟨1⟩, [⟨⟨6⟩, 1⟩]), (⟨0⟩, [⟨⟨2⟩, 1⟩])] ∧
    ∀ g e, (∃ x ∈ dead', x.1 = g ∧ e ∈ x.2) → ∃ x ∈ dead, x.1 = g ∧ e ∈ x.2 := by
  have hcalled : switchedPair.Called := Called.start.performAll (of_decide_eq_true (by cbv))
  have hac : switchedPair.arena.Acyclic := Arena.acyclic_of_lt (by decide)
  have hroot : (⟨2⟩ : GraphId) ∈ switchedPair.arena.graphIds := by decide
  have hwide : switchedPair.WidenedTo switchedPairs := by
    refine widenedTo_setType (t := .function [.graph ⟨0⟩]) rfl ?_
    rw [Ty.WidenedTo]
    exact Target.eachIn_refl _ _ (by simp)
  have hdead : (switchedPair.keepRoots [⟨2⟩]).deadEdges ⟨2⟩ =
      .ok [(⟨1⟩, [⟨⟨8⟩, 1⟩, ⟨⟨6⟩, 1⟩, ⟨⟨6⟩, 2⟩]), (⟨0⟩, [⟨⟨2⟩, 1⟩])] := by cbv
  have hdead' : (switchedPairs.keepRoots [⟨2⟩]).deadEdges ⟨2⟩ =
      .ok [(⟨1⟩, [⟨⟨6⟩, 1⟩]), (⟨0⟩, [⟨⟨2⟩, 1⟩])] := by cbv
  obtain ⟨-, -, -, -, -, hsub⟩ := live_of_widened hcalled.reachable
    (hcalled.reachable.step (.setType _ _ _)) hac hwide hroot hdead hdead'
  exact ⟨_, _, hdead, hdead', rfl, rfl, hsub⟩

end Store

end Midend
