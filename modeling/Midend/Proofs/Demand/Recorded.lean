import Mathlib
import Midend.Demand.Dependencies
import Midend.Proofs.Demand.Parts
import Midend.Proofs.Store.Built

/-!
# The parts that are recorded

The record of a graph keeps of the parts listed at a path the last. A reader of the path ends up
there if everything on the way is used once. Elsewhere the record may name a part of a lower layer,
whose entry was overwritten by a value that could not be taken apart.
-/

namespace Midend

open Live (LastAt Listed)

namespace Store

variable {s : Store} {ds : OrderedMap NodeId (List Demand)} {deps : Dependencies} {g root : GraphId}
  {r out : NodeId} {p : Path} {e : Edge} {pd : PartDeps} {parts : OrderedMap Path PartDeps}

/-- The record of a part that stands in a slot. -/
def partDepsAt (s : Store) (ds : OrderedMap NodeId (List Demand)) (e : Edge) : PartDeps :=
  ⟨e, match s.arena.slot? e with
    | some n => s.demandsUnder ds n
    | none => .empty⟩

theorem partDepsAt_of_slot? {n : NodeId} (hn : s.arena.slot? e = some n) :
    s.partDepsAt ds e = ⟨e, s.demandsUnder ds n⟩ := by
  simp only [partDepsAt, hn]

/-- The record of all live graphs. -/
def recordOf (s : Store) (ds : OrderedMap NodeId (List Demand)) : Dependencies :=
  s.live.graphs.toList.foldl (fun (m : Dependencies) g => m.insert g (s.partDeps ds g)) .empty

theorem get?_recordOf (s : Store) (ds : OrderedMap NodeId (List Demand)) (g : GraphId) :
    (s.recordOf ds).get? g = if g ∈ s.live.graphs then some (s.partDeps ds g) else none :=
  get?_foldl_insert (s.partDeps ds) s.live.graphs.toList .empty g

theorem get?_recordOf_eq_some_iff :
    (s.recordOf ds).get? g = some parts ↔ g ∈ s.live.graphs ∧ s.partDeps ds g = parts := by
  rw [get?_recordOf]
  by_cases hg : g ∈ s.live.graphs
  · simp [hg]
  · simp [hg]

theorem dependencies_eq_ok_iff :
    s.dependencies = .ok deps ↔ ∃ ds, s.demands = .ok ds ∧ s.recordOf ds = deps := by
  unfold dependencies
  cases hds : s.demands with
  | error f => simp [Except.map]
  | ok ds =>
    simp only [Except.map, Except.ok.injEq, exists_eq_left']
    exact Iff.rfl

theorem get?_putParts_of_forall_ne (f : Edge → PartDeps) {xs : List (Path × Edge)}
    (m : OrderedMap Path PartDeps) (h : ∀ x ∈ xs, x.1 ≠ p) :
    (xs.foldl (fun m x => m.insert x.1 (f x.2)) m).get? p = m.get? p := by
  induction xs generalizing m with
  | nil => rfl
  | cons x xs ih =>
    rw [List.foldl_cons, ih _ fun y hy => h y (List.mem_cons_of_mem x hy), OrderedMap.get?_insert,
      if_neg (Ne.symm (h x List.mem_cons_self))]

theorem get?_putParts_of_lastAt (f : Edge → PartDeps) {xs : List (Path × Edge)}
    (m : OrderedMap Path PartDeps) (h : LastAt xs p e) :
    (xs.foldl (fun m x => m.insert x.1 (f x.2)) m).get? p = some (f e) := by
  obtain ⟨pre, post, rfl, hpost⟩ := h
  rw [List.foldl_append, List.foldl_cons, get?_putParts_of_forall_ne f _ hpost,
    OrderedMap.get?_insert, if_pos rfl]

theorem mem_of_get?_putParts (f : Edge → PartDeps) {xs : List (Path × Edge)}
    {m : OrderedMap Path PartDeps}
    (h : (xs.foldl (fun m x => m.insert x.1 (f x.2)) m).get? p = some pd) :
    m.get? p = some pd ∨ ∃ e, (p, e) ∈ xs ∧ pd = f e := by
  induction xs generalizing m with
  | nil => exact Or.inl h
  | cons x xs ih =>
    rcases ih h with h | ⟨e, he, hpd⟩
    · rw [OrderedMap.get?_insert] at h
      by_cases hp : p = x.1
      · rw [if_pos hp] at h
        exact Or.inr ⟨x.2, hp ▸ List.mem_cons_self, (Option.some.inj h).symm⟩
      · rw [if_neg hp] at h
        exact Or.inl h
    · exact Or.inr ⟨e, List.mem_cons_of_mem x he, hpd⟩

theorem partDeps_eq (s : Store) (ds : OrderedMap NodeId (List Demand)) (g : GraphId) :
    s.partDeps ds g =
      (s.live.parts s.arena g).foldl (fun m x => m.insert x.1 (s.partDepsAt ds x.2)) .empty := rfl

theorem parts_eq (hr : s.arena.ret? g = some r) (hout : s.arena.slot? ⟨r, 1⟩ = some out) :
    s.live.parts s.arena g = ([], ⟨r, 1⟩) :: s.live.partsOf s.arena out := by
  have ho : s.arena.output? g = some out := Arena.output?_eq_some_iff.mpr ⟨r, hr, hout⟩
  simp only [Live.parts, hr, ho]
  rfl

/-- What is recorded of a graph: its whole output, and parts that are listed. -/
theorem get?_partDeps (hac : s.arena.Acyclic) (hr : s.arena.ret? g = some r)
    (hout : s.arena.slot? ⟨r, 1⟩ = some out) (h : (s.partDeps ds g).get? p = some pd) :
    pd = s.partDepsAt ds pd.edge ∧
      ((p = [] ∧ pd.edge = ⟨r, 1⟩) ∨ s.live.Listed s.arena out (p, pd.edge)) := by
  rw [partDeps_eq, parts_eq hr hout] at h
  rcases mem_of_get?_putParts _ h with h | ⟨e, he, rfl⟩
  · cases h
  · refine ⟨rfl, ?_⟩
    rcases List.mem_cons.mp he with heq | he
    · exact Or.inl (Prod.mk.inj heq)
    · exact Or.inr ((Live.mem_partsOf hac).mp he)

theorem get?_partDeps_of_opens (hac : s.arena.Acyclic) (hr : s.arena.ret? g = some r)
    (hout : s.arena.slot? ⟨r, 1⟩ = some out) (h : s.live.Opens s.arena ⟨r, 1⟩ p e) :
    (s.partDeps ds g).get? p = some (s.partDepsAt ds e) := by
  rw [partDeps_eq, parts_eq hr hout]
  apply get?_putParts_of_lastAt
  by_cases hp : p = []
  · subst hp
    cases h
    refine ⟨[], _, rfl, fun x hx => ?_⟩
    exact ((Live.mem_partsOf hac).mp hx).path_ne_nil
  · exact (Live.lastAt_of_opens hac h hp hout).append_right [_]

/-- The slot recorded at a path is where a reader of the path ends up exactly if everything that the
reader passes is used once; the record then holds the demands of the node that the path selects. -/
theorem recorded_part_iff_opens (hs : s.Reachable) (hac : s.arena.Acyclic)
    (hroot : root ∈ s.arena.graphIds) (hdeps : (s.keepRoots [root]).dependencies = .ok deps)
    (hr : s.arena.ret? g = some r) (hparts : deps.get? g = some parts)
    (hp : parts.get? p = some pd) :
    (s.arena.Reads ⟨r, 1⟩ p pd.edge ↔
      ∃ e, (s.keepRoots [root]).live.Opens s.arena ⟨r, 1⟩ p e) ∧
    ((∃ e, (s.keepRoots [root]).live.Opens s.arena ⟨r, 1⟩ p e) → ∃ out m ds,
      s.arena.output? g = some out ∧ s.arena.slot? pd.edge = some m ∧ s.arena.Selects out p m ∧
      (s.keepRoots [root]).demands = .ok ds ∧
      pd.demands = (s.keepRoots [root]).demandsUnder ds m) := by
  obtain ⟨hwf, hagrees, -⟩ := (hs.keepRoot hroot).settled
  obtain ⟨ds, hds, rfl⟩ := dependencies_eq_ok_iff.mp hdeps
  obtain ⟨hlive, rfl⟩ := get?_recordOf_eq_some_iff.mp hparts
  obtain ⟨out, hout⟩ := hwf.exists_output hr
  obtain ⟨hpd, hlisted⟩ := get?_partDeps (s := s.keepRoots [root]) hac hr hout hp
  have hsame : ∀ {e}, (s.keepRoots [root]).live.Opens s.arena ⟨r, 1⟩ p e → pd.edge = e := by
    intro e he
    have hget : ((s.keepRoots [root]).partDeps ds g).get? p = some _ :=
      get?_partDeps_of_opens hac hr hout he
    rw [hp, Option.some.injEq] at hget
    rw [hget]
    rfl
  refine ⟨⟨fun hreads => ⟨pd.edge, ?_⟩, ?_⟩, ?_⟩
  · have hwithin : s.arena.Within (s.keepRoots [root]).live.Single ⟨r, 1⟩ pd.edge := by
      rcases hlisted with ⟨_, he⟩ | hlisted
      · exact he ▸ Relation.ReflTransGen.refl
      · exact hlisted.within hout
    exact hagrees.opens_of_reads hac (hagrees.ret_mem hlive hr) hwithin hreads
  · rintro ⟨e, he⟩
    exact hsame he ▸ he.reads
  · rintro ⟨e, he⟩
    obtain ⟨m, hm⟩ : ∃ m, s.arena.slot? pd.edge = some m := by
      rcases hlisted with ⟨_, he⟩ | hlisted
      · exact ⟨out, he ▸ hout⟩
      · exact hlisted.exists_slot
    refine ⟨out, m, ds, Arena.output?_eq_some_iff.mpr ⟨r, hr, hout⟩, hm, ?_, hds, ?_⟩
    · exact he.selects hout (hsame he ▸ hm)
    · rw [hpd, partDepsAt]
      exact congrArg (fun o => PartDeps.demands ⟨pd.edge, match o with
        | some n => (s.keepRoots [root]).demandsUnder ds n
        | none => .empty⟩) hm

/-- A graph that writes an entry of an environment twice, the second time with a pair that it also
returns by itself. -/
def overwritten : Store :=
  let s := (Store.empty.newGraph "f").2
  let (e, s) := s.param ⟨0⟩ "e" (some .env)
  let (x, s) := s.param ⟨0⟩ "x" (some .int64)
  let (y, s) := s.param ⟨0⟩ "y" (some .int64)
  let (lower, s) := s.tuple ⟨0⟩ [x, x]
  let (base, s) := s.envSet ⟨0⟩ e "k" lower
  let (upper, s) := s.tuple ⟨0⟩ [y, y]
  let (top, s) := s.envSet ⟨0⟩ base "k" upper
  let (out, s) := s.tuple ⟨0⟩ [top, upper]
  s.addReturn ⟨0⟩ out

theorem reachedAcyclic_overwritten : overwritten.ReachedAcyclic :=
  ReachedAcyclic.start.newGraph "f"
    |>.param ⟨0⟩ "e" (some .env) (by decide)
    |>.param ⟨0⟩ "x" (some .int64) (by decide)
    |>.param ⟨0⟩ "y" (some .int64) (by decide)
    |>.tuple ⟨0⟩ [⟨1⟩, ⟨1⟩] (by decide) (by decide)
    |>.envSet ⟨0⟩ ⟨0⟩ "k" ⟨4⟩ (by decide) (by decide) (by decide)
    |>.tuple ⟨0⟩ [⟨2⟩, ⟨2⟩] (by decide) (by decide)
    |>.envSet ⟨0⟩ ⟨7⟩ "k" ⟨9⟩ (by decide) (by decide) (by decide)
    |>.tuple ⟨0⟩ [⟨12⟩, ⟨9⟩] (by decide) (by decide)
    |>.addReturn ⟨0⟩ ⟨14⟩ (by decide) (by decide) (by decide)

/-- The slot that the record of `overwritten` has at a path. -/
def overwrittenSlot? (p : Path) : Option Edge :=
  (((overwritten.keepRoots [⟨0⟩]).dependencies.toOption.bind (·.get? ⟨0⟩)).bind (·.get? p)).map
    PartDeps.edge

theorem isTuple_overwritten : overwritten.arena.IsTuple ⟨14⟩ [⟨12⟩, ⟨9⟩] := ⟨by decide, _, rfl⟩

theorem isLayer_overwritten : overwritten.arena.IsLayer ⟨12⟩ (.key "k") ⟨7⟩ ⟨9⟩ :=
  ⟨by decide, _, _, rfl, by decide⟩

theorem exists_record_overwritten (h : overwrittenSlot? p = some e) :
    ∃ deps parts pd, (overwritten.keepRoots [⟨0⟩]).dependencies = .ok deps ∧
      deps.get? ⟨0⟩ = some parts ∧ parts.get? p = some pd ∧ pd.edge = e := by
  cases hd : (overwritten.keepRoots [⟨0⟩]).dependencies with
  | error f => simp [overwrittenSlot?, hd, Except.toOption] at h
  | ok deps =>
    simp only [overwrittenSlot?, hd, Except.toOption, Option.bind_some, Option.map_eq_some_iff,
      Option.bind_eq_some_iff] at h
    obtain ⟨pd, ⟨parts, hparts, hp⟩, he⟩ := h
    exact ⟨deps, parts, pd, rfl, hparts, hp, he⟩

theorem recorded_part_iff_opens_overwritten :
    overwrittenSlot? [.index 0, .key "k"] = some ⟨⟨12⟩, 3⟩ ∧
      overwritten.arena.Reads ⟨⟨16⟩, 1⟩ [.index 0, .key "k"] ⟨⟨12⟩, 3⟩ := by
  have hslot : overwrittenSlot? [.index 0, .key "k"] = some ⟨⟨12⟩, 3⟩ := by cbv
  have hr := reachedAcyclic_overwritten
  obtain ⟨deps, parts, pd, hdeps, hparts, hp, he⟩ := exists_record_overwritten hslot
  have hout : (overwritten.keepRoots [⟨0⟩]).live.useCount ⟨14⟩ = 1 := by cbv
  have htop : (overwritten.keepRoots [⟨0⟩]).live.useCount ⟨12⟩ = 1 := by cbv
  have hopens : (overwritten.keepRoots [⟨0⟩]).live.Opens overwritten.arena ⟨⟨16⟩, 1⟩
      [.index 0, .key "k"] ⟨⟨12⟩, 3⟩ :=
    .element (n := ⟨14⟩) rfl (Nat.le_of_eq hout) isTuple_overwritten rfl
      (.entry (n := ⟨12⟩) rfl (Nat.le_of_eq htop) isLayer_overwritten (.here _))
  have hroot : (⟨0⟩ : GraphId) ∈ overwritten.arena.graphIds := by decide
  have hreads := (recorded_part_iff_opens hr.reachable hr.acyclic hroot hdeps (r := ⟨16⟩) rfl hparts
    hp).1.mpr ⟨_, hopens⟩
  exact ⟨hslot, he ▸ hreads⟩

/-- The lower pair stays in the record after its entry was overwritten by a pair with two uses. -/
theorem recorded_part_not_selected :
    overwritten.Reachable ∧ overwritten.arena.Acyclic ∧ ∃ deps parts pd m,
      (overwritten.keepRoots [⟨0⟩]).dependencies = .ok deps ∧ deps.get? ⟨0⟩ = some parts ∧
      parts.get? [.index 0, .key "k", .index 0] = some pd ∧
      overwritten.arena.output? ⟨0⟩ = some ⟨14⟩ ∧ overwritten.arena.slot? pd.edge = some m ∧
      ¬ overwritten.arena.Selects ⟨14⟩ [.index 0, .key "k", .index 0] m := by
  have hslot : overwrittenSlot? [.index 0, .key "k", .index 0] = some ⟨⟨4⟩, 1⟩ := by cbv
  have hr := reachedAcyclic_overwritten
  obtain ⟨deps, parts, pd, hdeps, hparts, hp, he⟩ := exists_record_overwritten hslot
  have hupper : overwritten.arena.IsTuple ⟨9⟩ [⟨2⟩, ⟨2⟩] := ⟨by decide, _, rfl⟩
  have hselects : overwritten.arena.Selects ⟨14⟩ [.index 0, .key "k", .index 0] ⟨2⟩ :=
    .element isTuple_overwritten rfl (.entry isLayer_overwritten (.element hupper rfl (.here _)))
  have hm : overwritten.arena.slot? pd.edge = some ⟨1⟩ := by
    rw [he]
    rfl
  refine ⟨hr.reachable, hr.acyclic, deps, parts, pd, ⟨1⟩, hdeps, hparts, hp, rfl, hm, fun h => ?_⟩
  have := h.unique hselects
  cases this

end Store

end Midend
