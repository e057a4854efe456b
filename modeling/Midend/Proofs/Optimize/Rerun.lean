import Mathlib
import Midend.Proofs.Demand.Charged
import Midend.Proofs.Demand.Placeholders
import Midend.Proofs.Optimize.Converges

/-!
# Two analyses in a row

What the second of two runs of cuts finds, next to what the first one found. The parts it lists were
listed before and every needed part is listed again, a needed part demands all that it did, and so
whatever was needed still is.
-/

namespace Midend

namespace Arena

variable {a b : Arena} {E : Edge → Prop} {n m env value : NodeId} {parts : List NodeId} {k : Step}
  {e : Edge}

/-- A slot without a placeholder was not cut. -/
theorem CutTo.slot?_of_whole (h : a.CutTo b E) (hfit : a.Refitted b) (hm : b.slot? e = some m)
    (hv : b.value? m ≠ some .dead) : a.slot? e = some m := by
  obtain ⟨m', hm', -⟩ := hfit.slots hm
  refine ((h.slots (mem_nodeIds_of_slot? hm')).resolve_right ?_).symm.trans hm
  rintro ⟨-, k, hk, hdead⟩
  exact hv (Option.some.inj (hm.symm.trans hk) ▸ hdead)

theorem exists_isTuple_iff : (∃ parts, a.IsTuple n parts) ↔ a.applied? n = some .makeTuple := by
  constructor
  · rintro ⟨parts, happ, -⟩
    exact happ
  · intro happ
    obtain ⟨f, hf, -⟩ := applied?_eq_some_iff.mp happ
    obtain ⟨parts, hin⟩ := List.head?_eq_some_iff.mp hf
    exact ⟨parts, happ, f, hin⟩

theorem exists_isLayer_iff : (∃ value, a.IsLayer n k env value) ↔
    a.applied? n = some .envSet ∧ (a.inputs n).length = 4 ∧ a.slot? ⟨n, 1⟩ = some env ∧
      (a.slot? ⟨n, 2⟩).bind a.step? = some k := by
  constructor
  · rintro ⟨value, happ, f, key, hin, hk⟩
    simp [happ, hin, slot?, hk]
  · rintro ⟨happ, hlen, henv, hk⟩
    obtain ⟨f, env', key, value, hin⟩ := List.length_eq_four.mp hlen
    obtain rfl : env' = env := by simpa [slot?, hin] using henv
    exact ⟨value, happ, f, key, hin, by simpa [slot?, hin] using hk⟩

end Arena

namespace Live

open Arena (IsTuple IsLayer)

variable {a : Arena} {l : Live} {n env value : NodeId} {k : Step} {x : Path × Edge}

/-- A listed slot of a layer is the one that holds the entry. -/
theorem Listed.index_of_isLayer (h : l.Listed a n x) (hl : a.IsLayer x.2.owner k env value) :
    x.2.index = 3 := by
  induction h with
  | element _ ht _ => exact absurd hl ht.not_isLayer
  | inElement _ _ _ _ ih => exact ih hl
  | entry _ _ => rfl
  | inEntry _ _ _ ih => exact ih hl
  | inBase _ _ _ ih => exact ih hl

/-- What is taken apart is no constant. -/
theorem Listed.value?_eq_none (h : l.Listed a n x) : a.value? n = none := by
  have happ : ∀ {p}, a.applied? n = some p → a.value? n = none := by
    intro p hp
    obtain ⟨f, hf, -⟩ := Arena.applied?_eq_some_iff.mp hp
    exact Arena.value?_eq_none_of_isApply (Arena.isApply_of_mem_inputs (List.mem_of_mem_head? hf))
  cases h with
  | element _ ht _ => exact happ ht.1
  | inElement _ ht _ _ => exact happ ht.1
  | entry _ hl => exact happ hl.1
  | inEntry _ hl _ => exact happ hl.1
  | inBase _ hl _ => exact happ hl.1

end Live

namespace Store

open Dependencies (At)
open Live (Listed)

variable {s s' : Store} {ds ds' : OrderedMap NodeId (List Demand)} {g root : GraphId}
  {n m r out : NodeId} {p q : Path} {e : Edge} {x : Path × Edge} {v : Part} {pd : PartDeps} {d : Demand}
  {k i : Nat}

/-! ### Parts and their record -/

theorem Analysed.mem_parts_iff (h : s.Analysed ds) (hr : s.arena.ret? g = some r)
    (hout : s.arena.slot? ⟨r, 1⟩ = some out) :
    x ∈ s.live.parts s.arena g ↔ x = ([], ⟨r, 1⟩) ∨ s.live.Listed s.arena out x := by
  rw [parts_eq hr hout, List.mem_cons, Live.mem_partsOf h.acyclic]

theorem isSome_get?_putParts (f : Edge → PartDeps) {xs : List (Path × Edge)}
    {m : OrderedMap Path PartDeps}
    (h : (m.get? p).isSome = true ∨ ∃ x ∈ xs, x.1 = p) :
    ((xs.foldl (fun m x => m.insert x.1 (f x.2)) m).get? p).isSome = true := by
  induction xs generalizing m with
  | nil => exact h.resolve_right (by simp)
  | cons x xs ih =>
    refine ih ?_
    rw [OrderedMap.get?_insert]
    by_cases hp : p = x.1
    · simp [hp]
    · rw [if_neg hp]
      refine h.imp_right ?_
      rintro ⟨y, hy, rfl⟩
      exact ⟨y, (List.mem_cons.mp hy).resolve_left fun heq => hp (heq ▸ rfl), rfl⟩

/-- A listed part is recorded, with this slot or with another one that is listed at its path. -/
theorem exists_at_of_mem_parts (ds : OrderedMap NodeId (List Demand)) (hg : g ∈ s.live.graphs)
    (hx : (p, e) ∈ s.live.parts s.arena g) :
    ∃ pd, (s.recordOf ds).At (g, p) pd ∧ (p, pd.edge) ∈ s.live.parts s.arena g := by
  have hsome : ((s.partDeps ds g).get? p).isSome = true :=
    isSome_get?_putParts (s.partDepsAt ds) (Or.inr ⟨_, hx, rfl⟩)
  obtain ⟨pd, hpd⟩ := Option.isSome_iff_exists.mp hsome
  refine ⟨pd, ⟨_, get?_recordOf_eq_some_iff.mpr ⟨hg, rfl⟩, hpd⟩, ?_⟩
  rcases mem_of_get?_putParts (s.partDepsAt ds) hpd with hempty | ⟨e', he', rfl⟩
  · cases hempty
  · exact he'

theorem mem_parts_of_at (hat : (s.recordOf ds).At v pd) :
    (v.2, pd.edge) ∈ s.live.parts s.arena v.1 := by
  obtain ⟨parts, hparts, hpd⟩ := hat
  obtain ⟨-, rfl⟩ := get?_recordOf_eq_some_iff.mp hparts
  rcases mem_of_get?_putParts (s.partDepsAt ds) hpd with hempty | ⟨e', he', rfl⟩
  · cases hempty
  · exact he'

/-! ### What the second run must not find -/

/-- Whether a run of cuts from `s` to `s'` opens nothing to a further analysis. What a live part demands
is still demanded: a node that it is computed from is still consumed (`consumed`), and graphs that live
parts demand something in are still live (`graphs`). No part is listed that was not, for a tuple or an
environment that was shared or for an entry that was written over (`single`, `once`). What applies that
build or return an output run does not depend on the parts (`plain`). -/
structure Steady (s s' : Store) (ds : OrderedMap NodeId (List Demand)) (root : GraphId) : Prop where
  consumed : ∀ n, s.IsRead ds root n → (ds.get? n).getD [] ≠ [] → s.Consumed n → s'.Consumed n
  graphs : ∀ v pd d, v ∈ s.needed ds root → (s.recordOf ds).At v pd → d ∈ pd.demands →
    v.1 ∈ s'.live.graphs
  single : ∀ g ∈ s'.live.graphs, ∀ x ∈ s'.live.parts s'.arena g, x.1 ≠ [] →
    s.live.Single x.2.owner
  once : ∀ g ∈ s'.live.graphs, ((s.live.parts s.arena g).map Prod.fst).Nodup
  plain : ∀ n ∈ s'.live.nodes, s.arena.Opens n → ∀ f, s.arena.slot? ⟨n, 0⟩ = some f →
    ¬ s.arena.MapsArgument f

/-- What two runs of cuts in a row analyse. -/
structure Rerun (s s' : Store) (ds ds' : OrderedMap NodeId (List Demand)) (root : GraphId) : Prop where
  first : s.Analysed ds
  second : s'.Analysed ds'
  cut : s.CutTo s' fun e => ∃ g, s.DeadSlot ds root g e
  held : ∀ g e, s.DeadSlot ds root g e → g ∈ s'.live.graphs → e.owner ∈ s'.live.nodes →
    s'.arena.HoldsDead e
  fitted : s.arena.Refitted s'.arena
  free : ∀ g r n, s.arena.ret? g = some r → r ∉ s.arena.inputs n
  root_live : root ∈ s'.live.graphs
  steady : s.Steady s' ds root

namespace Rerun

variable (h : s.Rerun s' ds ds' root)
include h

/-! ### What is not cut -/

theorem slot?_of_whole (hm : s'.arena.slot? e = some m) (hv : s'.arena.value? m ≠ some .dead) :
    s.arena.slot? e = some m :=
  h.cut.arena.slot?_of_whole h.fitted hm hv

/-- The slot of a part that leads to a needed one or lies within one is not cut. -/
theorem slot?_of_live (hat : (s.recordOf ds).At (g, p) pd) (hq : (g, q) ∈ s.needed ds root)
    (hpq : p <+: q ∨ q <+: p) : s'.arena.slot? pd.edge = s.arena.slot? pd.edge := by
  have hmem := h.first.settled.agrees.mem_nodeIds (h.first.owner_of_at hat).1
  refine (h.cut.arena.slots hmem).resolve_right ?_
  rintro ⟨⟨g', p', pd', hat', hedge, hnone⟩, -⟩
  have heq := h.first.part_eq_of_at (returnsLast_of_not_mem_inputs h.free) hat hat' hedge.symm
  obtain ⟨rfl, rfl⟩ := Prod.mk.inj heq
  exact hnone q hq hpq

theorem mem_nodeIds_of_isRead (hn : s.IsRead ds root n) : n ∈ s.arena.nodeIds := by
  obtain ⟨v, -, pd, m, hat, hm, hu⟩ := hn
  exact h.first.settled.agrees.mem_nodeIds (h.first.live_of_under hat hm hu)

theorem not_deadSlot_of_isRead (hn : s.IsRead ds root n) (hd : s.DeadSlot ds root g e) :
    e.owner ≠ n := by
  rintro rfl
  obtain ⟨p', pd', hat', rfl, hnone⟩ := hd
  obtain ⟨⟨g', q⟩, hv, pd, m, hat, hm, hu⟩ := hn
  have hinto : s.arena.Within (fun _ => True) pd.edge pd'.edge :=
    Arena.within_of_under hm hu pd'.edge.index
  obtain ⟨rfl, hpre⟩ := h.first.prefix_of_within h.free hat hat' hinto
  exact hnone q hv (Or.inr hpre)

theorem inputs_of_isRead (hn : s.IsRead ds root n) : s'.arena.inputs n = s.arena.inputs n :=
  h.cut.arena.inputs_eq (h.mem_nodeIds_of_isRead hn) fun _ ⟨_, hd⟩ => h.not_deadSlot_of_isRead hn hd

theorem indexing?_of_isRead (hn : s.IsRead ds root n) : s'.arena.indexing? n = s.arena.indexing? n :=
  h.cut.arena.indexing? h.first.wellFormed (h.mem_nodeIds_of_isRead hn) fun _ ⟨_, hd⟩ =>
    h.not_deadSlot_of_isRead hn hd

theorem under_of_isRead (hn : s.IsRead ds root n) (hu : s.arena.Under n m) :
    s'.arena.Under n m ∧ s.IsRead ds root m := by
  induction hu with
  | refl => exact ⟨Arena.Under.refl _ n, hn⟩
  | @tail k m _ hk ih =>
    obtain ⟨hnk, hread⟩ := ih
    refine ⟨hnk.trans (Arena.under_of_mem_inputs ?_), hread.input hk⟩
    rw [h.inputs_of_isRead hread]
    exact hk

/-! ### The same parts -/

theorem applied? (hn : n ∈ s.arena.nodeIds) : s'.arena.applied? n = s.arena.applied? n := by
  have hhead : (s'.arena.inputs n).head? = (s.arena.inputs n).head? := by
    rw [List.head?_eq_getElem?, List.head?_eq_getElem?]
    exact h.first.slot?_function h.cut hn
  simp only [Arena.applied?, hhead]
  cases hf : (s.arena.inputs n).head? with
  | none => rfl
  | some f =>
    simp only [Option.bind_some]
    rw [h.cut.arena.value (h.first.wellFormed.input_mem (List.mem_of_mem_head? hf))]

/-- Of a layer that is no return node only the entry may be cut. -/
theorem slot?_of_layer (hn : n ∈ s.arena.nodeIds) (hnot : ∀ g, s.arena.ret? g ≠ some n)
    (happ : s.arena.applied? n = some .envSet) (hi : i ≠ 3) :
    s'.arena.slot? ⟨n, i⟩ = s.arena.slot? ⟨n, i⟩ := by
  refine (h.cut.arena.slots hn).resolve_right ?_
  rintro ⟨⟨g, p, pd, hat, hedge, -⟩, -⟩
  obtain ⟨r, out, m, -, hr, -, -, -, hlisted⟩ := h.first.of_at hat
  rw [hedge] at hlisted
  rcases hlisted with ⟨-, heq⟩ | hlisted
  · obtain ⟨rfl, -⟩ := Edge.mk.inj heq
    exact hnot g hr
  · rcases hlisted.owner with ⟨parts, ht⟩ | ⟨k, env, value, hl⟩
    · exact absurd (happ.symm.trans ht.1) (by simp)
    · exact hi (hlisted.index_of_isLayer hl)

theorem exists_isTuple_iff (hn : n ∈ s.arena.nodeIds) :
    (∃ parts, s'.arena.IsTuple n parts) ↔ ∃ parts, s.arena.IsTuple n parts := by
  rw [Arena.exists_isTuple_iff, Arena.exists_isTuple_iff, h.applied? hn]

theorem exists_isLayer_iff {k : Step} {env : NodeId} (hn : n ∈ s.arena.nodeIds)
    (hnot : ∀ g, s.arena.ret? g ≠ some n) :
    (∃ value, s'.arena.IsLayer n k env value) ↔ ∃ value, s.arena.IsLayer n k env value := by
  rw [Arena.exists_isLayer_iff, Arena.exists_isLayer_iff, h.applied? hn, h.cut.arena.length hn]
  refine and_congr_right fun happ => ?_
  rw [h.slot?_of_layer hn hnot happ (by decide), h.slot?_of_layer hn hnot happ (by decide)]
  have hstep : ∀ key, s.arena.slot? ⟨n, 2⟩ = some key → s'.arena.step? key = s.arena.step? key := by
    intro key hkey
    rw [Arena.step?, Arena.step?, h.cut.arena.value (h.first.wellFormed.slot_mem hkey)]
  cases hkey : s.arena.slot? ⟨n, 2⟩ with
  | none => rfl
  | some key => simp only [Option.bind_some, hstep key hkey]

/-- What is listed after the cuts was listed before, if all that is taken apart was used once. -/
theorem listed_before (hx : s'.live.Listed s'.arena n x) (hn : n ∈ s.arena.nodeIds)
    (hnot : ∀ g, s.arena.ret? g ≠ some n)
    (hsingle : ∀ y, s'.live.Listed s'.arena n y → s.live.Single y.2.owner) :
    s.live.Listed s.arena n x := by
  have hwf := h.first.wellFormed
  -- a node that is taken apart is no placeholder
  have hslot : ∀ {e m y}, s'.live.Listed s'.arena m y → s'.arena.slot? e = some m →
      s.arena.slot? e = some m := fun hy hm =>
    h.slot?_of_whole hm (by simp [hy.value?_eq_none])
  have hfree : ∀ {n m i}, s.arena.slot? ⟨n, i⟩ = some m → ∀ g, s.arena.ret? g ≠ some m :=
    fun hm g hr => h.free g _ _ hr (Arena.mem_inputs_of_slot? hm)
  induction hx with
  | element hone ht hm =>
    obtain ⟨parts, ht'⟩ := (h.exists_isTuple_iff hn).mp ⟨_, ht⟩
    obtain ⟨m', hm', -⟩ := h.fitted.slots (ht.slot?.trans hm)
    exact .element (hsingle _ (.element hone ht hm)) ht' (ht'.slot?.symm.trans hm')
  | inElement hone ht hm hx ih =>
    obtain ⟨parts, ht'⟩ := (h.exists_isTuple_iff hn).mp ⟨_, ht⟩
    have hm' := hslot hx (ht.slot?.trans hm)
    exact .inElement (hsingle _ (.element hone ht hm)) ht' (ht'.slot?.symm.trans hm')
      (ih (hwf.slot_mem hm') (hfree hm') fun y hy => hsingle (Live.lead _ y) (.inElement hone ht hm hy))
  | entry hone hl =>
    obtain ⟨value, hl'⟩ := (h.exists_isLayer_iff hn hnot).mp ⟨_, hl⟩
    exact .entry (hsingle _ (.entry hone hl)) hl'
  | inEntry hone hl hx ih =>
    obtain ⟨value, hl'⟩ := (h.exists_isLayer_iff hn hnot).mp ⟨_, hl⟩
    have hm' := hslot hx hl.slot?_value
    obtain rfl := Option.some.inj (hl'.slot?_value.symm.trans hm')
    exact .inEntry (hsingle _ (.entry hone hl)) hl'
      (ih (hwf.slot_mem hm') (hfree hm') fun y hy => hsingle (Live.lead _ y) (.inEntry hone hl hy))
  | inBase hone hl hx ih =>
    obtain ⟨value, hl'⟩ := (h.exists_isLayer_iff hn hnot).mp ⟨_, hl⟩
    exact .inBase (hsingle _ (.entry hone hl)) hl' (ih (hwf.slot_mem hl'.slot?_env)
      (hfree hl'.slot?_env) fun y hy => hsingle _ (.inBase hone hl hy))

/-- Cuts make no new use of a node. -/
theorem single_after (hv : s'.arena.value? n ≠ some .dead) (hone : s.live.Single n) :
    s'.live.Single n := by
  have hsub : ∀ e ∈ s'.live.usesOf n, e ∈ s.live.usesOf n := by
    intro e he
    obtain ⟨hlive, hslot⟩ := h.second.settled.mem_usesOf.mp he
    have hslot' := h.slot?_of_whole hslot hv
    exact h.first.settled.mem_usesOf.mpr
      ⟨h.cut.nodes hlive (Arena.mem_nodeIds_of_slot? hslot'), hslot'⟩
  exact le_trans (List.subperm_of_subset (s'.live.usesOf n).nodup hsub).length_le hone

/-- A part is still listed if nothing that leads to it was cut. -/
theorem listed_after (hx : s.live.Listed s.arena n x) (hn : n ∈ s.arena.nodeIds)
    (hnot : ∀ g, s.arena.ret? g ≠ some n)
    (hkept : ∀ y, s.live.Listed s.arena n y → y.1 <+: x.1 →
      s'.arena.slot? y.2 = s.arena.slot? y.2) : s'.live.Listed s'.arena n x := by
  have hwf := h.first.wellFormed
  have hone' : ∀ {n y}, s.live.Listed s.arena n y → n ∈ s.arena.nodeIds → s'.live.Single n :=
    fun hy hn => h.single_after (by simp [h.cut.arena.value hn, hy.value?_eq_none]) hy.single
  have hfree : ∀ {n m i}, s.arena.slot? ⟨n, i⟩ = some m → ∀ g, s.arena.ret? g ≠ some m :=
    fun hm g hr => h.free g _ _ hr (Arena.mem_inputs_of_slot? hm)
  induction hx with
  | @element n m parts i hone ht hm =>
    have hy : s.live.Listed s.arena n ([.index i], ⟨n, i + 1⟩) := .element hone ht hm
    obtain ⟨parts', ht'⟩ := (h.exists_isTuple_iff hn).mpr ⟨_, ht⟩
    have hm' := (hkept _ hy (List.prefix_refl _)).trans (ht.slot?.trans hm)
    exact .element (hone' hy hn) ht' (ht'.slot?.symm.trans hm')
  | @inElement n m parts i x hone ht hm hx ih =>
    have hy : s.live.Listed s.arena n ([.index i], ⟨n, i + 1⟩) := .element hone ht hm
    obtain ⟨parts', ht'⟩ := (h.exists_isTuple_iff hn).mpr ⟨_, ht⟩
    have hslot := ht.slot?.trans hm
    have hm' := (hkept _ hy (List.prefix_append _ _)).trans hslot
    refine .inElement (hone' hy hn) ht' (ht'.slot?.symm.trans hm')
      (ih (hwf.slot_mem hslot) (hfree hslot) fun y hy hpre => ?_)
    exact hkept (Live.lead _ y) (.inElement hone ht hm hy) (List.cons_prefix_cons.mpr ⟨rfl, hpre⟩)
  | @entry n env value k hone hl =>
    obtain ⟨value', hl'⟩ := (h.exists_isLayer_iff hn hnot).mpr ⟨_, hl⟩
    exact .entry (hone' (.entry hone hl) hn) hl'
  | @inEntry n env value k x hone hl hx ih =>
    have hy : s.live.Listed s.arena n ([k], ⟨n, 3⟩) := .entry hone hl
    obtain ⟨value', hl'⟩ := (h.exists_isLayer_iff hn hnot).mpr ⟨_, hl⟩
    have hm' := (hkept _ hy (List.prefix_append _ _)).trans hl.slot?_value
    obtain rfl := Option.some.inj (hl'.slot?_value.symm.trans hm')
    refine .inEntry (hone' hy hn) hl'
      (ih (hwf.slot_mem hl.slot?_value) (hfree hl.slot?_value) fun y hy hpre => ?_)
    exact hkept (Live.lead _ y) (.inEntry hone hl hy) (List.cons_prefix_cons.mpr ⟨rfl, hpre⟩)
  | @inBase n env value k x hone hl hx ih =>
    obtain ⟨value', hl'⟩ := (h.exists_isLayer_iff hn hnot).mpr ⟨_, hl⟩
    exact .inBase (hone' (.entry hone hl) hn) hl' (ih (hwf.slot_mem hl.slot?_env)
      (hfree hl.slot?_env) fun y hy hpre => hkept _ (.inBase hone hl hy) hpre)

theorem parts_subset (hg : g ∈ s'.live.graphs) (hx : x ∈ s'.live.parts s'.arena g) :
    x ∈ s.live.parts s.arena g := by
  obtain ⟨r, hr⟩ : ∃ r, s'.arena.ret? g = some r := by
    cases hr : s'.arena.ret? g with
    | none => simp [Live.parts, hr] at hx
    | some r => exact ⟨r, rfl⟩
  obtain ⟨out, hout⟩ := h.second.wellFormed.exists_output hr
  have hr' : s.arena.ret? g = some r := h.cut.arena.ret?.symm.trans hr
  obtain ⟨out', hout'⟩ := h.first.wellFormed.exists_output hr'
  rw [h.first.mem_parts_iff hr' hout']
  rcases (h.second.mem_parts_iff hr hout).mp hx with heq | hlisted
  · exact Or.inl heq
  · have hsame := h.slot?_of_whole hout (by simp [hlisted.value?_eq_none])
    obtain rfl := Option.some.inj (hout'.symm.trans hsame)
    refine Or.inr (h.listed_before hlisted (h.first.wellFormed.slot_mem hout')
      (fun g' hr' => h.free g' _ _ hr' (Arena.mem_inputs_of_slot? hout')) fun y hy => ?_)
    exact h.steady.single g hg y ((h.second.mem_parts_iff hr hout).mpr (Or.inr hy)) hy.path_ne_nil

/-- What is recorded of a listed part. -/
theorem at_of_mem_parts (hg : g ∈ s'.live.graphs) (hx : (p, e) ∈ s.live.parts s.arena g) :
    ∃ pd, (s.recordOf ds).At (g, p) pd ∧ pd.edge = e := by
  obtain ⟨pd, hat, hmem⟩ := exists_at_of_mem_parts ds (h.cut.graphs hg) hx
  have heq := List.inj_on_of_nodup_map (h.steady.once g hg) hmem hx rfl
  exact ⟨pd, hat, (Prod.mk.inj heq).2⟩

/-- What is recorded after the cuts was recorded before, with the same slot. -/
theorem at_before {pd' : PartDeps} (hat : (s'.recordOf ds').At v pd') :
    ∃ pd, (s.recordOf ds).At v pd ∧ pd.edge = pd'.edge := by
  obtain ⟨-, -, -, hg, -⟩ := h.second.of_at hat
  exact h.at_of_mem_parts hg (h.parts_subset hg (mem_parts_of_at hat))

/-- A part that leads to a needed one is still listed. -/
theorem mem_parts_of_needed (hg : g ∈ s'.live.graphs) (hx : (p, e) ∈ s.live.parts s.arena g)
    (hq : (g, q) ∈ s.needed ds root) (hpq : p <+: q) : (p, e) ∈ s'.live.parts s'.arena g := by
  have hkept : ∀ y ∈ s.live.parts s.arena g, y.1 <+: p →
      s'.arena.slot? y.2 = s.arena.slot? y.2 := by
    intro y hy hyp
    obtain ⟨pd, hat, hedge⟩ := h.at_of_mem_parts hg hy
    exact hedge ▸ h.slot?_of_live hat hq (Or.inl (hyp.trans hpq))
  obtain ⟨r, hr⟩ : ∃ r, s.arena.ret? g = some r := by
    cases hr : s.arena.ret? g with
    | none => simp [Live.parts, hr] at hx
    | some r => exact ⟨r, rfl⟩
  obtain ⟨out, hout⟩ := h.first.wellFormed.exists_output hr
  have hmem := fun {x} => h.first.mem_parts_iff (x := x) hr hout
  have hout' : s'.arena.slot? ⟨r, 1⟩ = some out :=
    (hkept _ (hmem.mpr (Or.inl rfl)) List.nil_prefix).trans hout
  rw [h.second.mem_parts_iff (h.cut.arena.ret?.trans hr) hout']
  refine (hmem.mp hx).imp_right fun hlisted => ?_
  refine h.listed_after hlisted (h.first.wellFormed.slot_mem hout)
    (fun g' hr' => h.free g' _ _ hr' (Arena.mem_inputs_of_slot? hout)) fun y hy hyp => ?_
  exact hkept y (hmem.mpr (Or.inr hy)) hyp

/-- A needed part of a graph that is still live is recorded after the cuts with the same slot. -/
theorem at_after (hg : g ∈ s'.live.graphs) (hq : (g, q) ∈ s.needed ds root)
    (hat : (s.recordOf ds).At (g, q) pd) : ∃ pd', (s'.recordOf ds').At (g, q) pd' ∧
      pd'.edge = pd.edge := by
  have hmem := h.mem_parts_of_needed hg (mem_parts_of_at hat) hq (List.prefix_refl q)
  obtain ⟨pd', hat', hmem'⟩ := exists_at_of_mem_parts ds' hg hmem
  have heq := List.inj_on_of_nodup_map (h.steady.once g hg) (h.parts_subset hg hmem')
    (mem_parts_of_at hat) rfl
  exact ⟨pd', hat', (Prod.mk.inj heq).2⟩

/-! ### The same demands -/

theorem picks {c : NodeId} (hn : s.IsRead ds root n) (hpick : s.arena.Picks n p c) :
    s'.arena.Picks n p c ∧ s.IsRead ds root c := by
  induction hpick with
  | here hnone happ =>
    exact ⟨.here ((h.indexing?_of_isRead hn).trans hnone)
      ((h.cut.arena.isApply (h.mem_nodeIds_of_isRead hn)).trans happ), hn⟩
  | key hix _ ih =>
    obtain ⟨hrest, hc⟩ := ih (hn.input (Arena.base_mem_inputs hix))
    exact ⟨.key ((h.indexing?_of_isRead hn).trans hix) hrest, hc⟩

theorem callNames (hn : n ∈ s.arena.nodeIds) (hname : s.arena.CallNames n g) :
    s'.arena.CallNames n g := by
  obtain ⟨f, ts, t, bound, hf, hts, ht, hc⟩ := hname
  refine ⟨f, ts, t, bound, (h.first.slot?_function h.cut hn).trans hf, ?_, ht, hc⟩
  rw [h.cut.arena.type (h.first.wellFormed.slot_mem hf)]
  exact hts

theorem mapNames (hn : s.IsRead ds root n) (hmap : s.arena.MapNames n g) :
    s'.arena.MapNames n g := by
  obtain ⟨f, args, ts, t, bound, us, hin, hts, ht, hc, hus, hcalls⟩ := hmap
  have htype : ∀ m ∈ f :: args, s'.arena.type? m = s.arena.type? m := fun m hm =>
    h.cut.arena.type (h.first.wellFormed.input_mem (hin ▸ hm))
  have hmapped : s'.arena.mappedType? args bound = s.arena.mappedType? args bound := by
    cases args with
    | nil => rfl
    | cons m args => simp [Arena.mappedType?, htype m (by simp)]
  refine ⟨f, args, ts, t, bound, us, (h.inputs_of_isRead hn).trans hin, ?_, ht, hc, ?_, hcalls⟩
  · rw [htype f List.mem_cons_self]
    exact hts
  · rw [hmapped]
    exact hus

theorem demands_subset (hn : s.IsRead ds root n) (hlive : n ∈ s'.live.nodes)
    (hd : d ∈ (ds.get? n).getD []) : d ∈ (ds'.get? n).getD [] := by
  refine (h.second.settled.mem_demands_iff h.second.acyclic h.second.demands).mpr ?_
  rcases (h.first.settled.mem_demands_iff h.first.acyclic h.first.demands).mp hd with
    ⟨hconsumed, c, hpick, hname⟩ | ⟨-, hnone, hp, hmap⟩
  · obtain ⟨hpick', hc⟩ := h.picks hn hpick
    exact Or.inl ⟨h.steady.consumed n hn (List.ne_nil_of_mem hd) hconsumed, c, hpick',
      h.callNames (h.mem_nodeIds_of_isRead hc) hname⟩
  · exact Or.inr ⟨hlive, (h.indexing?_of_isRead hn).trans hnone, hp, h.mapNames hn hmap⟩

/-- A needed part demands what it did. -/
theorem demands_after {pd' : PartDeps} (hv : v ∈ s.needed ds root) (hat : (s.recordOf ds).At v pd)
    (hat' : (s'.recordOf ds').At v pd') (hedge : pd'.edge = pd.edge) (hd : d ∈ pd.demands) :
    d ∈ pd'.demands := by
  obtain ⟨-, -, m, -, -, -, hm, hdem, -⟩ := h.first.of_at hat
  obtain ⟨-, -, m', -, -, -, hm', hdem', -⟩ := h.second.of_at hat'
  obtain rfl : m = m' := by
    rw [hedge, h.slot?_of_live hat hv (Or.inl (List.prefix_refl _)), hm] at hm'
    exact Option.some.inj hm'
  rw [hdem] at hd
  rw [hdem']
  obtain ⟨n, hu, hd⟩ := mem_demandsUnder.mp hd
  obtain ⟨hu', hn⟩ := h.under_of_isRead ⟨v, hv, pd, m, hat, hm, Arena.Under.refl _ m⟩ hu
  exact mem_demandsUnder.mpr ⟨n, hu', h.demands_subset hn (h.second.live_of_under hat' hm' hu') hd⟩

theorem escaping_subset (hg : g ∈ s.escaping root) : g ∈ s'.escaping root := by
  rw [escaping, ← OrderedSet.mem_def, OrderedSet.mem_ofList, List.mem_flatMap] at hg ⊢
  obtain ⟨⟨p, e⟩, hx, hg⟩ := hg
  obtain ⟨pd, hat, rfl⟩ := h.at_of_mem_parts h.root_live hx
  have hneeded : (root, p) ∈ s.needed ds root := mem_needed_root hat
  refine ⟨_, h.mem_parts_of_needed h.root_live hx hneeded (List.prefix_refl p), ?_⟩
  obtain ⟨-, -, m, -, -, -, hm, -⟩ := h.first.of_at hat
  have hm' := (h.slot?_of_live hat hneeded (Or.inl (List.prefix_refl p))).trans hm
  have hmem := h.first.wellFormed.slot_mem hm
  have hsame : s'.arena.graphsAt m = s.arena.graphsAt m := by
    rw [Arena.graphsAt, Arena.graphsAt, h.cut.arena.type hmem,
      Arena.heldGraph?_congr (h.cut.arena.value hmem)]
  simp only [hm, hm'] at hg ⊢
  rw [hsame]
  exact hg

/-- What was needed of a graph that is still live is still needed: the needed parts of which this holds
are closed. -/
theorem needed_after (hv : v ∈ s.needed ds root) (hg : v.1 ∈ s'.live.graphs) :
    v ∈ s'.needed ds' root := by
  have hclosed : s.Closed (s.recordOf ds) root {v | v ∈ s.needed ds root} := h.first.closed_needed
  have hclosed' : s'.Closed (s'.recordOf ds') root {v | v ∈ s'.needed ds' root} :=
    h.second.closed_needed
  have hafter : ∀ {v}, v ∈ s.needed ds root → v.1 ∈ s'.live.graphs → (s.recordOf ds).Has v →
      (s'.recordOf ds').Has v := fun hv hg ⟨_, hat⟩ =>
    (h.at_after hg hv hat).imp fun _ hat' => hat'.1
  have hbefore : ∀ {v}, (s'.recordOf ds').Has v → (s.recordOf ds).Has v := fun ⟨_, hat⟩ =>
    (h.at_before hat).imp fun _ hat' => hat'.1
  suffices hboth : v ∈ {v : Part | v ∈ s.needed ds root ∧
      (v.1 ∈ s'.live.graphs → v ∈ s'.needed ds' root)} from hboth.2 hg
  refine h.first.needed_subset ⟨fun p hp => ?_, fun g p hg hp => ?_,
    fun v pd d hv hat hd hrec hret => ?_⟩ v hv
  · have hneeded := hclosed.root_mem p hp
    exact ⟨hneeded, fun hg => hclosed'.root_mem p (hafter hneeded hg hp)⟩
  · have hneeded := hclosed.escaping_mem g p hg hp
    obtain ⟨hlive, hret⟩ := h.first.live_of_has hp
    obtain ⟨r, hr⟩ := Option.isSome_iff_exists.mp hret
    refine ⟨hneeded, fun hg' => hclosed'.escaping_mem g [] (h.escaping_subset hg) ?_⟩
    exact hafter hneeded hg' ⟨_, h.first.exists_at hlive hr⟩
  · obtain ⟨hneeded, hstill⟩ := hv
    obtain ⟨q, hlong, hq⟩ := hclosed.demand_mem v pd d hneeded hat hd hrec hret
    refine ⟨q, hlong, hq, fun hlive => ?_⟩
    have hvlive := h.steady.graphs v pd d hneeded hat hd
    obtain ⟨pd', hat', hedge⟩ := h.at_after hvlive hneeded hat
    have hrec' : ((s'.recordOf ds').get? d.graph).isSome = true := by
      rw [get?_recordOf, if_pos hlive]
      rfl
    obtain ⟨q', hlong', hq'⟩ := hclosed'.demand_mem v pd' d (hstill hvlive) hat'
      (h.demands_after hneeded hat hat' hedge hd) hrec' (h.cut.arena.ret? ▸ hret)
    have hsame : (s'.recordOf ds').Longest d.graph d.path q :=
      ⟨hlong.1, hafter hq hlive hlong.2.1, fun q'' hpre hhas => hlong.2.2 q'' hpre (hbefore hhas)⟩
    obtain rfl := hlong'.unique hsame
    exact hq'

/-- Slots that are dead now hold placeholders: they were dead before and have been cut. -/
theorem holdsDead_of_deadSlot (hd : s'.DeadSlot ds' root g e) : s'.arena.HoldsDead e := by
  obtain ⟨p, pd', hat', rfl, hnone⟩ := hd
  obtain ⟨-, -, -, hg, -⟩ := h.second.of_at hat'
  obtain ⟨pd, hat, hedge⟩ := h.at_before hat'
  have hdead : s.DeadSlot ds root g pd'.edge :=
    ⟨p, pd, hat, hedge, fun q hq => hnone q (h.needed_after hq hg)⟩
  exact h.held g _ hdead hg (h.second.owner_of_at hat').1

end Rerun

end Store

end Midend
