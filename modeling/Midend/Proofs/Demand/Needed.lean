import Midend.Proofs.Demand.Calls
import Midend.Proofs.Demand.Origins
import Midend.Proofs.Demand.Recorded
import Midend.Proofs.Demand.Turns

/-!
# Needed parts

The parts that the search meets in a store: with a part it meets whatever the part demands, so what
lies under the slot of a needed part comes out of needed parts.
-/

namespace Midend

theorem Live.Listed.not_indexing {a : Arena} {l : Live} {n : NodeId} {x : Path × Edge}
    (h : l.Listed a n x) : a.indexing? x.2.owner = none := by
  cases hix : a.indexing? x.2.owner with
  | none => rfl
  | some ix =>
    obtain ⟨f, key, _, hcases⟩ := Arena.indexing?_eq_some hix
    rcases h.owner with ⟨parts, happ, _⟩ | ⟨k, env, value, happ, _⟩
    · rcases hcases with ⟨happ', _⟩ | ⟨d, happ', _⟩ <;> simp [happ] at happ'
    · rcases hcases with ⟨happ', _⟩ | ⟨d, happ', _⟩ <;> simp [happ] at happ'

namespace Store

open Dependencies (At Answers)

variable {s : Store} {ds : OrderedMap NodeId (List Demand)} {deps : Dependencies} {g root : GraphId}
  {r out n : NodeId} {p q : Path} {pd : PartDeps} {d : Demand} {v w : Part}

/-- What answers a demand of a needed part is needed. -/
theorem neededParts_closed (hv : v ∈ s.neededParts deps root) : ∃ pd, deps.At v pd ∧
    ∀ d ∈ pd.demands, ∀ w, deps.Answers d w → w ∈ s.neededParts deps root :=
  Dependencies.searchFrom_closed v hv

theorem mem_neededParts_of_answers (hd : d ∈ s.firstDemands deps root) (hw : deps.Answers d w) :
    w ∈ s.neededParts deps root :=
  Dependencies.mem_searchFrom_of_answers (List.mem_reverse.mpr hd) hw

theorem mem_keptParts {seen : List Part} :
    (g, p) ∈ keptParts seen ↔ ∃ q, (g, q) ∈ seen ∧ p <+: q := by
  simp only [keptParts, OrderedSet.mem_ofList, List.mem_flatMap, List.mem_map, Prod.mk.injEq,
    Prod.exists, Path.mem_prefixes]
  constructor
  · rintro ⟨g', q, hq, p', hp', rfl, rfl⟩
    exact ⟨q, hq, hp'⟩
  · rintro ⟨q, hq, hp⟩
    exact ⟨g, q, hq, p, hp, rfl, rfl⟩

/-- A part is live exactly if one that was met continues its path or is continued by it. -/
theorem partIsLive_iff {seen : List Part} : partIsLive seen g p = true ↔
    ∃ q, (g, q) ∈ seen ∧ (p <+: q ∨ q <+: p) := by
  simp only [partIsLive, Bool.or_eq_true, decide_eq_true_eq, mem_keptParts, List.any_eq_true,
    Path.mem_prefixes, and_or_left, exists_or]
  exact or_congr_right (exists_congr fun q => and_comm)

/-! ### What needed parts are computed from -/

/-- A store without cycles whose index agrees with its arena, and the demands recorded for it. -/
structure Analysed (s : Store) (ds : OrderedMap NodeId (List Demand)) : Prop where
  settled : s.Settled True
  acyclic : s.arena.Acyclic
  demands : s.demands = .ok ds

theorem Reachable.analysed (h : s.Reachable) (hac : s.arena.Acyclic)
    (hroot : root ∈ s.arena.graphIds) (hds : (s.keepRoots [root]).demands = .ok ds) :
    (s.keepRoots [root]).Analysed ds :=
  ⟨(h.keepRoot hroot).settled, hac, hds⟩

/-- The parts that are needed when `root` is. -/
def needed (s : Store) (ds : OrderedMap NodeId (List Demand)) (root : GraphId) : List Part :=
  s.neededParts (s.recordOf ds) root

theorem mem_needed_root (hat : (s.recordOf ds).At (root, p) pd) : (root, p) ∈ s.needed ds root := by
  obtain ⟨v, hv⟩ := Dependencies.exists_answers (d := ⟨root, p⟩) hat (List.prefix_refl p)
  obtain ⟨pd', hans⟩ := hv
  obtain ⟨hg, hp, -, hlong⟩ := Dependencies.answer?_eq_some hans
  have hlen : p.length ≤ v.2.length := Nat.le_of_not_lt fun hlt =>
    hlong p (List.prefix_refl p) hlt pd hat
  obtain rfl : v = (root, p) := Prod.ext hg (hp.eq_of_length_le hlen)
  obtain ⟨parts, hparts, hget⟩ := hat
  refine mem_neededParts_of_answers (d := ⟨root, p⟩) (List.mem_append_left _ ?_) ⟨pd', hans⟩
  refine List.mem_map.mpr ⟨p, ?_, rfl⟩
  simp only at hparts
  rw [hparts]
  exact OrderedMap.mem_keys_of_get? hget

/-- Whether `n` lies under the slot of a needed part. -/
def IsRead (s : Store) (ds : OrderedMap NodeId (List Demand)) (root : GraphId) (n : NodeId) : Prop :=
  ∃ v ∈ s.needed ds root, ∃ pd m, (s.recordOf ds).At v pd ∧ s.arena.slot? pd.edge = some m ∧
    s.arena.Under m n

theorem IsRead.input {m : NodeId} (h : s.IsRead ds root n) (hm : m ∈ s.arena.inputs n) :
    s.IsRead ds root m := by
  obtain ⟨v, hv, pd, k, hat, hk, hu⟩ := h
  exact ⟨v, hv, pd, k, hat, hk, hu.trans (Arena.under_of_mem_inputs hm)⟩

/-- Whether some needed part holds the part `q` of what `n` comes out of, for each live graph that
it may come out of. -/
def Covered (s : Store) (needed : List Part) (n : NodeId) (q : Path) : Prop :=
  ∀ o, s.arena.HasOrigin n o → ∀ g ∈ o.graphs, g ∈ s.live.graphs → (s.arena.ret? g).isSome →
    ∃ p, p <+: o.path ++ q ∧ (g, p) ∈ needed

/-- What an indexing apply comes out of, what it indexes comes out of one step further. -/
theorem Covered.base {needed : List Part} {ix : Indexing} (h : s.Covered needed n q)
    (hix : s.arena.indexing? n = some ix) : s.Covered needed ix.base (ix.step :: q) := by
  intro o ho g hg hlive hret
  obtain ⟨p, hp, hmem⟩ := h _ (.indexed hix ho) g hg hlive hret
  exact ⟨p, by simpa using hp, hmem⟩

namespace Analysed

variable (h : s.Analysed ds)
include h

theorem wellFormed : s.arena.WellFormed := h.settled.wellFormed

/-- What is recorded of a part of a live graph: the slot, which is listed, and what is under it. -/
theorem of_at (hat : (s.recordOf ds).At v pd) : ∃ r out m, v.1 ∈ s.live.graphs ∧
    s.arena.ret? v.1 = some r ∧ s.arena.slot? ⟨r, 1⟩ = some out ∧
    s.arena.slot? pd.edge = some m ∧ pd.demands = s.demandsUnder ds m ∧
    ((v.2 = [] ∧ pd.edge = ⟨r, 1⟩) ∨ s.live.Listed s.arena out (v.2, pd.edge)) := by
  obtain ⟨parts, hg, hp⟩ := hat
  obtain ⟨hlive, rfl⟩ := get?_recordOf_eq_some_iff.mp hg
  cases hr : s.arena.ret? v.1 with
  | none =>
    have hnil : s.live.parts s.arena v.1 = [] := by simp only [Live.parts, hr]
    rw [partDeps_eq, hnil] at hp
    cases hp
  | some r =>
    obtain ⟨out, hout⟩ := h.wellFormed.exists_output hr
    obtain ⟨hpd, hlisted⟩ := get?_partDeps h.acyclic hr hout hp
    obtain ⟨m, hm⟩ : ∃ m, s.arena.slot? pd.edge = some m := by
      rcases hlisted with ⟨_, he⟩ | hlisted
      · exact ⟨out, he ▸ hout⟩
      · exact hlisted.exists_slot
    refine ⟨r, out, m, hlive, rfl, hout, hm, ?_, hlisted⟩
    rw [partDepsAt_of_slot? hm] at hpd
    exact congrArg PartDeps.demands hpd

theorem at_of_opens {e : Edge} (hg : g ∈ s.live.graphs) (hr : s.arena.ret? g = some r)
    (ho : s.live.Opens s.arena ⟨r, 1⟩ p e) : (s.recordOf ds).At (g, p) (s.partDepsAt ds e) := by
  obtain ⟨out, hout⟩ := h.wellFormed.exists_output hr
  exact ⟨_, get?_recordOf_eq_some_iff.mpr ⟨hg, rfl⟩, get?_partDeps_of_opens h.acyclic hr hout ho⟩

theorem exists_at (hg : g ∈ s.live.graphs) (hr : s.arena.ret? g = some r) :
    (s.recordOf ds).At (g, []) (s.partDepsAt ds ⟨r, 1⟩) :=
  h.at_of_opens hg hr (.here _)

/-- A demand on a live graph with a return node is answered by a part that contains it. -/
theorem exists_answers {d : Demand} (hg : d.graph ∈ s.live.graphs)
    (hr : (s.arena.ret? d.graph).isSome) :
    ∃ p, p <+: d.path ∧ (s.recordOf ds).Answers d (d.graph, p) := by
  obtain ⟨r, hr⟩ := Option.isSome_iff_exists.mp hr
  obtain ⟨⟨g, p⟩, pd, hans⟩ := Dependencies.exists_answers (h.exists_at hg hr) List.nil_prefix
  obtain ⟨rfl, hp, -, -⟩ := Dependencies.answer?_eq_some hans
  exact ⟨p, hp, pd, hans⟩

/-- Demands recorded under the slot of a needed part are served. -/
theorem exists_needed (hv : v ∈ s.needed ds root) (hat : (s.recordOf ds).At v pd)
    {m : NodeId} (hm : s.arena.slot? pd.edge = some m) (hu : s.arena.Under m n)
    (hd : d ∈ (ds.get? n).getD []) (hg : d.graph ∈ s.live.graphs)
    (hr : (s.arena.ret? d.graph).isSome) : ∃ p, p <+: d.path ∧ (d.graph, p) ∈ s.needed ds root := by
  obtain ⟨pd', hat', hall⟩ := neededParts_closed hv
  obtain rfl := hat.unique hat'
  obtain ⟨r, out, m', -, -, -, hm', hdem, -⟩ := h.of_at hat
  obtain rfl := Option.some.inj (hm.symm.trans hm')
  have hmem : d ∈ pd.demands := by
    rw [hdem]
    exact mem_demandsUnder.mpr ⟨n, hu, hd⟩
  obtain ⟨p, hp, hans⟩ := h.exists_answers hg hr
  exact ⟨p, hp, hall d hmem _ hans⟩

/-- An input of an apply that does not index is covered if the apply is live and the input lies under
the slot of a needed part. -/
theorem covered_of_charges (hv : v ∈ s.needed ds root) (hat : (s.recordOf ds).At v pd)
    {m u : NodeId} (hm : s.arena.slot? pd.edge = some m) (hu : s.arena.Under m n)
    (hlive : u ∈ s.live.nodes)
    (hc : ∀ o d, s.arena.HasOrigin n o → d ∈ o.demands → s.arena.Charges u n d) :
    s.Covered (s.needed ds root) n [] := by
  intro o ho g hg hglive hret
  have hd : (⟨g, o.path⟩ : Demand) ∈ o.demands := List.mem_map_of_mem hg
  have hmem := mem_demands_of_charges h.acyclic h.wellFormed h.demands hlive
    (h.settled.agrees.mem_nodeIds hlive) (hc o _ ho hd)
  simpa using h.exists_needed hv hat hm hu hmem hglive hret

/-- A recorded slot belongs to a live apply that does not index. -/
theorem owner_of_at (hat : (s.recordOf ds).At v pd) : pd.edge.owner ∈ s.live.nodes ∧
    s.arena.isApply pd.edge.owner = true ∧ s.arena.indexing? pd.edge.owner = none := by
  obtain ⟨r, out, m, hlive, hr, hout, hm, -, hlisted⟩ := h.of_at hat
  have hrlive := h.settled.agrees.ret_mem hlive hr
  have happ : s.arena.isApply pd.edge.owner = true :=
    Arena.isApply_of_mem_inputs (Arena.mem_inputs_of_slot? hm)
  rcases hlisted with ⟨_, he⟩ | hlisted
  · refine ⟨he ▸ hrlive, happ, ?_⟩
    obtain ⟨f, o, hin⟩ := h.wellFormed.ret_inputs hr
    cases hix : s.arena.indexing? pd.edge.owner with
    | none => rfl
    | some ix =>
      rw [he] at hix
      obtain ⟨f', key, _, ⟨_, hin', _⟩ | ⟨d, _, hin', _⟩⟩ := Arena.indexing?_eq_some hix
      · simp [hin] at hin'
      · simp [hin] at hin'
  · have hunder := (hlisted.within hout).under
    exact ⟨h.settled.agrees.mem_of_under hrlive hunder, happ, hlisted.not_indexing⟩

theorem covered_slot (hv : v ∈ s.needed ds root) (hat : (s.recordOf ds).At v pd) {m : NodeId}
    (hm : s.arena.slot? pd.edge = some m) : s.Covered (s.needed ds root) m [] := by
  obtain ⟨hlive, happ, hnone⟩ := h.owner_of_at hat
  exact h.covered_of_charges hv hat hm (Arena.Under.refl _ m) hlive fun o d ho hd =>
    .input hnone happ (Arena.mem_inputs_of_slot? hm) ho hd

/-- A call that is covered at a path returns from graphs with a needed part above that path. -/
theorem exists_needed_of_callNames {q : Path} (hcov : s.Covered (s.needed ds root) n q)
    (hn : n ∈ s.live.nodes) (hnone : s.arena.indexing? n = none) (hnames : s.arena.CallNames n g)
    (hg : g ∈ s.live.graphs) (hr : (s.arena.ret? g).isSome) :
    ∃ p, p <+: q ∧ (g, p) ∈ s.needed ds root := by
  obtain ⟨o, ho⟩ := exists_hasOrigin h.acyclic h.wellFormed h.demands hn
    (h.settled.agrees.mem_nodeIds hn)
  have happ : s.arena.isApply n = true := by
    obtain ⟨f, ts, t, bound, hf, -⟩ := hnames
    exact Arena.isApply_of_mem_inputs (Arena.mem_inputs_of_slot? hf)
  cases ho with
  | indexed hix _ => simp [hnone] at hix
  | other _ hnot => simp [happ] at hnot
  | called _ _ hc =>
    exact hcov _ (.called hnone happ hc) g (Arena.mem_returns_of_callNames hc hnames) hg hr

variable {m u : NodeId} (hat : (s.recordOf ds).At v pd) (hm : s.arena.slot? pd.edge = some m)
  (hu : s.arena.Under m u)
include hat hm hu

theorem live_of_under : u ∈ s.live.nodes := by
  obtain ⟨howner, -, -⟩ := h.owner_of_at hat
  exact h.settled.agrees.mem_of_under howner (Arena.Under.of_inputs (Arena.mem_inputs_of_slot? hm) hu)

variable (hv : v ∈ s.needed ds root)
include hv

theorem covered_input (hnone : s.arena.indexing? u = none) (hn : n ∈ s.arena.inputs u) :
    s.Covered (s.needed ds root) n [] := by
  have happ : s.arena.isApply u = true := Arena.isApply_of_mem_inputs hn
  exact h.covered_of_charges hv hat hm (hu.trans (Arena.under_of_mem_inputs hn))
    (h.live_of_under hat hm hu) fun o d ho hd => .input hnone happ hn ho hd

theorem covered_default {ix : Indexing} (hix : s.arena.indexing? u = some ix)
    (hn : ix.default = some n) : s.Covered (s.needed ds root) n [] :=
  h.covered_of_charges hv hat hm
    (hu.trans (Arena.under_of_mem_inputs (Arena.default_mem_inputs hix hn)))
    (h.live_of_under hat hm hu) fun _ _ ho hd => .default hix hn ho hd

/-- Whatever lies under the slot of a needed part is covered at some path. -/
theorem exists_covered : ∃ q, s.Covered (s.needed ds root) u q := by
  induction hu with
  | refl => exact ⟨[], h.covered_slot hv hat hm⟩
  | @tail u n hu hn ih =>
    obtain ⟨q, hq⟩ := ih
    cases hix : s.arena.indexing? u with
    | none => exact ⟨[], h.covered_input hat hm hu hv hix hn⟩
    | some ix =>
      have hcases : n = ix.base ∨ ix.default = some n ∨ ∃ v, s.arena.value? n = some v :=
        Arena.mem_inputs_of_indexing hix hn
      rcases hcases with rfl | hd | ⟨w, hw⟩
      · exact ⟨ix.step :: q, hq.base hix⟩
      · exact ⟨[], h.covered_default hat hm hu hv hix hd⟩
      · refine ⟨[], fun o ho g hg _ _ => ?_⟩
        have hunknown := Arena.HasOrigin.of_value? hw
        rw [ho.unique hunknown] at hg
        exact absurd hg List.not_mem_nil

end Analysed

end Store

end Midend
