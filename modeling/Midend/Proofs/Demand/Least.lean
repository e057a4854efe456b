import Mathlib.Order.Bounds.Basic
import Midend.Proofs.Demand.Targets
import Midend.Proofs.Demand.Turns
import Midend.Proofs.Store.Calls

/-!
# The least set of needed parts

What is needed is closed: it holds all parts of the root, the graphs that escape through it, and
with a part the longest recorded prefix of whatever the part demands. The search finds the least
such set, in whatever order it looks at demands. No part of the root is reported dead for the root
itself. A slot of the root may still be reported for another graph, but only if the return node of
some graph was made to build a tuple or an environment and stands as such in the output of the root.
-/

namespace Midend

namespace Dependencies

variable {deps : Dependencies} {d : Demand} {v : Part} {g : GraphId} {p q q' : Path}

/-- Whether a part is recorded. -/
def Has (deps : Dependencies) (v : Part) : Prop := ∃ pd, deps.At v pd

/-- Whether `q` is the longest prefix of `p` that is recorded for `g`. -/
def Longest (deps : Dependencies) (g : GraphId) (p q : Path) : Prop :=
  q <+: p ∧ deps.Has (g, q) ∧ ∀ q', q' <+: p → deps.Has (g, q') → q'.length ≤ q.length

theorem Longest.unique (h : deps.Longest g p q) (h' : deps.Longest g p q') : q = q' := by
  have hlen : q.length = q'.length :=
    Nat.le_antisymm (h'.2.2 q h.1 h.2.1) (h.2.2 q' h'.1 h'.2.1)
  exact (List.prefix_of_prefix_length_le h.1 h'.1 (Nat.le_of_eq hlen)).eq_of_length hlen

theorem Answers.longest (h : deps.Answers d v) : v.1 = d.graph ∧ deps.Longest d.graph d.path v.2 := by
  obtain ⟨pd, hans⟩ := h
  obtain ⟨hg, hp, hat, hlong⟩ := answer?_eq_some hans
  refine ⟨hg, hp, ⟨pd, hg ▸ hat⟩, fun q hq ⟨pd', hat'⟩ => ?_⟩
  exact Nat.le_of_not_lt fun hlt => hlong q hq hlt pd' hat'

end Dependencies

namespace Store

variable {s : Store} {ds : OrderedMap NodeId (List Demand)} {deps : Dependencies} {g g' root : GraphId}
  {p q p' : Path} {pd pd' : PartDeps} {v : Part} {S : Set Part}

/-- Whether a set of parts holds all parts of the root, what escapes through it, and with a part what
the part demands. -/
structure Closed (s : Store) (deps : Dependencies) (root : GraphId) (S : Set Part) : Prop where
  root_mem : ∀ p, deps.Has (root, p) → (root, p) ∈ S
  escaping_mem : ∀ g p, g ∈ s.escaping root → deps.Has (g, p) → (g, []) ∈ S
  demand_mem : ∀ v pd d, v ∈ S → deps.At v pd → d ∈ pd.demands → (deps.get? d.graph).isSome →
    (s.arena.ret? d.graph).isSome → ∃ q, deps.Longest d.graph d.path q ∧ (d.graph, q) ∈ S

/-! ### The needed parts are closed, and in every closed set -/

namespace Analysed

variable (h : s.Analysed ds)
include h

theorem live_of_has (hv : (s.recordOf ds).Has v) :
    v.1 ∈ s.live.graphs ∧ (s.arena.ret? v.1).isSome := by
  obtain ⟨pd, hat⟩ := hv
  obtain ⟨r, out, m, hlive, hr, -⟩ := h.of_at hat
  exact ⟨hlive, by rw [hr]; rfl⟩

theorem closed_needed : s.Closed (s.recordOf ds) root {v | v ∈ s.needed ds root} := by
  refine ⟨fun p ⟨pd, hat⟩ => mem_needed_root hat, fun g p hg hat => ?_,
    fun v pd d hv hat hd hrec hret => ?_⟩
  · obtain ⟨hlive, hret⟩ := h.live_of_has hat
    obtain ⟨q, hq, hans⟩ := h.exists_answers (d := ⟨g, []⟩) hlive hret
    obtain rfl := List.prefix_nil.mp hq
    exact mem_neededParts_of_answers (d := ⟨g, []⟩)
      (List.mem_append_right _ (List.mem_map.mpr ⟨g, hg, rfl⟩)) hans
  · obtain ⟨parts, hparts⟩ := Option.isSome_iff_exists.mp hrec
    obtain ⟨hlive, -⟩ := get?_recordOf_eq_some_iff.mp hparts
    obtain ⟨q, -, hans⟩ := h.exists_answers hlive hret
    obtain ⟨pd', hat', hall⟩ := neededParts_closed hv
    obtain rfl := hat.unique hat'
    exact ⟨q, hans.longest.2, hall d hd _ hans⟩

theorem needed_subset (hS : s.Closed (s.recordOf ds) root S) :
    ∀ v ∈ s.needed ds root, v ∈ S := by
  refine Dependencies.searchFrom_subset (fun d hd ⟨g, q⟩ hv => ?_)
    fun v hv pd hat d hd ⟨g, q⟩ hw => ?_
  · obtain ⟨rfl, hlong⟩ := hv.longest
    rcases List.mem_append.mp (List.mem_reverse.mp hd) with hd | hd
    · obtain ⟨p, -, rfl⟩ := List.mem_map.mp hd
      exact hS.root_mem q hlong.2.1
    · obtain ⟨g, hg, rfl⟩ := List.mem_map.mp hd
      obtain rfl : q = [] := List.prefix_nil.mp hlong.1
      exact hS.escaping_mem g [] hg hlong.2.1
  · obtain ⟨rfl, hlong⟩ := hw.longest
    obtain ⟨-, hret⟩ := h.live_of_has hlong.2.1
    obtain ⟨pd', parts, hparts, -⟩ := id hlong.2.1
    obtain ⟨q', hlong', hq⟩ := hS.demand_mem v pd d hv hat hd (by simp [hparts]) hret
    obtain rfl : q' = q := hlong'.unique hlong
    exact hq

theorem isLeast_needed :
    IsLeast {S | s.Closed (s.recordOf ds) root S} {v | v ∈ s.needed ds root} :=
  ⟨h.closed_needed, fun _ hS _ hv => h.needed_subset hS _ hv⟩

end Analysed

/-! ### Prefixes -/

theorem partIsLive_of_prefix {seen : List Part} (h : partIsLive seen g p = true) (hq : q <+: p) :
    partIsLive seen g q = true := by
  obtain ⟨p', hp', hcases⟩ := partIsLive_iff.mp h
  refine partIsLive_iff.mpr ⟨p', hp', ?_⟩
  rcases hcases with hp | hp
  · exact Or.inl (hq.trans hp)
  · exact List.prefix_or_prefix_of_prefix hq hp

/-! ### Slots of the root -/

theorem ne_nil_of_mem_deadEdges {dead : List (GraphId × List Edge)} {x : GraphId × List Edge}
    (h : s.deadEdges root = .ok dead) (hx : x ∈ dead) : x.2 ≠ [] := by
  unfold deadEdges at h
  cases hdeps : s.dependencies with
  | error f => simp [hdeps, Except.map] at h
  | ok deps =>
    rw [hdeps] at h
    obtain rfl := (Except.ok.inj h).symm
    exact of_decide_eq_true (List.mem_filter.mp hx).2

/-- Whether no return node of a live graph makes a tuple or an environment. -/
def PlainReturns (s : Store) : Prop :=
  ∀ g ∈ s.live.graphs, ∀ r, s.arena.ret? g = some r →
    s.arena.applied? r ≠ some .makeTuple ∧ s.arena.applied? r ≠ some .envSet

/-- Whether no way into a slot passes through the return node of a live graph, coming from elsewhere
and taking it apart. -/
def ReturnsLast (s : Store) : Prop :=
  ∀ g ∈ s.live.graphs, ∀ r, s.arena.ret? g = some r → ∀ e,
    ¬ s.arena.Inside (s.live.Taken s.arena) e ⟨r, 1⟩

theorem PlainReturns.returnsLast (h : s.PlainReturns) : s.ReturnsLast := by
  intro g hg r hr e hinside
  obtain ⟨hnotTuple, hnotLayer⟩ := h g hg r hr
  obtain ⟨-, -, ⟨parts, ht⟩ | ⟨k, env, value, hl⟩⟩ := hinside
  · exact hnotTuple ht.1
  · exact hnotLayer hl.1

/-- A recorded slot is entered from the output slot of its graph. -/
theorem Analysed.within_of_at (h : s.Analysed ds) (hat : (s.recordOf ds).At v pd) : ∃ r,
    v.1 ∈ s.live.graphs ∧ s.arena.ret? v.1 = some r ∧
      s.arena.Within (s.live.Taken s.arena) ⟨r, 1⟩ pd.edge := by
  obtain ⟨r, out, m, hlive, hr, hout, -, -, ⟨-, he⟩ | hlisted⟩ := h.of_at hat
  · exact ⟨r, hlive, hr, he ▸ Relation.ReflTransGen.refl⟩
  · exact ⟨r, hlive, hr, hlisted.within_taken hout⟩

/-- No slot is entered from the outputs of two graphs: one return node would be taken apart to get from
the other to the slot. -/
theorem Analysed.graph_eq_of_within {r r' : NodeId} {e : Edge} (h : s.Analysed ds)
    (hret : s.ReturnsLast) (hg : g ∈ s.live.graphs) (hr : s.arena.ret? g = some r)
    (hg' : g' ∈ s.live.graphs) (hr' : s.arena.ret? g' = some r')
    (hw : s.arena.Within (s.live.Taken s.arena) ⟨r, 1⟩ e)
    (hw' : s.arena.Within (s.live.Taken s.arena) ⟨r', 1⟩ e) : g = g' := by
  have hnot : ∀ {g g' r r'}, g ∈ s.live.graphs → s.arena.ret? g = some r →
      s.arena.ret? g' = some r' → s.arena.Within (s.live.Taken s.arena) ⟨r', 1⟩ ⟨r, 1⟩ →
      g = g' := by
    intro g g' r r' hg hr hr' hw
    rcases Relation.ReflTransGen.cases_tail hw with heq | ⟨e, -, hinside⟩
    · obtain rfl : r = r' := (Edge.mk.inj heq).1
      have howner := h.wellFormed.ret_owner hr
      simpa [h.wellFormed.ret_owner hr'] using howner.symm
    · exact absurd hinside (hret g hg r hr e)
  have hlive := h.settled.agrees.ret_mem hg hr
  have hlive' := h.settled.agrees.ret_mem hg' hr'
  rcases h.settled.agrees.within_or (e := ⟨r, 1⟩) (f := ⟨r', 1⟩) hlive hlive' (fun _ hn => hn.1) hw
    hw' with hinto | hinto
  · exact hnot hg hr hr' hinto
  · exact (hnot hg' hr' hr hinto).symm

theorem Analysed.graph_eq_of_at (h : s.Analysed ds) (hret : s.ReturnsLast)
    (hat : (s.recordOf ds).At (g, p) pd) (hat' : (s.recordOf ds).At (g', p') pd')
    (he : pd.edge = pd'.edge) : g = g' := by
  obtain ⟨r, hg, hr, hw⟩ := h.within_of_at hat
  obtain ⟨r', hg', hr', hw'⟩ := h.within_of_at hat'
  exact h.graph_eq_of_within hret hg hr hg' hr' hw (he ▸ hw')

/-- A graph all of whose parts are live is not reported, and its slots are not reported for other graphs
either if no return node makes a tuple or an environment. -/
theorem Analysed.not_reported (h : s.Analysed ds) {dead : List (GraphId × List Edge)}
    (hdead : s.deadEdges root = .ok dead)
    (hlive : ∀ p, (s.recordOf ds).Has (g, p) → partIsLive (s.needed ds root) g p = true) :
    (∀ x ∈ dead, x.1 ≠ g) ∧ (s.PlainReturns →
      ∀ p pd, (s.recordOf ds).At (g, p) pd → ∀ x ∈ dead, pd.edge ∉ x.2) := by
  obtain ⟨ds', hds', hiff⟩ := deadEdges_spec hdead
  obtain rfl := Except.ok.inj (h.demands.symm.trans hds')
  have hnot : ∀ e, ¬ s.DeadSlot ds root g e := by
    rintro e ⟨p, pd, hat, -, hnone⟩
    obtain ⟨q, hq, hpq⟩ := partIsLive_iff.mp (hlive p ⟨pd, hat⟩)
    exact hnone q hq hpq
  refine ⟨fun x hx heq => ?_, fun hret p pd hat x hx he => ?_⟩
  · obtain ⟨e, he⟩ := List.exists_mem_of_ne_nil x.2 (ne_nil_of_mem_deadEdges hdead hx)
    exact hnot e ((hiff g e).mp ⟨x, hx, heq, he⟩)
  · have hslot := (hiff x.1 pd.edge).mp ⟨x, hx, rfl, he⟩
    obtain ⟨q, pd', hat', he', -⟩ := id hslot
    have heq : g = x.1 := h.graph_eq_of_at hret.returnsLast hat hat' he'.symm
    exact hnot pd.edge (heq ▸ hslot)

theorem partIsLive_of_mem_needed (hg : (g, []) ∈ s.needed ds root) :
    partIsLive (s.needed ds root) g p = true :=
  partIsLive_iff.mpr ⟨[], hg, Or.inr List.nil_prefix⟩

/-- The search meets the least closed set of parts, and so does every search, which ends, whatever the
order. The parts kept are the prefixes of those; a part is live if one of those leads to it or lies
within it, and then so is whatever leads to it. Nothing is reported dead for the root, and no slot of
the root for any graph if no return node makes a tuple or an environment. -/
theorem isLeast_neededParts (hs : s.Reachable) (hac : s.arena.Acyclic)
    (hroot : root ∈ s.arena.graphIds) (hdeps : (s.keepRoots [root]).dependencies = .ok deps) :
    IsLeast {S | (s.keepRoots [root]).Closed deps root S}
      {v | v ∈ (s.keepRoots [root]).neededParts deps root} ∧
    (WellFounded fun t' t => deps.Turn t t') ∧
    (∀ t, Relation.ReflTransGen deps.Turn ⟨[], [], (s.keepRoots [root]).firstDemands deps root⟩ t →
      (∀ t', ¬ deps.Turn t t') → ∀ v, v ∈ t.seen ↔ v ∈ (s.keepRoots [root]).neededParts deps root) ∧
    (∀ g p, (g, p) ∈ keptParts ((s.keepRoots [root]).neededParts deps root) ↔
      ∃ q, (g, q) ∈ (s.keepRoots [root]).neededParts deps root ∧ p <+: q) ∧
    (∀ g p, partIsLive ((s.keepRoots [root]).neededParts deps root) g p = true ↔
      ∃ q, (g, q) ∈ (s.keepRoots [root]).neededParts deps root ∧ (q <+: p ∨ p <+: q)) ∧
    (∀ g p q, q <+: p → partIsLive ((s.keepRoots [root]).neededParts deps root) g p = true →
      partIsLive ((s.keepRoots [root]).neededParts deps root) g q = true) ∧
    ∃ dead, (s.keepRoots [root]).deadEdges root = .ok dead ∧ (∀ x ∈ dead, x.1 ≠ root) ∧
      ((s.keepRoots [root]).PlainReturns →
        ∀ p pd, deps.At (root, p) pd → ∀ x ∈ dead, pd.edge ∉ x.2) := by
  obtain ⟨ds, hds, rfl⟩ := dependencies_eq_ok_iff.mp hdeps
  have han := hs.analysed hac hroot hds
  refine ⟨han.isLeast_needed, Dependencies.wellFounded_turn _,
    fun t hturns hend _ => Dependencies.mem_seen_iff_of_turns hturns hend
      fun _ => List.mem_reverse, fun _ _ => mem_keptParts,
    fun g p => partIsLive_iff.trans (exists_congr fun q => and_congr_right fun _ => Or.comm),
    fun g p q hq hp => partIsLive_of_prefix hp hq, ?_⟩
  obtain ⟨dead, hdead⟩ : ∃ dead, (s.keepRoots [root]).deadEdges root = .ok dead := by
    simp [deadEdges, hdeps, Except.map]
  refine ⟨dead, hdead, han.not_reported hdead fun p hp => ?_⟩
  obtain ⟨pd, hat⟩ := hp
  exact partIsLive_iff.mpr ⟨p, mem_needed_root hat, Or.inl (List.prefix_refl p)⟩

theorem needed_keptBase : ((keptBase.keepRoots [⟨2⟩]).dependencies.toOption.map fun deps =>
    (keptBase.keepRoots [⟨2⟩]).neededParts deps ⟨2⟩) = some [(⟨1⟩, [.key "k"]), (⟨2⟩, [])] := by
  cbv

/-- The reader of `keptBase` needs its own output and the entry that it reads, and nothing else. -/
theorem isLeast_neededParts_keptBase : ∃ deps dead,
    IsLeast {S | (keptBase.keepRoots [⟨2⟩]).Closed deps ⟨2⟩ S} {(⟨1⟩, [.key "k"]), (⟨2⟩, [])} ∧
    (keptBase.keepRoots [⟨2⟩]).deadEdges ⟨2⟩ = .ok dead ∧ ∀ x ∈ dead, ⟨⟨20⟩, 1⟩ ∉ x.2 := by
  have hs := reachedAcyclic_keptBase
  have hroot : (⟨2⟩ : GraphId) ∈ keptBase.arena.graphIds := by decide
  obtain ⟨deps, hdeps, hneeded⟩ := Option.map_eq_some_iff.mp needed_keptBase
  have hok : (keptBase.keepRoots [⟨2⟩]).dependencies = .ok deps := by
    cases hd : (keptBase.keepRoots [⟨2⟩]).dependencies with
    | error f => simp [hd, Except.toOption] at hdeps
    | ok deps' => simpa [hd, Except.toOption] using hdeps
  obtain ⟨hleast, -, -, -, -, -, dead, hdead, -, hslots⟩ :=
    isLeast_neededParts hs.reachable hs.acyclic hroot hok
  obtain ⟨ds, hds, rfl⟩ := dependencies_eq_ok_iff.mp hok
  have han := hs.reachable.analysed hs.acyclic hroot hds
  have hlive := hs.reachable.live_root hroot
  have hat := han.exists_at hlive (r := ⟨20⟩) (by decide)
  have hset : {v : Part | v ∈ [(⟨1⟩, [.key "k"]), (⟨2⟩, [])]} =
      {((⟨1⟩ : GraphId), [Step.key "k"]), (⟨2⟩, [])} := by
    ext v
    simp
  rw [hneeded, hset] at hleast
  have hplain : (keptBase.keepRoots [⟨2⟩]).PlainReturns := fun g _ r hr => by
    have happ : (keptBase.keepRoots [⟨2⟩]).arena.applied? r = some .ret :=
      applied_ret_keptBase g r hr
    simp [happ]
  exact ⟨_, dead, hleast, hdead, hslots hplain [] _ hat⟩

/-- A graph whose return node builds a tuple, which stands in the output of a second graph. -/
def rebuilt : Store := Store.empty.performAll
  [.newGraph "g", .constant (.prim .makeTuple) (some (.function [.prim .makeTuple])),
    .addParameter ⟨0⟩ (some .int64), .setOutput ⟨0⟩ ⟨1⟩, .setEdge ⟨⟨3⟩, 0⟩ ⟨0⟩,
    .newGraph "main", .constant (.graph ⟨0⟩) (some (.function [.graph ⟨0⟩])),
    .constant (.prim .add) (some (.function [.prim .add])),
    .apply ⟨1⟩ [⟨5⟩, ⟨4⟩, ⟨4⟩] (some .int64),
    .apply ⟨1⟩ [⟨0⟩, ⟨3⟩, ⟨6⟩] (some (.tuple [.int64, .int64])), .setOutput ⟨1⟩ ⟨7⟩]

theorem called_rebuilt : rebuilt.Called := Called.start.performAll (by decide)

theorem acyclic_rebuilt : rebuilt.arena.Acyclic := by
  refine Arena.acyclic_of_lt fun n hn m hm => ?_
  have hall : ∀ n ∈ rebuilt.arena.nodeIds, ∀ m ∈ rebuilt.arena.inputs n, m.index < n.index := by
    decide
  exact hall n hn m hm

theorem deadEdges_rebuilt :
    (rebuilt.keepRoots [⟨1⟩]).deadEdges ⟨1⟩ = .ok [(⟨0⟩, [⟨⟨3⟩, 1⟩])] := by
  cbv

/-- The element of that tuple is recorded for the second graph, the root, and reported dead as the
output of the first. -/
theorem root_slot_reported_dead :
    rebuilt.Reachable ∧ rebuilt.arena.Acyclic ∧ ⟨1⟩ ∈ rebuilt.arena.graphIds ∧
    ∃ deps pd dead, (rebuilt.keepRoots [⟨1⟩]).dependencies = .ok deps ∧
      deps.At (⟨1⟩, [.index 0, .index 0]) pd ∧
      (rebuilt.keepRoots [⟨1⟩]).deadEdges ⟨1⟩ = .ok dead ∧ ∃ x ∈ dead, pd.edge ∈ x.2 := by
  have hs := called_rebuilt.reachable
  have hroot : (⟨1⟩ : GraphId) ∈ rebuilt.arena.graphIds := by decide
  obtain ⟨ds, hds, -⟩ := deadEdges_spec deadEdges_rebuilt
  have hlive := hs.live_root hroot
  have htop : (rebuilt.keepRoots [⟨1⟩]).live.useCount ⟨7⟩ = 1 := by cbv
  have hreturn : (rebuilt.keepRoots [⟨1⟩]).live.useCount ⟨3⟩ = 1 := by cbv
  have htuple : rebuilt.arena.IsTuple ⟨7⟩ [⟨3⟩, ⟨6⟩] := ⟨by decide, _, rfl⟩
  have htuple' : rebuilt.arena.IsTuple ⟨3⟩ [⟨1⟩] := ⟨by decide, _, rfl⟩
  have hopens : (rebuilt.keepRoots [⟨1⟩]).live.Opens rebuilt.arena ⟨⟨9⟩, 1⟩ [.index 0, .index 0]
      ⟨⟨3⟩, 1⟩ :=
    .element (n := ⟨7⟩) rfl (Nat.le_of_eq htop) htuple rfl
      (.element (n := ⟨3⟩) rfl (Nat.le_of_eq hreturn) htuple' rfl (.here _))
  have hat := (hs.analysed acyclic_rebuilt hroot hds).at_of_opens hlive (r := ⟨9⟩) (by decide) hopens
  exact ⟨hs, acyclic_rebuilt, hroot, _, _, _, dependencies_eq_ok_iff.mpr ⟨ds, hds, rfl⟩, hat,
    deadEdges_rebuilt, _, List.mem_singleton.mpr rfl, List.mem_singleton.mpr rfl⟩

end Store

end Midend
