import Midend.Proofs.Demand.Cuts
import Midend.Proofs.Store.Built

/-!
# The outputs that remaining calls target

The output of a graph that stays live is cut exactly if no part of it is needed. A part that is only
kept, because it leads to a needed one, stays in the program although nothing follows the demands of
what is in it.
-/

namespace Midend

namespace Store

variable {s s' : Store} {ds : OrderedMap NodeId (List Demand)} {g root : GraphId} {n r : NodeId}
  {e : Edge} {k : Nat}

/-- The output slot of a graph that returns is dead only for the graph itself, and as a whole. -/
theorem Analysed.of_deadSlot_ret (h : s.Analysed ds) {g' : GraphId}
    (happ : s.arena.applied? r = some .ret) (hr : s.arena.ret? g = some r)
    (hd : s.DeadSlot ds root g' ⟨r, 1⟩) :
    g ∈ s.live.graphs ∧ ∀ p, (g, p) ∉ s.needed ds root := by
  obtain ⟨p, pd, hat, he, hdead⟩ := hd
  obtain ⟨r', out, m, hlive, hr', -, -, -, hlisted⟩ := h.of_at hat
  rcases hlisted with ⟨hp, he'⟩ | hlisted
  · obtain rfl : r' = r := (Edge.mk.inj (he'.symm.trans he)).1
    have howner := h.wellFormed.ret_owner hr
    obtain rfl : g' = g := by
      simpa [h.wellFormed.ret_owner hr'] using howner
    refine ⟨hlive, fun q hq => hdead q hq (Or.inl ?_)⟩
    simp only at hp
    exact hp ▸ List.nil_prefix
  · rcases hlisted.owner with ⟨parts, happ', _⟩ | ⟨k, env, value, happ', _⟩
    · rw [he, happ] at happ'
      cases happ'
    · rw [he, happ] at happ'
      cases happ'

/-- What lies under the output of the root is read. -/
theorem Analysed.isRead_of_under (h : s.Analysed ds) {out : NodeId} (hroot : root ∈ s.live.graphs)
    (hr : s.arena.ret? root = some r) (hout : s.arena.slot? ⟨r, 1⟩ = some out)
    (hu : s.arena.Under out n) : s.IsRead ds root n :=
  have hat := h.exists_at hroot hr
  ⟨(root, []), mem_needed_root hat, _, out, hat, hout, hu⟩

/-- An output is cut exactly if no part of it is needed, and a graph that a remaining call names keeps
its output if the call is read. -/
theorem output_kept_of_read (hs : s.Reachable) (hac : s.arena.Acyclic)
    (hroot : root ∈ s.arena.graphIds) (hdead : ∀ n, s.arena.value? n ≠ some .dead)
    (hret : ∀ g r, s.arena.ret? g = some r → s.arena.applied? r = some .ret)
    (h : s.cutDead root = (s', .ok k)) :
    ∃ ds, (s.keepRoots [root]).demands = .ok ds ∧
      (∀ g r, g ∈ s'.live.graphs → s'.arena.ret? g = some r →
        (s'.arena.HoldsDead ⟨r, 1⟩ ↔ ∀ p, (g, p) ∉ (s.keepRoots [root]).needed ds root)) ∧
      ∀ n g r, n ∈ s'.live.nodes → s'.arena.isApply n = true → s'.arena.indexing? n = none →
        s'.arena.CallNames n g → s'.arena.ret? g = some r →
        (s.keepRoots [root]).IsRead ds root n → ¬ s'.arena.HoldsDead ⟨r, 1⟩ := by
  obtain ⟨ds, han, hr', hcut, hall⟩ := cutDead_spec hs hac hroot h
  have hkept : ∀ {g r}, s'.arena.ret? g = some r → s'.arena.HoldsDead ⟨r, 1⟩ →
      g ∈ (s.keepRoots [root]).live.graphs ∧ ∀ p, (g, p) ∉ (s.keepRoots [root]).needed ds root := by
    intro g r hgr hd
    rw [hcut.arena.ret?] at hgr
    have hmem := han.wellFormed.ret_mem hgr
    rcases hcut.arena.slots (e := ⟨r, 1⟩) hmem with hsame | ⟨⟨g', hd'⟩, -⟩
    · obtain ⟨m, hm, hv⟩ := hd
      rw [hsame] at hm
      rw [hcut.arena.value (han.wellFormed.slot_mem hm)] at hv
      exact absurd hv (hdead m)
    · exact han.of_deadSlot_ret (hret g r hgr) hgr hd'
  refine ⟨ds, han.demands, fun g r hg hgr => ⟨fun hd => (hkept hgr hd).2, fun hnone => ?_⟩, ?_⟩
  · refine hall g ⟨r, 1⟩ ⟨[], _, han.exists_at (hcut.graphs hg) (hcut.arena.ret? ▸ hgr), rfl,
      fun q hq => absurd hq (hnone q)⟩ hg ?_
    exact hr'.settled.agrees.ret_mem hg hgr
  · rintro n g r hn - hnix hnames hgr ⟨v, hv, pd, m, hat, hm, hu⟩ hd
    obtain ⟨hlive, hnone⟩ := hkept hgr hd
    have hn' := han.live_of_under hat hm hu
    have hmem := han.settled.agrees.mem_nodeIds hn'
    have hnix' := han.indexing?_of_cutTo hcut hmem hnix
    have hnames' := han.callNames_of_cutTo hcut hmem hnames
    have hret' : ((s.keepRoots [root]).arena.ret? g).isSome := by
      rw [← hcut.arena.ret?, hgr]
      rfl
    obtain ⟨q, hcov⟩ := han.exists_covered hat hm hu hv
    obtain ⟨p, -, hp⟩ := han.exists_needed_of_callNames hcov hn' hnix' hnames' hlive hret'
    exact hnone p hp

/-- A function that overwrites an entry of what a call returns, and a reader of that entry. -/
def keptBase : Store :=
  let s := (Store.empty.newGraph "id").2
  let (e, s) := s.param ⟨0⟩ "e" (some .env)
  let s := s.addReturn ⟨0⟩ e
  let s := (s.newGraph "put").2
  let (e, s) := s.param ⟨1⟩ "e" (some .env)
  let (x, s) := s.param ⟨1⟩ "x" (some .int64)
  let (base, s) := s.callGraph ⟨1⟩ ⟨0⟩ [e] (some .env)
  let (layer, s) := s.envSet ⟨1⟩ base "k" x
  let s := s.addReturn ⟨1⟩ layer
  let s := (s.newGraph "main").2
  let (e, s) := s.param ⟨2⟩ "e" (some .env)
  let (x, s) := s.param ⟨2⟩ "x" (some .int64)
  let (r, s) := s.callGraph ⟨2⟩ ⟨1⟩ [e, x] (some .env)
  let (v, s) := s.envGet ⟨2⟩ r "k" x
  s.addReturn ⟨2⟩ v

theorem reachedAcyclic_keptBase : keptBase.ReachedAcyclic :=
  ReachedAcyclic.start.newGraph "id"
    |>.param ⟨0⟩ "e" (some .env) (by decide)
    |>.addReturn ⟨0⟩ ⟨0⟩ (by decide) (by decide) (by decide)
    |>.newGraph "put"
    |>.param ⟨1⟩ "e" (some .env) (by decide)
    |>.param ⟨1⟩ "x" (some .int64) (by decide)
    |>.callGraph ⟨1⟩ ⟨0⟩ [⟨3⟩] (some .env) (by decide) (by decide) (by decide)
    |>.envSet ⟨1⟩ ⟨6⟩ "k" ⟨4⟩ (by decide) (by decide) (by decide)
    |>.addReturn ⟨1⟩ ⟨9⟩ (by decide) (by decide) (by decide)
    |>.newGraph "main"
    |>.param ⟨2⟩ "e" (some .env) (by decide)
    |>.param ⟨2⟩ "x" (some .int64) (by decide)
    |>.callGraph ⟨2⟩ ⟨1⟩ [⟨12⟩, ⟨13⟩] (some .env) (by decide) (by decide) (by decide)
    |>.envGet ⟨2⟩ ⟨15⟩ "k" ⟨13⟩ (by decide) (by decide) (by decide)
    |>.addReturn ⟨2⟩ ⟨18⟩ (by decide) (by decide) (by decide)

theorem no_dead_keptBase (n : NodeId) : keptBase.arena.value? n ≠ some .dead := by
  intro hv
  have hall : ∀ n ∈ keptBase.arena.nodeIds, keptBase.arena.value? n ≠ some .dead := by decide
  exact hall n (Arena.mem_nodeIds_of_value? hv) hv

theorem applied_ret_keptBase (g : GraphId) (r : NodeId) (hr : keptBase.arena.ret? g = some r) :
    keptBase.arena.applied? r = some .ret := by
  have hall : ∀ g ∈ keptBase.arena.graphIds, ∀ r ∈ keptBase.arena.ret? g,
      keptBase.arena.applied? r = some .ret := by decide
  exact hall g (Arena.mem_graphIds_of_ret? hr) r hr

/-- A look at the two calls of `keptBase` and at the output that the inner one targets. -/
def glimpse (r : Store × Except Fault Nat) : Bool × List (Bool × Bool × Bool) ×
    List (Option NodeId) × Option Value × List (Option Ty) × List (Option NodeId) :=
  (r.2 matches .ok 1,
    [⟨6⟩, ⟨15⟩].map fun n =>
      (decide (n ∈ r.1.live.nodes.toList), r.1.arena.isApply n, (r.1.arena.indexing? n).isNone),
    [⟨⟨6⟩, 0⟩, ⟨⟨15⟩, 0⟩, ⟨⟨2⟩, 1⟩].map r.1.arena.slot?, r.1.arena.value? ⟨21⟩,
    [⟨5⟩, ⟨14⟩].map r.1.arena.type?, [⟨0⟩, ⟨1⟩].map r.1.arena.ret?)

theorem glimpse_keptBase : glimpse (keptBase.cutDead ⟨2⟩) =
    (true, [(true, true, true), (true, true, true)], [some ⟨5⟩, some ⟨14⟩, some ⟨21⟩], some .dead,
      [some (.function [.graph ⟨0⟩]), some (.function [.graph ⟨1⟩])], [some ⟨2⟩, some ⟨11⟩]) := by
  cbv

/-- Both calls stay, and the output of the first graph is cut. -/
theorem exists_cutDead_keptBase : ∃ s', keptBase.cutDead ⟨2⟩ = (s', .ok 1) ∧
    (∀ n ∈ [(⟨6⟩ : NodeId), ⟨15⟩], n ∈ s'.live.nodes ∧ s'.arena.isApply n = true ∧
      s'.arena.indexing? n = none) ∧
    s'.arena.CallNames ⟨6⟩ ⟨0⟩ ∧ s'.arena.CallNames ⟨15⟩ ⟨1⟩ ∧
    s'.arena.ret? ⟨0⟩ = some ⟨2⟩ ∧ s'.arena.ret? ⟨1⟩ = some ⟨11⟩ ∧ s'.arena.HoldsDead ⟨⟨2⟩, 1⟩ := by
  have hg := glimpse_keptBase
  generalize keptBase.cutDead ⟨2⟩ = r at hg
  obtain ⟨s', k⟩ := r
  simp only [glimpse, List.map_cons, List.map_nil, Prod.mk.injEq, List.cons.injEq,
    decide_eq_true_eq, Option.isNone_iff_eq_none, and_true] at hg
  obtain ⟨hk, ⟨h6, h15⟩, ⟨hf6, hf15, hout⟩, hdead, ⟨ht6, ht15⟩, hr0, hr1⟩ := hg
  refine ⟨s', ?_, ?_, ?_, ?_, hr0, hr1, ⟨_, hout, hdead⟩⟩
  · split at hk
    · rfl
    · cases hk
  · simp only [List.forall_mem_cons]
    exact ⟨h6, h15, by simp⟩
  · exact ⟨_, _, _, _, hf6, by rw [ht6]; rfl, List.mem_singleton.mpr rfl, rfl⟩
  · exact ⟨_, _, _, _, hf15, by rw [ht15]; rfl, List.mem_singleton.mpr rfl, rfl⟩

/-- The call that the reader makes is read, so its target keeps its output. -/
theorem output_kept_of_read_keptBase :
    ∃ s', keptBase.cutDead ⟨2⟩ = (s', .ok 1) ∧ s'.arena.CallNames ⟨15⟩ ⟨1⟩ ∧
      ¬ s'.arena.HoldsDead ⟨⟨11⟩, 1⟩ := by
  have hs := reachedAcyclic_keptBase
  obtain ⟨s', hok, hcalls, -, hnames, -, hr1, -⟩ := exists_cutDead_keptBase
  have hroot : (⟨2⟩ : GraphId) ∈ keptBase.arena.graphIds := by decide
  obtain ⟨ds, hds, -, hread⟩ := output_kept_of_read hs.reachable hs.acyclic hroot no_dead_keptBase
    applied_ret_keptBase hok
  have han := hs.reachable.analysed hs.acyclic hroot hds
  have hlive := hs.reachable.live_root hroot
  have hunder : keptBase.arena.Under ⟨18⟩ ⟨15⟩ := Arena.under_of_mem_inputs (by decide)
  have hisRead := han.isRead_of_under hlive (r := ⟨20⟩) (by decide) (by decide) hunder
  obtain ⟨hn, happ, hnix⟩ := hcalls ⟨15⟩ (by simp)
  exact ⟨s', hok, hnames, hread ⟨15⟩ ⟨1⟩ ⟨11⟩ hn happ hnix hnames hr1 hisRead⟩

/-- The call below the overwritten entry stays, although the output of its target is cut. -/
theorem output_cut_of_kept_call :
    keptBase.Reachable ∧ keptBase.arena.Acyclic ∧ (∀ n, keptBase.arena.value? n ≠ some .dead) ∧
    ∃ s', keptBase.cutDead ⟨2⟩ = (s', .ok 1) ∧ ⟨6⟩ ∈ s'.live.nodes ∧
      s'.arena.isApply ⟨6⟩ = true ∧ s'.arena.indexing? ⟨6⟩ = none ∧ s'.arena.CallNames ⟨6⟩ ⟨0⟩ ∧
      s'.arena.ret? ⟨0⟩ = some ⟨2⟩ ∧ s'.arena.HoldsDead ⟨⟨2⟩, 1⟩ := by
  have hs := reachedAcyclic_keptBase
  obtain ⟨s', hok, hcalls, hnames, -, hr0, -, hdead⟩ := exists_cutDead_keptBase
  obtain ⟨hn, happ, hnix⟩ := hcalls ⟨6⟩ (by simp)
  exact ⟨hs.reachable, hs.acyclic, no_dead_keptBase, s', hok, hn, happ, hnix, hnames, hr0, hdead⟩

end Store

end Midend
