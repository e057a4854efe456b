import Mathlib
import Midend.Proofs.Arena.Refitted
import Midend.Proofs.Merge.Steps

/-!
# Nodes that a merge without effect leaves

Nodes of one group are compared with its first member only, and applies by the very nodes they use.
Two applies of one graph that use equal nodes of different graphs compute the same and are of one
group, but are not merged; the first of them hides what follows. As long as no two shapes have the
same hash this is the only way to miss a merge.
-/

namespace Midend

namespace Arena

variable {a b : Arena} {n m : NodeId} {root : GraphId}

theorem exists_unfolds_apply (h : a.isApply n = true) (hm : a.isApply m = true)
    (hin : a.inputs n = a.inputs m) (hex : ∃ u, a.Unfolds n u) :
    ∃ us, a.Unfolds n (.apply us) ∧ a.Unfolds m (.apply us) := by
  obtain ⟨u, hu⟩ := hex
  have hk := kind?_of_isApply h
  cases hu with
  | constant hk' => simp [hk] at hk'
  | parameter hk' => simp [hk] at hk'
  | @apply _ inputs us hk' hlen hall =>
    have hm' : a.kind? m = some (.apply inputs) := by
      rw [kind?_of_isApply hm, ← hin, inputs_of_kind? hk']
    exact ⟨us, .apply hk' hlen hall, .apply hm' hlen hall⟩

/-- Whether constants belong to no graph. -/
def Floating (a : Arena) : Prop := ∀ n v, a.value? n = some v → a.owner? n = none

theorem Floating.congr (h : a.Floating) (hv : ∀ n, b.value? n = a.value? n)
    (ho : ∀ n, b.owner? n = a.owner? n) : b.Floating := fun n v hn => by
  rw [ho]
  exact h n v (hv n ▸ hn)

theorem Floating.addNode {k : NodeKind} {o : Option GraphId} {t : Option Ty} (h : a.Floating)
    (hk : k.value? = none ∨ o = none) : (a.addNode k o t).2.Floating := by
  intro n v hn
  simp only [value?, kind?, owner?, node?_addNode] at hn ⊢
  split at hn
  · next heq =>
    rw [if_pos heq, Option.bind_some]
    have hv : k.value? = some v := by simpa using hn
    exact hk.resolve_left (by simp [hv])
  · next hne =>
    rw [if_neg hne]
    exact h n v hn

theorem Floating.modifyNode {f : Node → Node} (h : a.Floating) (n : NodeId)
    (hf : ∀ d, (f d).kind = d.kind ∧ (f d).owner = d.owner) : (a.modifyNode n f).Floating := by
  refine h.congr (fun m => ?_) fun m => ?_
  · simp only [value?, kind?, node?_modifyNode]
    split <;> simp [Function.comp_def, hf]
  · simp only [owner?, node?_modifyNode]
    split
    · rw [Option.bind_map, show Node.owner ∘ f = Node.owner from funext fun d => (hf d).2]
    · rfl

end Arena

namespace Store

open Arena (Floating)

variable {s s' : Store} {root : GraphId}

theorem floating_step (h : s.arena.Floating) (hs : Transition s s') : s'.arena.Floating := by
  have hsetEdge : ∀ {e new s'}, s.setEdge e new = .ok s' → s'.arena.Floating := fun hok => by
    rw [arena_setEdge hok]
    exact h.congr (fun n => s.arena.value?_setSlot _ _) fun n => s.arena.owner?_setSlot _ _
  cases hs with
  | newGraph name => exact h.congr (fun _ => rfl) fun _ => rfl
  | @addParameter g t hg =>
    have hadd : (s.arena.addNode .parameter (some g) t).2.Floating := h.addNode (Or.inl rfl)
    rw [addParameter]
    simp only [arena_acquireIn]
    exact hadd.congr (fun _ => rfl) fun _ => rfl
  | constant t hv => exact h.addNode (Or.inr rfl)
  | apply t hg hin => exact h.addNode (Or.inl rfl)
  | @setOutput _ g out hg hout hok =>
    unfold Store.setOutput at hok
    split at hok
    · exact hsetEdge hok
    · rw [← Except.ok.inj hok, addReturn, arena_acquireIn]
      have hconst : (s.constant (.prim .ret)).2.arena.Floating := h.addNode (Or.inr rfl)
      have happly : ((s.constant (.prim .ret)).2.apply g [(s.constant (.prim .ret)).1, out]
          (s.arena.type? out)).2.arena.Floating := hconst.addNode (Or.inl rfl)
      exact happly.congr (fun _ => rfl) fun _ => rfl
  | setType n t => exact h.modifyNode n fun _ => ⟨rfl, rfl⟩
  | setLabel n label => exact h.modifyNode n fun _ => ⟨rfl, rfl⟩
  | addRoot hg => exact h
  | keepRoots hgs => exact h
  | setEdge hnew hok => exact hsetEdge hok

theorem Reachable.floating (h : s.Reachable) : s.arena.Floating := by
  induction h with
  | empty _ => exact fun n v hn => by simp [Store.empty, Arena.empty, Arena.value?, Arena.kind?,
      Arena.node?] at hn
  | step _ hs _ ih => exact floating_step ih hs

/-! ### What a merge without effect leaves -/

theorem Settled.live_of_returned (h : s.Settled False) (hroot : root ∈ s.live.graphs) {n : NodeId}
    (hn : s.arena.Returned [root] n) : n ∈ s.live.nodes := by
  obtain ⟨g, hg, r, hr, hu⟩ := hn
  obtain ⟨root', hroot', hl⟩ := Arena.mem_reachable.mp hg
  obtain rfl := List.mem_singleton.mp hroot'
  exact h.agrees.mem_of_under (h.agrees.ret_mem (h.live_of_leads hroot hl) hr) hu

section

variable [Hashable Shape]

/-- Two nodes of one class and one owner are in a group, where one of them was compared in vain with
the first member. -/
theorem exists_unmergeable {r : Grouping} {x y : NodeId} {c : UInt64} (h : r.Faithful s.arena)
    (hgroups : ∀ key ms, r.groups.get? key = some ms → s.Unmergeable ms)
    (hlive : ∀ n, (∃ c, r.classes.get? n = some c) → n ∈ s.live.nodes)
    (hx : r.classes.get? x = some c) (hy : r.classes.get? y = some c)
    (ho : s.arena.owner? x = s.arena.owner? y) (hne : x ≠ y) : ∃ p q,
      r.classes.get? p = some c ∧ r.classes.get? q = some c ∧
      s.arena.owner? p = s.arena.owner? x ∧ s.arena.owner? q = s.arena.owner? x ∧
      s.arena.mergeable p q = false := by
  obtain ⟨ms, hms, hxm⟩ := h.grouped x c hx
  obtain ⟨ms', hms', hym⟩ := h.grouped y c hy
  obtain rfl : ms = ms' := by
    rw [ho] at hms
    exact Option.some.inj (hms.symm.trans hms')
  cases ms with
  | nil => cases hxm
  | cons main others =>
    have hin : ∀ m ∈ main :: others, r.classes.get? m = some c ∧
        s.arena.owner? m = s.arena.owner? x := h.members c _ _ hms
    obtain ⟨q, hq⟩ : ∃ q, q ∈ others := by
      rcases List.mem_cons.mp hxm with hxm | hxm
      · rcases List.mem_cons.mp hym with hym | hym
        · exact absurd (hxm.trans hym.symm) hne
        · exact ⟨y, hym⟩
      · exact ⟨x, hxm⟩
    have hmain := hin main List.mem_cons_self
    have hqin := hin q (List.mem_cons_of_mem main hq)
    exact ⟨main, q, hmain.1, hqin.1, hmain.2, hqin.2,
      hgroups _ _ hms q hq (hlive main ⟨c, hmain.1⟩) (hlive q ⟨c, hqin.1⟩)⟩

end

end Store

/-- Whether two applies of one graph that compute the same use, in one place, applies of different
graphs that compute the same. -/
def Arena.ForeignTwins (a : Arena) (root : GraphId) : Prop :=
  ∃ p q i m k, (a.Returned [root] p ∧ a.Returned [root] q ∧ a.owner? p = a.owner? q ∧
      ∃ u, a.Unfolds p u ∧ a.Unfolds q u) ∧
    a.slot? ⟨p, i⟩ = some m ∧ a.slot? ⟨q, i⟩ = some k ∧ a.isApply m = true ∧ a.isApply k = true ∧
    a.owner? m ≠ a.owner? k ∧ ∃ u, a.Unfolds m u ∧ a.Unfolds k u

namespace Store

variable {s s' : Store} {root : GraphId}

/-- What a faithful grouping without collisions says of a store in which everything under the root is
live and no group has anything to merge. -/
structure Ungrouped [Hashable Shape] (s : Store) (root : GraphId) (r : Grouping) : Prop where
  faithful : r.Faithful s.arena
  apart : s.arena.NoCollision root
  unfolds : ∀ n, s.arena.Returned [root] n → ∃ u, s.arena.Unfolds n u
  classed : ∀ n, (∃ c, r.classes.get? n = some c) ↔ s.arena.Returned [root] n
  unmergeable : ∀ key ms, r.groups.get? key = some ms → s.Unmergeable ms
  live : ∀ n, s.arena.Returned [root] n → n ∈ s.live.nodes
  floating : s.arena.Floating

section

variable [Hashable Shape] {r : Grouping} (h : s.Ungrouped root r)
include h

theorem Ungrouped.exists_unmergeable {x y : NodeId} {u : Unfolding} (hx : s.arena.Returned [root] x)
    (hy : s.arena.Returned [root] y) (hux : s.arena.Unfolds x u) (huy : s.arena.Unfolds y u)
    (ho : s.arena.owner? x = s.arena.owner? y) (hne : x ≠ y) : ∃ p q,
      s.arena.Returned [root] p ∧ s.arena.Returned [root] q ∧ s.arena.Unfolds p u ∧
      s.arena.Unfolds q u ∧ s.arena.owner? p = s.arena.owner? q ∧
      s.arena.mergeable p q = false := by
  obtain ⟨c, hc⟩ := (h.classed x).mpr hx
  obtain ⟨d, hd⟩ := (h.classed y).mpr hy
  obtain rfl := h.faithful.class_eq hux huy hc hd
  obtain ⟨p, q, hp, hq, hpo, hqo, hfalse⟩ := Store.exists_unmergeable h.faithful h.unmergeable
    (fun n hn => h.live n ((h.classed n).mp hn)) hc hd ho hne
  have hrp := (h.classed p).mp ⟨c, hp⟩
  have hrq := (h.classed q).mp ⟨c, hq⟩
  exact ⟨p, q, hrp, hrq, h.apart.unfolds h.faithful hx hrp hux (h.unfolds p hrp) hc hp,
    h.apart.unfolds h.faithful hx hrq hux (h.unfolds q hrq) hc hq, hpo.trans hqo.symm, hfalse⟩

theorem Ungrouped.constants {x y : NodeId} {v : Value} (hx : s.arena.Returned [root] x)
    (hy : s.arena.Returned [root] y) (hvx : s.arena.value? x = some v)
    (hvy : s.arena.value? y = some v) (hkey : s.arena.typeKey? x = s.arena.typeKey? y) : x = y := by
  by_contra hne
  have hux := Arena.Unfolds.constant (Arena.kind?_of_value? hvx)
  have huy : s.arena.Unfolds y (.constant v (s.arena.typeKey? x)) :=
    hkey ▸ Arena.Unfolds.constant (Arena.kind?_of_value? hvy)
  obtain ⟨p, q, -, -, hup, huq, -, hfalse⟩ := h.exists_unmergeable hx hy hux huy
    ((h.floating x v hvx).trans (h.floating y v hvy).symm) hne
  obtain ⟨hkp, hkeyp⟩ := Arena.unfolds_constant_iff.mp hup
  obtain ⟨hkq, hkeyq⟩ := Arena.unfolds_constant_iff.mp huq
  simp [Arena.mergeable, hkp, hkq, hkeyp, hkeyq] at hfalse

end

/-- Applies that unfold to one tree and cannot be merged use different nodes in some place. -/
theorem exists_slot?_ne {us : List Unfolding} {p q : NodeId} (hp : s.arena.Unfolds p (.apply us))
    (hq : s.arena.Unfolds q (.apply us)) (hfalse : s.arena.mergeable p q = false) :
    ∃ i m k u, s.arena.slot? ⟨p, i⟩ = some m ∧ s.arena.slot? ⟨q, i⟩ = some k ∧ m ≠ k ∧
      u ∈ us ∧ s.arena.Unfolds m u ∧ s.arena.Unfolds k u := by
  obtain ⟨ps, hkp, hlenp, hallp⟩ := Arena.unfolds_apply_iff.mp hp
  obtain ⟨qs, hkq, hlenq, hallq⟩ := Arena.unfolds_apply_iff.mp hq
  have hinputs : ps ≠ qs := by simpa [Arena.mergeable, hkp, hkq] using hfalse
  obtain ⟨i, hi, hi', hdiff⟩ : ∃ i, ∃ (hi : i < ps.length) (hi' : i < qs.length),
      ps[i] ≠ qs[i] := by
    by_contra hall
    push Not at hall
    exact hinputs (List.ext_getElem (hlenp.trans hlenq.symm) fun i hi hi' => hall i hi hi')
  have hiu : i < us.length := hlenp ▸ hi
  have hm := List.getElem?_eq_getElem hi
  have hk := List.getElem?_eq_getElem hi'
  have hu := List.getElem?_eq_getElem hiu
  refine ⟨i, ps[i], qs[i], us[i], ?_, ?_, hdiff, List.getElem_mem hiu, hallp i _ _ hm hu,
    hallq i _ _ hk hu⟩
  · rw [Arena.slot?, Arena.inputs_of_kind? hkp, hm]
  · rw [Arena.slot?, Arena.inputs_of_kind? hkq, hk]

section

variable [Hashable Shape] {r : Grouping} (h : s.Ungrouped root r)
include h

/-- Two applies of one graph with equal trees lead to foreign twins. -/
theorem Ungrouped.foreignTwins : ∀ (us : List Unfolding) (x y : NodeId),
    s.arena.Returned [root] x → s.arena.Returned [root] y → s.arena.owner? x = s.arena.owner? y →
    x ≠ y → s.arena.Unfolds x (.apply us) → s.arena.Unfolds y (.apply us) →
    s.arena.ForeignTwins root := by
  intro us x y hx hy ho hne hux huy
  -- by induction on the tree: the first member of the group of `x` and `y` and one that was not
  -- merged into it use different nodes in some place, which unfold to one smaller tree
  obtain ⟨p, q, hp, hq, hup, huq, hpq, hfalse⟩ := h.exists_unmergeable hx hy hux huy ho hne
  obtain ⟨i, m, k, w, hm, hk, hdiff, hw, hum, huk⟩ := exists_slot?_ne hup huq hfalse
  have hrm : s.arena.Returned [root] m := hp.input (Arena.mem_inputs_of_slot? hm)
  have hrk : s.arena.Returned [root] k := hq.input (Arena.mem_inputs_of_slot? hk)
  cases w with
  | constant v key =>
    -- constants float, so equal ones are in one group and are one node by now
    obtain ⟨hkm, hkeym⟩ := Arena.unfolds_constant_iff.mp hum
    obtain ⟨hkk, hkeyk⟩ := Arena.unfolds_constant_iff.mp huk
    exact absurd (h.constants hrm hrk (Arena.value?_of_kind? hkm) (Arena.value?_of_kind? hkk)
      (hkeym.trans hkeyk.symm)) hdiff
  | parameter n =>
    have hmn := (Arena.unfolds_parameter_iff.mp hum).1
    have hkn := (Arena.unfolds_parameter_iff.mp huk).1
    exact absurd (hmn.trans hkn.symm) hdiff
  | apply ws =>
    by_cases hown : s.arena.owner? m = s.arena.owner? k
    · have hsize : sizeOf ws < sizeOf us := by
        have hlt := List.sizeOf_lt_of_mem hw
        rw [Unfolding.apply.sizeOf_spec] at hlt
        omega
      exact Ungrouped.foreignTwins ws m k hrm hrk hown hdiff hum huk
    · obtain ⟨_, hkm, -, -⟩ := Arena.unfolds_apply_iff.mp hum
      obtain ⟨_, hkk, -, -⟩ := Arena.unfolds_apply_iff.mp huk
      exact ⟨p, q, i, m, k, ⟨hp, hq, hpq, .apply us, hup, huq⟩, hm, hk,
        by simp [Arena.isApply, hkm], by simp [Arena.isApply, hkk], hown, _, hum, huk⟩
termination_by us => sizeOf us

end

/-! ### Merging until nothing changes -/

section

variable [Hashable Shape]

/-- Passes of merging that each report a merge lead from one store to another. -/
def MergedUntil (root : GraphId) (s s' : Store) : Prop :=
  Relation.ReflTransGen (fun s s' => s.mergeEqual root = (s', .ok true)) s s'

theorem MergedUntil.stepsAcyclic (h : s.MergedUntil root s') (hr : s.Reachable)
    (hac : s.arena.Acyclic) (hroot : root ∈ s.arena.graphIds) :
    s.StepsAcyclic s' ∧ root ∈ s'.arena.graphIds := by
  induction h with
  | refl => exact ⟨Relation.ReflTransGen.refl, hroot⟩
  | @tail s₁ s₂ _ hpass ih =>
    obtain ⟨hsteps, hroot₁⟩ := ih
    have hr₁ := hsteps.reachable hr
    have hac₁ := hsteps.acyclic hac
    have hex : s₁.Unfoldable := fun n hn => hac₁.exists_unfolds hr₁.settled.wellFormed hn
    obtain ⟨-, hm⟩ := merged_mergeEqual hr₁ hex hroot₁
    have hone := stepsAcyclic_mergeEqual hr₁ hac₁ hroot₁
    rw [hpass] at hm hone
    refine ⟨hsteps.trans hone, ?_⟩
    rw [Arena.mem_graphIds, hm.graphs]
    exact (Arena.mem_graphIds _).mp hroot₁

/-- Once merging reports no change, no two constants under the root have the same payload and type
key, and no two applies of one graph have the same inputs, unless two applies of one graph use equal
applies of different graphs. It is assumed that no two shapes have the same hash, and that what live
constants name is live, as it is if the inputs never formed a cycle. -/
theorem canonical_of_mergeEqual_false {s₁ : Store} (h : s.Reachable) (hac : s.arena.Acyclic)
    (hheld : ∀ n ∈ s.live.nodes, ∀ g, s.arena.heldGraph? n = some g → g ∈ s.live.graphs)
    (hroot : root ∈ s.arena.graphIds) (huntil : s.MergedUntil root s₁)
    (hok : s₁.mergeEqual root = (s', .ok false)) (hno : s'.arena.NoCollision root) :
    (∀ x y v, s'.arena.Returned [root] x → s'.arena.Returned [root] y →
      s'.arena.value? x = some v → s'.arena.value? y = some v →
      s'.arena.typeKey? x = s'.arena.typeKey? y → x = y) ∧
    ∀ x y, s'.arena.Returned [root] x → s'.arena.Returned [root] y →
      s'.arena.isApply x = true → s'.arena.isApply y = true →
      s'.arena.owner? x = s'.arena.owner? y → s'.arena.inputs x = s'.arena.inputs y →
      x = y ∨ s'.arena.ForeignTwins root := by
  obtain ⟨hsteps, hroot₁⟩ := huntil.stepsAcyclic h hac hroot
  have hr₁ := hsteps.reachable h
  have hac₁ := hsteps.acyclic hac
  obtain ⟨rfl, r, hfaithful, hclassed, hgroups⟩ := mergeEqual_eq_false hac₁ hok
  have hs : (s₁.addRoot root).Settled False :=
    ((h.settled.strict hheld).steps hsteps).addRoot hroot₁
  have hlive : root ∈ (s₁.addRoot root).live.graphs :=
    hs.roots_live root (OrderedSet.mem_insert.mpr (Or.inl rfl))
  have hwf := hr₁.settled.wellFormed
  have hun : (s₁.addRoot root).Ungrouped root r :=
    ⟨hfaithful, hno, fun n hn => hac₁.exists_unfolds hwf (Arena.Returned.mem_nodeIds hn hwf),
      hclassed, hgroups, fun n hn => hs.live_of_returned hlive hn, hr₁.floating⟩
  refine ⟨fun x y v hx hy hvx hvy hkey => hun.constants hx hy hvx hvy hkey,
    fun x y hx hy happ happ' ho hin => ?_⟩
  by_cases hxy : x = y
  · exact Or.inl hxy
  · obtain ⟨us, hux, huy⟩ := Arena.exists_unfolds_apply happ happ' hin
      (hac₁.exists_unfolds hr₁.settled.wellFormed
        (Arena.mem_nodeIds_of_kind? (Arena.kind?_of_isApply happ)))
    exact Or.inr (hun.foreignTwins us x y hx hy ho hxy hux huy)

end

/-- The second pass over a pair of equal sums finds nothing, and each payload is there once. -/
theorem canonical_of_mergeEqual_false_twinSums :
    ((twinSums.mergeEqual ⟨0⟩).1.mergeEqual ⟨0⟩).2 = .ok false ∧
    ∀ x y v, ((twinSums.mergeEqual ⟨0⟩).1.mergeEqual ⟨0⟩).1.arena.Returned [⟨0⟩] x →
      ((twinSums.mergeEqual ⟨0⟩).1.mergeEqual ⟨0⟩).1.arena.Returned [⟨0⟩] y →
      ((twinSums.mergeEqual ⟨0⟩).1.mergeEqual ⟨0⟩).1.arena.value? x = some v →
      ((twinSums.mergeEqual ⟨0⟩).1.mergeEqual ⟨0⟩).1.arena.value? y = some v →
      ((twinSums.mergeEqual ⟨0⟩).1.mergeEqual ⟨0⟩).1.arena.typeKey? x =
        ((twinSums.mergeEqual ⟨0⟩).1.mergeEqual ⟨0⟩).1.arena.typeKey? y → x = y := by
  have hr := reachedAcyclic_twinSums
  have hfirst : twinSums.mergeEqual ⟨0⟩ = ((twinSums.mergeEqual ⟨0⟩).1, .ok true) :=
    Prod.ext rfl (by cbv)
  have hsecond : ((twinSums.mergeEqual ⟨0⟩).1.mergeEqual ⟨0⟩).2 = .ok false := by cbv
  have hroot : (⟨0⟩ : GraphId) ∈ twinSums.arena.graphIds := by decide
  have hsteps := stepsAcyclic_mergeEqual hr.reachable hr.acyclic hroot
  have hac := hsteps.acyclic hr.acyclic
  have hroot' : (⟨0⟩ : GraphId) ∈ (twinSums.mergeEqual ⟨0⟩).1.arena.graphIds :=
    of_decide_eq_true (by cbv)
  have hac' := (stepsAcyclic_mergeEqual (hsteps.reachable hr.reachable) hac hroot').acyclic hac
  have hall := canonical_of_mergeEqual_false hr.reachable hr.acyclic
    (fun n hn g hg => hr.settled.mem_graphs_of_held hn hg) hroot
    (Relation.ReflTransGen.single hfirst) (Prod.ext rfl hsecond)
    (Arena.noCollision_of_distinguishes hac' (by cbv))
  exact ⟨hsecond, hall.1⟩

/-- Two graphs own equal negations; a third one negates the first of them once and the second
twice. -/
def hiddenTwins : Store := Store.empty.performAll
  [.newGraph "first", .newGraph "second", .newGraph "main", .constant (.int 1) none,
    .constant (.prim .neg) none, .constant (.prim .makeTuple) none, .apply ⟨0⟩ [⟨1⟩, ⟨0⟩] none,
    .apply ⟨1⟩ [⟨1⟩, ⟨0⟩] none, .apply ⟨2⟩ [⟨1⟩, ⟨3⟩] none, .apply ⟨2⟩ [⟨1⟩, ⟨4⟩] none,
    .apply ⟨2⟩ [⟨1⟩, ⟨4⟩] none, .apply ⟨2⟩ [⟨2⟩, ⟨5⟩, ⟨6⟩, ⟨7⟩] none, .setOutput ⟨2⟩ ⟨8⟩]

theorem called_hiddenTwins : hiddenTwins.Called :=
  Called.start.performAll (of_decide_eq_true (by cbv))

/-- Nothing is merged, although two applies have the same owner and the same inputs and no shapes
collide. -/
theorem not_canonical_hiddenTwins :
    hiddenTwins.Called ∧ hiddenTwins.arena.Acyclic ∧ hiddenTwins.arena.NoCollision ⟨2⟩ ∧
    (hiddenTwins.mergeEqual ⟨2⟩).2 = .ok false ∧
    (hiddenTwins.mergeEqual ⟨2⟩).1.arena.Returned [⟨2⟩] ⟨6⟩ ∧
    (hiddenTwins.mergeEqual ⟨2⟩).1.arena.Returned [⟨2⟩] ⟨7⟩ ∧
    (hiddenTwins.mergeEqual ⟨2⟩).1.arena.isApply ⟨6⟩ = true ∧
    (hiddenTwins.mergeEqual ⟨2⟩).1.arena.isApply ⟨7⟩ = true ∧
    (hiddenTwins.mergeEqual ⟨2⟩).1.arena.owner? ⟨6⟩ =
      (hiddenTwins.mergeEqual ⟨2⟩).1.arena.owner? ⟨7⟩ ∧
    (hiddenTwins.mergeEqual ⟨2⟩).1.arena.inputs ⟨6⟩ =
      (hiddenTwins.mergeEqual ⟨2⟩).1.arena.inputs ⟨7⟩ ∧
    (⟨6⟩ : NodeId) ≠ ⟨7⟩ := by
  have hreach : (hiddenTwins.mergeEqual ⟨2⟩).1.arena.reachable [⟨2⟩] = [⟨2⟩] := by cbv
  have hret : (hiddenTwins.mergeEqual ⟨2⟩).1.arena.ret? ⟨2⟩ = some ⟨10⟩ := by cbv
  have hbelow : (hiddenTwins.mergeEqual ⟨2⟩).1.arena.preorder ⟨10⟩ =
      [⟨10⟩, ⟨9⟩, ⟨8⟩, ⟨2⟩, ⟨5⟩, ⟨1⟩, ⟨3⟩, ⟨0⟩, ⟨6⟩, ⟨4⟩, ⟨7⟩] := by cbv
  have hreturned : ∀ n ∈ [(⟨6⟩ : NodeId), ⟨7⟩],
      (hiddenTwins.mergeEqual ⟨2⟩).1.arena.Returned [⟨2⟩] n := by
    intro n hn
    refine ⟨⟨2⟩, by rw [hreach]; exact List.mem_cons_self, ⟨10⟩, hret, ?_⟩
    rw [← Arena.mem_preorder, hbelow]
    exact List.mem_of_mem_filter (p := fun m => m ∈ [(⟨6⟩ : NodeId), ⟨7⟩]) hn
  have hac : hiddenTwins.arena.Acyclic := of_decide_eq_true (by cbv)
  exact ⟨called_hiddenTwins, hac, Arena.noCollision_of_distinguishes hac (by cbv), by cbv,
    hreturned _ (by decide), hreturned _ (by decide), by cbv, by cbv, by cbv, by cbv, by decide⟩

end Store

end Midend
