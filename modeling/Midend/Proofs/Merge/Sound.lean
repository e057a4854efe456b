import Mathlib
import Midend.Merge.Hash
import Midend.Proofs.Merge.Unfolding
import Midend.Proofs.OrderedMap
import Midend.Proofs.Store.Built

/-!
# Merging keeps what nodes compute

A merge points slots at nodes that unfold to the same tree, so every merge leaves every unfolding
alone, and later groups find the nodes as equal as before. How the groups were found does not matter,
as long as the members of each have one owner.
-/

namespace Midend

namespace Arena

variable {a b c : Arena} {n m old new main other : NodeId} {g : GraphId} {e : Edge}

/-- Whether `new` computes what `old` does, and belongs to the same graph if `old` is an apply. -/
def Alike (a : Arena) (old new : NodeId) : Prop :=
  (∃ u, a.Unfolds old u ∧ a.Unfolds new u) ∧
    (a.isApply old = true → a.isApply new = true ∧ a.owner? new = a.owner? old)

/-- What holds between an arena and the one that merging makes of it. -/
structure Merged (a b : Arena) : Prop where
  unfolds : ∀ {n u}, a.Unfolds n u → b.Unfolds n u
  nodeIds : b.nodeIds = a.nodeIds
  graphs : b.graphs = a.graphs
  isApply : ∀ n, b.isApply n = a.isApply n
  owner : ∀ n, b.owner? n = a.owner? n
  slots : ∀ {e m}, a.slot? e = some m → ∃ m', b.slot? e = some m' ∧
    (a.isApply m = true → a.isApply m' = true ∧ a.owner? m' = a.owner? m)

theorem Merged.refl (a : Arena) : a.Merged a :=
  ⟨id, rfl, rfl, fun _ => rfl, fun _ => rfl, fun {_ m} he => ⟨m, he, fun hm => ⟨hm, rfl⟩⟩⟩

theorem Merged.trans (h : a.Merged b) (h' : b.Merged c) : a.Merged c := by
  refine ⟨fun hu => h'.unfolds (h.unfolds hu), h'.nodeIds.trans h.nodeIds,
    h'.graphs.trans h.graphs, fun n => (h'.isApply n).trans (h.isApply n),
    fun n => (h'.owner n).trans (h.owner n), fun {e m} he => ?_⟩
  obtain ⟨m₁, he₁, hm₁⟩ := h.slots he
  obtain ⟨m₂, he₂, hm₂⟩ := h'.slots he₁
  refine ⟨m₂, he₂, fun hm => ?_⟩
  obtain ⟨happ₁, hown₁⟩ := hm₁ hm
  obtain ⟨happ₂, hown₂⟩ := hm₂ ((h.isApply m₁).trans happ₁)
  rw [h.isApply] at happ₂
  rw [h.owner, h.owner] at hown₂
  exact ⟨happ₂, hown₂.trans hown₁⟩

theorem Merged.alike (h : a.Merged b) (hal : a.Alike old new) : b.Alike old new := by
  obtain ⟨⟨u, hold, hnew⟩, happ⟩ := hal
  refine ⟨⟨u, h.unfolds hold, h.unfolds hnew⟩, ?_⟩
  rwa [h.isApply, h.isApply, h.owner, h.owner]

theorem Merged.ret? (h : a.Merged b) : b.ret? g = a.ret? g :=
  ret?_congr (by simp only [graph?, h.graphs])

/-- One slot goes over to a node that computes the same. -/
theorem Merged.setSlot (hslot : a.slot? e = some old) (hal : a.Alike old new) :
    a.Merged (a.setSlot e new) := by
  obtain ⟨⟨u, hold, hnew⟩, happ⟩ := hal
  have hsame : ∀ w, a.Unfolds old w → a.Unfolds new w := fun w hw => hold.unique hw ▸ hnew
  refine ⟨fun {n w} hw => Unfolds.setSlot hslot hsame w n hw, ?_, rfl,
    fun n => a.isApply_setSlot e new, fun n => a.owner?_setSlot e new, fun {e' m} he' => ?_⟩
  · simp [Arena.nodeIds, Arena.setSlot, modifyNode]
  · by_cases hee : e' = e
    · subst hee
      obtain rfl : old = m := Option.some.inj (hslot.symm.trans he')
      exact ⟨new, slot?_setSlot_self new hslot, happ⟩
    · exact ⟨m, (slot?_setSlot_of_ne new hee).trans he', fun hm => ⟨hm, rfl⟩⟩

theorem alike_of_mergeable (h : a.mergeable main other = true)
    (hex : ∃ u, a.Unfolds main u) (hown : a.owner? other = a.owner? main) :
    a.Alike other main := by
  obtain ⟨u, hu⟩ := hex
  unfold Arena.mergeable at h
  split at h
  · next v w hm ho =>
    obtain ⟨rfl, hkey⟩ : v = w ∧ a.typeKey? main = a.typeKey? other := by simpa using h
    refine ⟨⟨_, .constant ho, hkey ▸ .constant hm⟩, fun happ => ?_⟩
    simp [isApply, ho] at happ
  · next xs ys hm ho =>
    obtain rfl : xs = ys := by simpa using h
    have hother : a.Unfolds other u := by
      cases hu with
      | constant hk => simp [hm] at hk
      | parameter hk => simp [hm] at hk
      | apply hk hlen hall =>
        obtain rfl := NodeKind.apply.inj (Option.some.inj (hm.symm.trans hk))
        exact .apply ho hlen hall
    exact ⟨⟨u, hother, hu⟩, fun _ => ⟨by simp [isApply, hm], hown.symm⟩⟩
  · cases h

/-- Merging changes nothing in what graphs name. -/
theorem Merged.names_iff {h : GraphId} (hm : a.Merged b)
    (hex : ∀ r, a.ret? g = some r → ∃ u, a.Unfolds r u) : b.Names g h ↔ a.Names g h := by
  constructor
  · rintro ⟨r, n, hr, hu, hg⟩
    rw [hm.ret?] at hr
    obtain ⟨u, hru⟩ := hex r hr
    obtain ⟨n', hu', hg'⟩ := hru.names_iff.mp ((hm.unfolds hru).names_iff.mpr ⟨n, hu, hg⟩)
    exact ⟨r, n', hr, hu', hg'⟩
  · rintro ⟨r, n, hr, hu, hg⟩
    obtain ⟨u, hru⟩ := hex r hr
    obtain ⟨n', hu', hg'⟩ := (hm.unfolds hru).names_iff.mp (hru.names_iff.mpr ⟨n, hu, hg⟩)
    exact ⟨r, n', hm.ret?.trans hr, hu', hg'⟩

/-! ### Members of a group -/

/-- Whether every member of every group has the owner in the key of its group. -/
def GroupedByOwner (a : Arena) (r : Grouping) : Prop :=
  ∀ p ∈ r.groups.entries, ∀ m ∈ p.2, a.owner? m = p.1.2

variable [Hashable Shape]

theorem GroupedByOwner.add {r r' : Grouping} (h : a.GroupedByOwner r) (hok : r.add a n = .ok r') :
    a.GroupedByOwner r' := by
  unfold Grouping.add at hok
  split at hok
  · exact Except.ok.inj hok ▸ h
  · cases hs : r.shape a n with
    | error f => simp [hs, Except.map] at hok
    | ok s =>
      rw [hs] at hok
      obtain rfl := (Except.ok.inj hok).symm
      intro p hp m hm
      have hp' : p ∈ (r.groups.append (hash s, a.owner? n) [n]).entries := hp
      rcases OrderedMap.mem_entries_append hp' with hp | ⟨hkey, hall⟩
      · exact h p hp m hm
      · rw [hkey]
        rcases hall m hm with hmn | ⟨ms, hms, hm⟩
        · rw [List.mem_singleton.mp hmn]
        · exact h _ hms m hm

theorem GroupedByOwner.addAll {r r' : Grouping} {ns : List NodeId} (h : a.GroupedByOwner r)
    (hok : r.addAll a ns = .ok r') : a.GroupedByOwner r' := by
  induction ns generalizing r with
  | nil => exact Except.ok.inj hok ▸ h
  | cons n ns ih =>
    unfold Grouping.addAll at hok
    split at hok
    · next r₁ hadd => exact ih (h.add hadd) hok
    · cases hok

theorem owner_of_mem_groups {root : GraphId} {gs : List (Option GraphId × List NodeId)}
    (h : a.groups root = .ok gs) : ∀ p ∈ gs, ∀ m ∈ p.2, a.owner? m = p.1 := by
  unfold groups at h
  cases hr : Grouping.empty.addAll a (a.groupOrder root) with
  | error f => simp [hr, Except.map] at h
  | ok r =>
    have hempty : a.GroupedByOwner .empty := fun p hp => absurd hp List.not_mem_nil
    have hall := hempty.addAll hr
    rw [hr] at h
    obtain rfl := (Except.ok.inj h).symm
    intro p hp m hm
    obtain ⟨q, hq, rfl⟩ := List.mem_map.mp hp
    exact hall q hq m hm

end Arena

namespace Store

open Arena (Alike Merged)

variable {s s' : Store} {main old new : NodeId} {root : GraphId}

/-! ### From one slot to all groups -/

theorem merged_setEdges {es : List Edge} (hnodup : es.Nodup)
    (hslot : ∀ e ∈ es, s.arena.slot? e = some old) (hal : s.arena.Alike old new) :
    s.arena.Merged (s.setEdges new es).1.arena := by
  induction es generalizing s with
  | nil => exact Merged.refl s.arena
  | cons e es ih =>
    obtain ⟨hnot, hnodup⟩ := List.nodup_cons.mp hnodup
    unfold setEdges
    split
    · next s₁ hok =>
      have hone : s.arena.Merged s₁.arena := by
        rw [arena_setEdge hok]
        exact Merged.setSlot (hslot e List.mem_cons_self) hal
      refine hone.trans (ih hnodup (fun e' he' => ?_) (hone.alike hal))
      rw [arena_setEdge hok, Arena.slot?_setSlot_of_ne new (ne_of_mem_of_not_mem he' hnot)]
      exact hslot e' (List.mem_cons_of_mem e he')
    · exact Merged.refl s.arena

theorem merged_replace (h : s.Reachable) (hal : s.arena.Alike old new) :
    s.arena.Merged (s.replace old new).1.arena := by
  unfold replace
  split
  · exact Merged.refl s.arena
  · refine merged_setEdges (s.live.usesOf old).nodup (fun e he => ?_) hal
    exact ((h.settled.agrees.mem_usesOf fun _ _ hf => hf).mp he).2

/-- Whether every node of the store has an unfolding. -/
def Unfoldable (s : Store) : Prop := ∀ n ∈ s.arena.nodeIds, ∃ u, s.arena.Unfolds n u

theorem Unfoldable.merged (h : s.Unfoldable) (hm : s.arena.Merged s'.arena) : s'.Unfoldable := by
  intro n hn
  obtain ⟨u, hu⟩ := h n (hm.nodeIds ▸ hn)
  exact ⟨u, hm.unfolds hu⟩

theorem merged_mergeInto {others : List NodeId} (hr : s.Reachable) (hex : s.Unfoldable)
    (hown : ∀ m ∈ others, s.arena.owner? m = s.arena.owner? main) :
    (s.mergeInto main others).1.Reachable ∧
      s.arena.Merged (s.mergeInto main others).1.arena := by
  induction others generalizing s with
  | nil => exact ⟨hr, Merged.refl s.arena⟩
  | cons other rest ih =>
    have hrest : ∀ m ∈ rest, s.arena.owner? m = s.arena.owner? main := fun m hm =>
      hown m (List.mem_cons_of_mem other hm)
    unfold mergeInto
    by_cases hc : main ∈ s.live.nodes ∧ other ∈ s.live.nodes ∧
        s.arena.mergeable main other = true
    · rw [if_pos hc]
      have hmain := hr.settled.agrees.mem_nodeIds hc.1
      have hal := Arena.alike_of_mergeable hc.2.2 (hex main hmain) (hown other List.mem_cons_self)
      have hone := merged_replace hr hal
      have hr₁ : (s.replace other main).1.Reachable := hr.replace hmain
      split
      · next s₁ f hrep =>
        rw [hrep] at hone hr₁
        exact ⟨hr₁, hone⟩
      · next s₁ hrep =>
        rw [hrep] at hone hr₁
        obtain ⟨hr₂, hm₂⟩ := ih hr₁ (hex.merged hone) fun m hm => by
          rw [hone.owner, hone.owner, hrest m hm]
        exact ⟨hr₂, hone.trans hm₂⟩
    · rw [if_neg hc]
      exact ih hr hex hrest

/-- Merging groups whose members share their owner keeps every unfolding, however the groups were
found. -/
theorem merged_mergeGroups {gs : List (List NodeId)} (hr : s.Reachable) (hex : s.Unfoldable)
    (hown : ∀ ms ∈ gs, ∃ o, ∀ m ∈ ms, s.arena.owner? m = o) :
    (s.mergeGroups gs).1.Reachable ∧ s.arena.Merged (s.mergeGroups gs).1.arena := by
  induction gs generalizing s with
  | nil => exact ⟨hr, Merged.refl s.arena⟩
  | cons ms rest ih =>
    have hrest : ∀ ms ∈ rest, ∃ o, ∀ m ∈ ms, s.arena.owner? m = o := fun ms' hms =>
      hown ms' (List.mem_cons_of_mem ms hms)
    cases ms with
    | nil => exact ih hr hex hrest
    | cons main others =>
      obtain ⟨o, ho⟩ := hown (main :: others) List.mem_cons_self
      have hsame : ∀ m ∈ others, s.arena.owner? m = s.arena.owner? main := fun m hm =>
        (ho m (List.mem_cons_of_mem main hm)).trans (ho main List.mem_cons_self).symm
      obtain ⟨hr₁, hm₁⟩ := merged_mergeInto hr hex hsame
      unfold mergeGroups
      split
      · next s₁ f hinto =>
        rw [hinto] at hr₁ hm₁
        exact ⟨hr₁, hm₁⟩
      · next s₁ k hinto =>
        rw [hinto] at hr₁ hm₁
        obtain ⟨hr₂, hm₂⟩ := ih hr₁ (hex.merged hm₁) fun ms hms => by
          obtain ⟨o, ho⟩ := hrest ms hms
          exact ⟨o, fun m hm => (hm₁.owner m).trans (ho m hm)⟩
        exact ⟨hr₂, hm₁.trans hm₂⟩

section

variable [Hashable Shape]

theorem mergeEqual_of_error {f : Fault} (hg : s.arena.groups root = .error f) :
    s.mergeEqual root = (s.addRoot root, .error f) := by
  have hg' : (s.addRoot root).arena.groups root = .error f := hg
  simp only [mergeEqual, groupNodes, hg']

theorem merged_mergeEqual (hr : s.Reachable) (hex : s.Unfoldable)
    (hroot : root ∈ s.arena.graphIds) :
    (s.mergeEqual root).1.Reachable ∧ s.arena.Merged (s.mergeEqual root).1.arena := by
  have hr₁ : (s.addRoot root).Reachable := hr.step (.addRoot hroot)
  cases hg : (s.addRoot root).arena.groups root with
  | error f =>
    rw [mergeEqual_of_error (s := s) hg]
    exact ⟨hr₁, Merged.refl s.arena⟩
  | ok gs =>
    have heq : (s.mergeEqual root).1 = ((s.addRoot root).mergeGroups (gs.map Prod.snd)).1 := by
      simp only [mergeEqual, groupNodes, hg]
    rw [heq]
    refine merged_mergeGroups (s := s.addRoot root) hr₁ hex fun ms hms => ?_
    obtain ⟨p, hp, rfl⟩ := List.mem_map.mp hms
    exact ⟨p.1, Arena.owner_of_mem_groups hg p hp⟩

/-- Merging equal nodes keeps the unfolding of every node, return nodes and parameters, puts only
applies of the same graph in place of applies, and keeps what the root reaches. -/
theorem mergeEqual_keeps_unfoldings {merged : Bool} (hr : s.Reachable)
    (hac : s.arena.Acyclic) (hroot : root ∈ s.arena.graphIds)
    (hok : s.mergeEqual root = (s', .ok merged)) :
    s'.arena.nodeIds = s.arena.nodeIds ∧
    (∀ n ∈ s.arena.nodeIds, ∃ u, (∀ w, s.arena.Unfolds n w ↔ w = u) ∧
      ∀ w, s'.arena.Unfolds n w ↔ w = u) ∧
    (∀ g, s'.arena.ret? g = s.arena.ret? g ∧ s'.arena.parameters g = s.arena.parameters g) ∧
    (∀ e m, s.arena.slot? e = some m → ∃ m', s'.arena.slot? e = some m' ∧
      (s.arena.isApply m = true →
        s'.arena.isApply m' = true ∧ s'.arena.owner? m' = s.arena.owner? m)) ∧
    ∀ g, g ∈ s'.arena.reachable [root] ↔ g ∈ s.arena.reachable [root] := by
  have hwf := hr.settled.wellFormed
  have hex : s.Unfoldable := fun n hn => hac.exists_unfolds hwf hn
  obtain ⟨-, hm⟩ := merged_mergeEqual hr hex hroot
  rw [hok] at hm
  have hgraph : ∀ g, s'.arena.graph? g = s.arena.graph? g := fun g =>
    congrArg (fun graphs : Array Graph => graphs[g.index]?) hm.graphs
  refine ⟨hm.nodeIds, fun n hn => ?_, fun g => ?_, fun e m he => ?_, fun g => ?_⟩
  · obtain ⟨u, hu⟩ := hex n hn
    refine ⟨u, fun w => ⟨fun hw => hw.unique hu, fun hw => hw ▸ hu⟩, fun w => ?_⟩
    exact ⟨fun hw => hw.unique (hm.unfolds hu), fun hw => hw ▸ hm.unfolds hu⟩
  · exact ⟨Arena.ret?_congr (hgraph g), Arena.parameters_congr (hgraph g)⟩
  · obtain ⟨m', he', hm'⟩ := hm.slots he
    refine ⟨m', he', fun happ => ?_⟩
    rw [hm.isApply, hm.owner]
    exact hm' happ
  · have hnames : ∀ g h, s'.arena.Names g h ↔ s.arena.Names g h := fun g h =>
      hm.names_iff fun r hr => hex r (hwf.ret_mem hr)
    have heq : s'.arena.Names = s.arena.Names := funext₂ fun g h => propext (hnames g h)
    simp only [Arena.mem_reachable, Arena.Leads, heq]

end

/-- A graph of one parameter that returns a pair of two equal sums. -/
def twinSums : Store :=
  let s := (Store.empty.newGraph "twice").2
  let (x, s) := s.param ⟨0⟩ "x" (some .int64)
  let (y, s) := s.callPrim ⟨0⟩ .add [x, x] (some .int64)
  let (z, s) := s.callPrim ⟨0⟩ .add [x, x] (some .int64)
  let (p, s) := s.tuple ⟨0⟩ [y, z]
  s.addReturn ⟨0⟩ p

theorem reachedAcyclic_twinSums : twinSums.ReachedAcyclic :=
  ReachedAcyclic.start.newGraph "twice"
    |>.param ⟨0⟩ "x" (some .int64) (by decide)
    |>.callPrim ⟨0⟩ .add [⟨0⟩, ⟨0⟩] (some .int64) (by decide) (by decide)
    |>.callPrim ⟨0⟩ .add [⟨0⟩, ⟨0⟩] (some .int64) (by decide) (by decide)
    |>.tuple ⟨0⟩ [⟨2⟩, ⟨4⟩] (by decide) (by decide)
    |>.addReturn ⟨0⟩ ⟨6⟩ (by decide) (by decide) (by decide)

theorem mergeEqual_keeps_unfoldings_twinSums :
    (twinSums.mergeEqual ⟨0⟩).2 = .ok true ∧
    (twinSums.mergeEqual ⟨0⟩).1.arena.slot? ⟨⟨6⟩, 2⟩ = some ⟨2⟩ ∧
    ∀ n ∈ twinSums.arena.nodeIds, ∃ u, (∀ w, twinSums.arena.Unfolds n w ↔ w = u) ∧
      ∀ w, (twinSums.mergeEqual ⟨0⟩).1.arena.Unfolds n w ↔ w = u := by
  have hr := reachedAcyclic_twinSums
  have hok : (twinSums.mergeEqual ⟨0⟩).2 = .ok true := by cbv
  have hroot : (⟨0⟩ : GraphId) ∈ twinSums.arena.graphIds := by decide
  have hall := mergeEqual_keeps_unfoldings hr.reachable hr.acyclic hroot (Prod.ext rfl hok)
  exact ⟨hok, by cbv, hall.2.1⟩

end Store

end Midend
