import Mathlib
import Midend.Proofs.Demand.Cuts
import Midend.Proofs.Optimize.Merging
import Midend.Proofs.Store.Exact

/-!
# What cutting leaves of an arena

Cut slots hold the output of a graph or a part that is built in it, and all that is built around
such a part is used only once. So from a slot that cannot be cut no way leads down to a slot that is
cut: going up from there the sole uses end at a return node, which nothing uses.
-/

namespace Midend

namespace Arena

variable {a b : Arena} {E : Edge → Prop} {n : NodeId} {u : Unfolding} {root : GraphId}

/-- Cuts that are not under a node leave its unfolding alone. -/
theorem CutTo.unfolds (h : a.CutTo b E) (hwf : a.WellFormed) (hn : n ∈ a.nodeIds)
    (hfree : ∀ m, a.Under n m → ∀ e, E e → e.owner ≠ m) (hu : a.Unfolds n u) : b.Unfolds n u := by
  induction hu with
  | @constant n v hk =>
    have hkey : b.typeKey? n = a.typeKey? n := by simp only [typeKey?, h.type hn]
    exact hkey ▸ .constant (kind?_of_value? ((h.value hn).trans (value?_of_kind? hk)))
  | @parameter n hk =>
    have hpar := h.isParameter hn
    simp only [Arena.isParameter, hk, decide_true, decide_eq_true_eq] at hpar
    exact .parameter hpar
  | @apply n inputs us hk hlen _ ih =>
    obtain rfl : inputs = a.inputs n := (inputs_of_kind? hk).symm
    have hin : b.inputs n = a.inputs n := h.inputs_eq hn (hfree n (Under.refl a n))
    refine .apply ?_ hlen fun i m u hm hu => ?_
    · have happ : a.isApply n = true := by simp [Arena.isApply, hk]
      rw [← hin]
      exact kind?_of_isApply ((h.isApply hn).trans happ)
    · have hmem : m ∈ a.inputs n := List.mem_of_getElem? hm
      exact ih i m u hm hu (hwf.input_mem hmem) fun k hk => hfree k (Under.of_inputs hmem hk)

theorem CutTo.unfolds_of_not_stunted (h : a.CutTo b E) (hfit : a.Refitted b) (hu : b.Unfolds n u)
    (hs : ¬ u.Stunted) : a.Unfolds n u := by
  induction hu with
  | @constant n v hk =>
    have hv : b.value? n = some v := value?_of_kind? hk
    have hn : n ∈ a.nodeIds := by
      refine hfit.mem_nodeIds (mem_nodeIds_of_kind? hk) fun hdead => hs ?_
      obtain rfl := Option.some.inj (hv.symm.trans hdead)
      exact .dead _
    have hkey : b.typeKey? n = a.typeKey? n := by simp only [typeKey?, h.type hn]
    exact hkey ▸ .constant (kind?_of_value? ((h.value hn).symm.trans hv))
  | @parameter n hk =>
    have hn : n ∈ a.nodeIds := hfit.mem_nodeIds (mem_nodeIds_of_kind? hk) (by simp [value?, hk,
      NodeKind.value?])
    have hpar := h.isParameter hn
    simp only [Arena.isParameter, hk, decide_true] at hpar
    exact .parameter (decide_eq_true_eq.mp hpar.symm)
  | @apply n inputs us hk hlen hall ih =>
    obtain rfl : inputs = b.inputs n := (inputs_of_kind? hk).symm
    have happ : b.isApply n = true := by simp [Arena.isApply, hk]
    have hn : n ∈ a.nodeIds := hfit.mem_nodeIds (mem_nodeIds_of_kind? hk) (by
      simp [value?_eq_none_of_isApply happ])
    rw [h.isApply hn] at happ
    have hlen' : (a.inputs n).length = us.length := (h.length hn).symm.trans hlen
    refine .apply (kind?_of_isApply happ) hlen' fun i m u hm hu => ?_
    have hslot : b.slot? ⟨n, i⟩ = a.slot? ⟨n, i⟩ := by
      -- a slot that was cut holds a placeholder, which the tree would show
      refine (h.slots (e := ⟨n, i⟩) hn).resolve_right ?_
      rintro ⟨-, m', hm', hv⟩
      refine hs ?_
      have hu' := hall i m' u hm' hu
      obtain rfl := hu'.unique (.constant (kind?_of_value? hv))
      exact .apply (List.mem_of_getElem? hu) (.dead _)
    exact ih i m u (hslot.trans hm) hu fun hsu => hs (.apply (List.mem_of_getElem? hu) hsu)

/-- After cuts the root reaches nothing new but placeholders. -/
theorem CutTo.returned (h : a.CutTo b E) (hfit : a.Refitted b) (hwf : a.WellFormed)
    (hn : b.Returned [root] n) : a.Returned [root] n ∨ b.value? n = some .dead := by
  refine hn.of_closed (G := (· ∈ a.reachable [root]))
    (P := fun n => a.Returned [root] n ∨ b.value? n = some .dead)
    (fun g hg => ?_) (fun g r hg hret => ?_) (fun n hn m hm => ?_) fun n g hn hheld => ?_
  · exact List.mem_singleton.mp hg ▸ mem_reachable_root
  · exact Or.inl ⟨g, hg, r, hfit.ret?.symm.trans hret, .refl _ r⟩
  · rcases hn with hn | hdead
    · obtain ⟨i, hi⟩ := exists_slot?_of_mem hm
      rcases h.slots (e := ⟨n, i⟩) (hn.mem_nodeIds hwf) with hs | ⟨-, m', hm', hv⟩
      · exact Or.inl (hn.input (mem_inputs_of_slot? (hs.symm.trans hi)))
      · exact Or.inr (Option.some.inj (hm'.symm.trans hi) ▸ hv)
    · rw [inputs_eq_nil_of_value? hdead] at hm
      cases hm
  · rcases hn with hn | hdead
    · refine hn.mem_reachable ?_
      rw [← hheld, heldGraph?_congr (hfit.value (hn.mem_nodeIds hwf))]
    · simp [heldGraph?, hdead, Value.graph?] at hheld

end Arena

theorem Live.Listed.single {l : Live} {a : Arena} {n : NodeId} {x : Path × Edge}
    (h : l.Listed a n x) : l.Single n := by
  cases h <;> assumption

namespace Store

variable {s s' : Store} {lax : Prop} {e f d : Edge} {n m : NodeId} {x : Path × Edge}
  {g root : GraphId} {ds : OrderedMap NodeId (List Demand)} {k : Nat} {t : Option Ty}

/-- Once there is one root, its reachable graphs are live, and what they own or return. -/
theorem mem_nodes_keepRoots_iff (h : s.ReachedAcyclic) (hroot : root ∈ s.arena.graphIds) :
    n ∈ (s.keepRoots [root]).live.nodes ↔
      (∃ g ∈ s.arena.reachable [root], n ∈ s.arena.parameters g) ∨ s.arena.Returned [root] n := by
  have hsettled : (s.keepRoots [root]).Settled False :=
    h.settled.keepRoots (Or.inr h.acyclic) fun g hg => List.mem_singleton.mp hg ▸ hroot
  have hgraphs : ∀ g, g ∈ (s.keepRoots [root]).live.graphs ↔ g ∈ s.arena.reachable [root] :=
    exact_prune hsettled
  refine (hsettled.mem_nodes_iff h.acyclic).trans ?_
  simp only [hgraphs, and_or_left, exists_or]
  exact Iff.rfl

/-! ### Slots that are not cut -/

section

variable (h : s.Settled lax) (he : s.arena.slot? e = some m) (hlive : e.owner ∈ s.live.nodes)
include h he hlive

/-- Whoever is over a node with one use is over its user, or stands in that use itself. -/
theorem Settled.eq_or_under (hn : s.live.Single n) (hf : s.arena.slot? f = some n)
    (hflive : f.owner ∈ s.live.nodes) (hu : s.arena.Under m n) :
    e = f ∨ s.arena.Under m f.owner := by
  rcases Relation.ReflTransGen.cases_tail hu with rfl | ⟨k, hmk, hk⟩
  · exact Or.inl (Live.eq_of_useCount_le_one hn (h.mem_usesOf.mpr ⟨hlive, he⟩)
      (h.mem_usesOf.mpr ⟨hflive, hf⟩))
  · obtain ⟨i, hi⟩ := Arena.exists_slot?_of_mem hk
    have hm := h.agrees.mem_of_input hlive (Arena.mem_inputs_of_slot? he)
    have hklive := h.agrees.mem_of_under hm hmk
    have heq := Live.eq_of_useCount_le_one hn (h.mem_usesOf.mpr ⟨hklive, hi⟩)
      (h.mem_usesOf.mpr ⟨hflive, hf⟩)
    exact Or.inr (heq ▸ hmk)

variable (hop : ¬ (1 ≤ e.index ∧ s.arena.Opens e.owner))
include hop

/-- Whoever is over a listed slot is over the whole that it is a part of. The induction goes up the
list, each step over the only use of what is taken apart. -/
theorem Settled.under_of_listed (hx : s.live.Listed s.arena n x) (hn : n ∈ s.live.nodes)
    (hu : s.arena.Under m x.2.owner) : s.arena.Under m n := by
  have hstep : ∀ {n part : NodeId} {i : Nat}, n ∈ s.live.nodes → s.arena.Opens n →
      s.arena.slot? ⟨n, i + 1⟩ = some part → s.live.Single part → s.arena.Under m part →
      s.arena.Under m n := by
    intro n part i hn hopen hpart hsingle hu
    rcases h.eq_or_under he hlive hsingle hpart hn hu with rfl | hu
    · exact absurd ⟨Nat.le_add_left 1 i, hopen⟩ hop
    · exact hu
  have hin : ∀ {n part : NodeId} {i : Nat}, n ∈ s.live.nodes →
      s.arena.slot? ⟨n, i⟩ = some part → part ∈ s.live.nodes := fun hn hpart =>
    h.agrees.mem_of_input hn (Arena.mem_inputs_of_slot? hpart)
  induction hx with
  | element _ _ _ => exact hu
  | entry _ _ => exact hu
  | inElement _ ht hpart hx ih =>
    have hslot := ht.slot?.trans hpart
    exact hstep hn (Or.inr (Or.inl ht.1)) hslot hx.single (ih (hin hn hslot) hu)
  | inEntry _ hl hx ih =>
    exact hstep hn (Or.inr (Or.inr hl.1)) hl.slot?_value hx.single (ih (hin hn hl.slot?_value) hu)
  | inBase _ hl hx ih =>
    exact hstep hn (Or.inr (Or.inr hl.1)) hl.slot?_env hx.single (ih (hin hn hl.slot?_env) hu)

end

theorem Analysed.opens_of_deadSlot (h : s.Analysed ds) (hd : s.DeadSlot ds root g d) :
    1 ≤ d.index ∧ s.arena.Opens d.owner := by
  refine ⟨(h.of_deadSlot hd).1, ?_⟩
  obtain ⟨p, pd, hat, rfl, -⟩ := hd
  obtain ⟨r, out, m, -, hr, -, -, -, hlisted⟩ := h.of_at hat
  rcases hlisted with ⟨-, he⟩ | hlisted
  · exact Or.inl ⟨g, he ▸ hr⟩
  · rcases hlisted.owner with ⟨parts, ht⟩ | ⟨key, env, value, hl⟩
    · exact Or.inr (Or.inl ht.1)
    · exact Or.inr (Or.inr hl.1)

/-- What stands in a slot that cannot be cut is not over a slot that is cut. -/
theorem Analysed.not_under_deadSlot (h : s.Analysed ds) (howned : s.arena.Owned)
    (hlive : e.owner ∈ s.live.nodes) (hret : s.arena.Returned [root] e.owner)
    (hop : ¬ (1 ≤ e.index ∧ s.arena.Opens e.owner)) (he : s.arena.slot? e = some m)
    (hd : s.DeadSlot ds root g d) : ¬ s.arena.Under m d.owner := by
  intro hu
  obtain ⟨p, pd, hat, rfl, -⟩ := hd
  obtain ⟨r, out, m', hg, hr, hout, -, -, hlisted⟩ := h.of_at hat
  have hr : s.arena.ret? g = some r := hr
  have hrlive := h.settled.agrees.ret_mem hg hr
  have hover : s.arena.Under m r := by
    rcases hlisted with ⟨-, hd⟩ | hlisted
    · rw [show pd.edge = ⟨r, 1⟩ from hd] at hu
      exact hu
    · have hlout := h.settled.agrees.mem_of_input hrlive (Arena.mem_inputs_of_slot? hout)
      have hmout := h.settled.under_of_listed he hlive hop hlisted hlout hu
      rcases h.settled.eq_or_under he hlive hlisted.single hout hrlive hmout with rfl | hmr
      · exact absurd ⟨Nat.le_refl 1, Or.inl ⟨g, hr⟩⟩ hop
      · exact hmr
  have hm := hret.input (Arena.mem_inputs_of_slot? he)
  -- so there is a user of the return node among what the root returns, and no such user exists
  rcases Relation.ReflTransGen.cases_tail hover with rfl | ⟨k, hmk, hk⟩
  · exact howned.not_mem_inputs_of_ret h.wellFormed h.acyclic hret hr (Arena.mem_inputs_of_slot? he)
  · exact howned.not_mem_inputs_of_ret h.wellFormed h.acyclic (hm.under hmk) hr hk

/-! ### A pass of cuts -/

theorem refitted_setEdge_dead
    (hok : (s.constantWith .dead t).2.setEdge e (s.constantWith .dead t).1 = .ok s') :
    s.arena.Refitted s'.arena := by
  have hnew : s.arena.Refitted (s.constantWith .dead t).2.arena := s.arena.refitted_addNode t
  have hfloat : (s.constantWith .dead t).2.arena.owner? (s.constantWith .dead t).1 = none :=
    (hnew.fresh ((s.arena.mem_nodeIds_addNode _ _ _).mpr (Or.inl rfl))
      s.arena.not_mem_nodeIds_size).2
  obtain ⟨old, hold, -⟩ := setEdge_eq_ok_iff.mp hok
  rw [arena_setEdge hok]
  exact hnew.trans (Arena.refitted_setSlot hold (Or.inr hfloat))

theorem refitted_cutEdges (s : Store) (es : List Edge) :
    s.arena.Refitted (s.cutEdges es).1.arena := by
  induction es generalizing s with
  | nil => exact .refl s.arena
  | cons e es ih =>
    unfold cutEdges
    split
    · exact ih s
    · split
      · exact ih s
      · dsimp only
        split
        · exact s.arena.refitted_addNode _
        · next s₁ hok => exact (refitted_setEdge_dead hok).trans (ih s₁)

theorem refitted_cutGraphs (s : Store) (gs : List (GraphId × List Edge)) :
    s.arena.Refitted (s.cutGraphs gs).1.arena := by
  induction gs generalizing s with
  | nil => exact .refl s.arena
  | cons x gs ih =>
    obtain ⟨g, es⟩ := x
    have hone := s.refitted_cutEdges es
    unfold cutGraphs
    split
    · split
      · next s₁ f hcut =>
        rw [hcut] at hone
        exact hone
      · next s₁ k hcut =>
        rw [hcut] at hone
        exact hone.trans (ih s₁)
    · exact ih s

theorem refitted_cutDead (s : Store) (root : GraphId) :
    s.arena.Refitted (s.cutDead root).1.arena := by
  unfold cutDead
  dsimp only
  split
  · exact .refl s.arena
  · exact (s.keepRoots [root]).refitted_cutGraphs _

/-- A pass of cuts is a change of the kind that passes make. -/
theorem descends_cutDead (h : s.ReachedAcyclic) (howned : s.arena.Owned)
    (hroot : root ∈ s.arena.graphIds) (hok : s.cutDead root = (s', .ok k)) :
    s.arena.Descends root s'.arena := by
  have hwf := h.settled.wellFormed
  obtain ⟨ds, han, -, hcut, -⟩ := cutDead_spec h.reachable h.acyclic hroot hok
  have hcut : s.arena.CutTo s'.arena fun e => ∃ g, (s.keepRoots [root]).DeadSlot ds root g e :=
    hcut.arena
  have hfit : s.arena.Refitted s'.arena := by
    have hfit := s.refitted_cutDead root
    rwa [hok] at hfit
  refine ⟨hfit, fun hn hv => (hcut.returned hfit hwf hn).resolve_right hv,
    fun hu hs => hcut.unfolds_of_not_stunted hfit hu hs, fun {e m} hn hop he => ?_⟩
  have happ : s.arena.isApply e.owner = true :=
    Arena.isApply_of_mem_inputs (Arena.mem_inputs_of_slot? he)
  have howner := Arena.mem_nodeIds_of_slot? he
  have hret : s.arena.Returned [root] e.owner := by
    refine (hcut.returned hfit hwf hn).resolve_right ?_
    rw [hfit.value howner, Arena.value?_eq_none_of_isApply happ]
    simp
  have hlive := (mem_nodes_keepRoots_iff h hroot).mpr (Or.inr hret)
  have hmem := hwf.slot_mem he
  have hslot : s'.arena.slot? e = s.arena.slot? e :=
    (hcut.slots howner).resolve_right fun hcut => hcut.1.elim fun _ hd =>
      hop (han.opens_of_deadSlot hd)
  have hfree : ∀ k, s.arena.Under m k →
      ∀ d, (∃ g, (s.keepRoots [root]).DeadSlot ds root g d) → d.owner ≠ k := by
    rintro k hu d ⟨g, hd⟩ rfl
    exact han.not_under_deadSlot howned hlive hret hop he hd hu
  have hkeeps : ∀ u, s.arena.Unfolds m u → s'.arena.Unfolds m u := fun u hu =>
    hcut.unfolds hwf hmem hfree hu
  refine ⟨m, hslot.trans he, fun hm => ⟨(hfit.isApply hmem).trans hm, hfit.owner hmem⟩, fun u =>
    ⟨fun hu => ?_, hkeeps u⟩⟩
  obtain ⟨w, hw⟩ := h.acyclic.exists_unfolds hwf hmem
  exact (hkeeps w hw).unique hu ▸ hw

end Store

end Midend
