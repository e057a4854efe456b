import Mathlib.Data.List.Forall2
import Midend.Demand.Cut
import Midend.Proofs.Arena.Postorder
import Midend.Proofs.Demand.Origins
import Midend.Proofs.Store.Run

/-!
# When the analysis succeeds

A call is resolved if its function is annotated with targets that all have a callee, and a target
that maps a function finds one: bound to it, or else as the first argument of the call. Only
annotations are read.
-/

namespace Midend

namespace Arena

variable {a b : Arena} {n m f : NodeId} {args ns : List NodeId} {t : Target} {ts : List Target}
  {c : Calls}

/-- Whether it can be told what a target runs, given the arguments of the call `n`. -/
def Runs (a : Arena) (n : NodeId) (args : List NodeId) (t : Target) : Prop :=
  ∃ c bound, t.callee = .ok (c, bound) ∧
    (c = .prim .arrayMap → ∃ gs, a.mappedGraphs n args bound = .ok gs)

/-- A call of several targets is resolved if each of them is. -/
theorem exists_callsOf_iff :
    (∃ c', a.callsOf n args ts c = .ok c') ↔ ∀ t ∈ ts, a.Runs n args t := by
  induction ts generalizing c with
  | nil => exact ⟨fun _ t ht => absurd ht List.not_mem_nil, fun _ => ⟨c, rfl⟩⟩
  | cons t ts ih =>
    rw [List.forall_mem_cons]
    unfold callsOf
    split
    · next f hc => simp [Runs, hc]
    · next g bound hc =>
      have hruns : a.Runs n args t := ⟨_, _, hc, fun h => by cases h⟩
      rw [ih]
      exact (and_iff_right hruns).symm
    · next bound hc =>
      have hruns : a.Runs n args t ↔ ∃ gs, a.mappedGraphs n args bound = .ok gs := by
        constructor
        · rintro ⟨c', bound', hc', hmap⟩
          obtain ⟨rfl, rfl⟩ := Prod.mk.inj (Except.ok.inj (hc.symm.trans hc'))
          exact hmap rfl
        · exact fun h => ⟨_, _, hc, fun _ => h⟩
      split
      · next f hgs => simp [hruns, hgs]
      · next gs hgs =>
        rw [ih, hruns]
        exact (and_iff_right ⟨gs, hgs⟩).symm
    · next p bound hne hc =>
      have hruns : a.Runs n args t := ⟨_, _, hc, fun h => absurd (Callee.prim.inj h) hne⟩
      rw [ih]
      exact (and_iff_right hruns).symm

/-- Whether it can be told what `n` runs if its inputs are the nodes given. -/
def Resolves (a : Arena) (n : NodeId) (ns : List NodeId) : Prop :=
  ∃ f args ts, ns = f :: args ∧ (a.type? f).bind Ty.targets? = some ts ∧ ∀ t ∈ ts, a.Runs n args t

theorem exists_calls_iff : (∃ c, a.calls n = .ok c) ↔ a.Resolves n (a.inputs n) := by
  unfold calls Resolves
  cases a.inputs n with
  | nil => simp
  | cons f args =>
    cases hts : (a.type? f).bind Ty.targets? with
    | none => simp [hts]
    | some ts =>
      simp only [hts, exists_callsOf_iff]
      constructor
      · exact fun h => ⟨f, args, ts, rfl, hts, h⟩
      · rintro ⟨f', args', ts', hns, hts', h⟩
        obtain ⟨rfl, rfl⟩ := List.cons.inj hns
        exact Option.some.inj (hts.symm.trans hts') ▸ h

/-! ### What a resolved call depends on -/

/-- Whether the annotation of `f` has a target that maps the first argument of a call. -/
def MapsArgument (a : Arena) (f : NodeId) : Prop :=
  ∃ ts t, (a.type? f).bind Ty.targets? = some ts ∧ t ∈ ts ∧ t.callee = .ok (.prim .arrayMap, [])

theorem mappedGraphs_congr {args' : List NodeId} {bound : List Ty}
    (h : bound = [] → args'.head?.bind b.type? = args.head?.bind a.type?) :
    b.mappedGraphs n args' bound = a.mappedGraphs n args bound := by
  cases bound with
  | nil => simp only [mappedGraphs, h rfl]
  | cons u bound => rfl

/-- Whether a call is resolved depends on the annotations of its inputs only. -/
theorem Resolves.congr {ms : List NodeId} (h : a.Resolves n ns)
    (hms : List.Forall₂ (fun m m' => b.type? m' = a.type? m) ns ms) : b.Resolves n ms := by
  obtain ⟨f, args, ts, rfl, hts, hall⟩ := h
  obtain ⟨f', args', hf, hargs, rfl⟩ := List.forall₂_cons_left_iff.mp hms
  refine ⟨f', args', ts, rfl, by rw [hf, hts], fun t ht => ?_⟩
  obtain ⟨c, bound, hc, hmap⟩ := hall t ht
  refine ⟨c, bound, hc, fun hc' => ?_⟩
  have hhead : args'.head?.bind b.type? = args.head?.bind a.type? := by
    cases hargs with
    | nil => rfl
    | cons hx _ => exact hx
  obtain ⟨gs, hgs⟩ := hmap hc'
  exact ⟨gs, (mappedGraphs_congr fun _ => hhead).trans hgs⟩

/-- The arguments do not matter if none is mapped. -/
theorem Resolves.of_not_mapsArgument (h : a.Resolves n (f :: ns)) (hf : ¬ a.MapsArgument f)
    (hb : b.type? f = a.type? f) (args : List NodeId) : b.Resolves n (f :: args) := by
  obtain ⟨f', args', ts, hns, hts, hall⟩ := h
  obtain ⟨rfl, rfl⟩ := List.cons.inj hns
  refine ⟨f, args, ts, rfl, by rw [hb, hts], fun t ht => ?_⟩
  obtain ⟨c, bound, hc, hmap⟩ := hall t ht
  refine ⟨c, bound, hc, fun hc' => ?_⟩
  obtain ⟨gs, hgs⟩ := hmap hc'
  cases bound with
  | nil => exact absurd ⟨ts, t, hts, ht, hc' ▸ hc⟩ hf
  | cons u bound => exact ⟨gs, hgs⟩

/-- Whether an apply indexes or is a resolved call. -/
def Clear (a : Arena) (n : NodeId) : Prop :=
  a.isApply n = true → (a.indexing? n).isSome = true ∨ a.Resolves n (a.inputs n)

theorem HasOrigin.clear {o : Origin} (h : a.HasOrigin n o) : a.Clear n := by
  intro happ
  cases h with
  | indexed hix _ => exact Or.inl (by simp [hix])
  | called _ _ hc => exact Or.inr (exists_calls_iff.mp ⟨_, hc⟩)
  | other _ hnot => simp [hnot] at happ

end Arena

/-! ### The search -/

namespace Origins

open Arena (Clear)

variable {a : Arena} {n : NodeId} {ns : List NodeId}

theorem exists_demandAll {active : List NodeId} (h : ∀ n ∈ ns, ∀ r, ∃ x, find a active n r = .ok x)
    (r : Origins) : ∃ r', demandAll a active ns r = .ok r' := by
  induction ns generalizing r with
  | nil => exact ⟨r, by rw [demandAll]⟩
  | cons n ns ih =>
    obtain ⟨⟨o, r₁⟩, hfind⟩ := h n List.mem_cons_self r
    obtain ⟨r', hrest⟩ := ih (fun m hm => h m (List.mem_cons_of_mem n hm)) (r₁.demand n o.demands)
    exact ⟨r', by rw [demandAll, hfind]; exact hrest⟩

theorem exists_find (hac : a.Acyclic) (h : ∀ m, a.Under n m → a.Clear m) (active : List NodeId)
    (r : Origins) : ∃ x, find a active n r = .ok x := by
  induction n using hac.induction generalizing active r with
  | step n ih =>
    -- the searches below succeed, so only a call that is not resolved could fail
    have hin : ∀ m ∈ a.inputs n, ∀ active r, ∃ x, find a active m r = .ok x := fun m hm =>
      ih m hm fun k hk => h k (Arena.Under.of_inputs hm hk)
    rw [find]
    split
    · exact ⟨_, rfl⟩
    · split
      · exact ⟨_, rfl⟩
      · split
        · next ix hix =>
          obtain ⟨r₁, hall⟩ : ∃ r₁, demandAll a (n :: active) ix.default.toList r = .ok r₁ :=
            exists_demandAll (fun m hm =>
              hin m (Arena.default_mem_inputs hix (Option.mem_toList.mp hm)) (n :: active)) r
          obtain ⟨⟨o, r₂⟩, hfind⟩ := hin ix.base (Arena.base_mem_inputs hix) (n :: active) r₁
          simp only [hall, hfind]
          exact ⟨_, rfl⟩
        · next hnone =>
          split
          · next happ =>
            obtain ⟨r₁, hall⟩ : ∃ r₁, demandAll a (n :: active) (a.inputs n) r = .ok r₁ :=
              exists_demandAll (fun m hm => hin m hm (n :: active)) r
            obtain ⟨c, hc⟩ : ∃ c, a.calls n = .ok c := by
              refine Arena.exists_calls_iff.mpr ((h n (Arena.Under.refl a n) happ).resolve_left ?_)
              simp [hnone]
            simp only [hall, hc]
            exact ⟨_, rfl⟩
          · exact ⟨_, rfl⟩

theorem exists_findAll (hac : a.Acyclic) (h : ∀ n ∈ ns, ∀ m, a.Under n m → a.Clear m)
    (r : Origins) : ∃ r', r.findAll a ns = .ok r' := by
  induction ns generalizing r with
  | nil => exact ⟨r, rfl⟩
  | cons n ns ih =>
    obtain ⟨⟨o, r₁⟩, hfind⟩ := exists_find hac (h n List.mem_cons_self) [] r
    obtain ⟨r', hrest⟩ := ih (fun m hm => h m (List.mem_cons_of_mem n hm)) r₁
    exact ⟨r', by simp only [findAll, hfind, hrest]⟩

end Origins

/-! ### The whole pass -/

namespace Store

variable {s : Store} {root : GraphId} {lax : Prop}

/-- The search visits the live nodes, and what lies under a live node is live. -/
theorem mem_demandOrder_iff (h : s.Settled lax) {n : NodeId} :
    n ∈ s.demandOrder ↔ n ∈ s.live.nodes := by
  constructor
  · intro hn
    rcases List.mem_append.mp hn with hn | hn
    · obtain ⟨g, hg, hn⟩ := List.mem_flatMap.mp hn
      split at hn
      · cases hn
      · next r hr =>
        exact h.agrees.mem_of_under (h.agrees.ret_mem hg hr) (Arena.mem_postorder_iff.mp hn)
    · exact hn
  · exact fun hn => List.mem_append_right _ hn

/-- The analysis succeeds exactly if every live node is clear. -/
theorem exists_deadEdges_iff (h : s.Settled lax) (hac : s.arena.Acyclic) :
    (∃ dead, s.deadEdges root = .ok dead) ↔ ∀ n ∈ s.live.nodes, s.arena.Clear n := by
  constructor
  · rintro ⟨dead, hdead⟩ n hn
    cases hds : s.demands with
    | error f => simp [deadEdges, dependencies, hds, Except.map] at hdead
    | ok ds =>
      obtain ⟨o, ho⟩ := exists_hasOrigin hac h.wellFormed hds hn (h.agrees.mem_nodeIds hn)
      exact ho.clear
  · intro hclear
    have hunder : ∀ n ∈ s.demandOrder, ∀ m, s.arena.Under n m → s.arena.Clear m := fun n hn m hu =>
      hclear m (h.agrees.mem_of_under ((mem_demandOrder_iff h).mp hn) hu)
    obtain ⟨r, hr⟩ := Origins.exists_findAll hac hunder .empty
    simp [deadEdges, dependencies, demands, hr, Except.map]

/-- Cuts never fail: only slots that are there are pointed elsewhere. -/
theorem exists_cutEdges (s : Store) (es : List Edge) : ∃ k, (s.cutEdges es).2 = .ok k := by
  induction es generalizing s with
  | nil => exact ⟨0, rfl⟩
  | cons e es ih =>
    unfold cutEdges
    split
    · exact ih s
    · next target htarget =>
      split
      · exact ih s
      · have hslot : (s.constantWith .dead
            (placeholderType (s.arena.type? target))).2.arena.slot? e = some target := by
          rw [← htarget]
          exact Arena.slot?_congr (Arena.inputs_congr
            (s.arena.node?_addNode_of_mem _ _ _ (Arena.mem_nodeIds_of_slot? htarget)))
        obtain ⟨s₁, hok⟩ : ∃ s₁,
            (s.constantWith .dead (placeholderType (s.arena.type? target))).2.setEdge e
              (s.constantWith .dead (placeholderType (s.arena.type? target))).1 = .ok s₁ :=
          ⟨_, setEdge_eq_ok_iff.mpr ⟨target, hslot, rfl⟩⟩
        obtain ⟨k, hk⟩ := ih s₁
        simp only [hok, hk]
        exact ⟨k + 1, rfl⟩

theorem exists_cutGraphs (s : Store) (gs : List (GraphId × List Edge)) :
    ∃ k, (s.cutGraphs gs).2 = .ok k := by
  induction gs generalizing s with
  | nil => exact ⟨0, rfl⟩
  | cons x gs ih =>
    obtain ⟨g, es⟩ := x
    unfold cutGraphs
    split
    · obtain ⟨k, hk⟩ := s.exists_cutEdges es
      obtain ⟨j, hj⟩ := ih (s.cutEdges es).1
      rw [show s.cutEdges es = ((s.cutEdges es).1, .ok k) from Prod.ext rfl hk]
      simp only [hj]
      exact ⟨k + j, rfl⟩
    · exact ih s

/-- Cutting dead parts succeeds exactly if every node that is live under the root is clear. -/
theorem exists_cutDead_iff (h : (s.keepRoots [root]).Settled lax) (hac : s.arena.Acyclic) :
    (∃ k, (s.cutDead root).2 = .ok k) ↔ ∀ n ∈ (s.keepRoots [root]).live.nodes, s.arena.Clear n := by
  have hdead : (∃ dead, (s.keepRoots [root]).deadEdges root = .ok dead) ↔ _ :=
    exists_deadEdges_iff h hac
  refine Iff.trans ?_ hdead
  unfold cutDead
  cases hdead : (s.keepRoots [root]).deadEdges root with
  | error f => simp [hdead]
  | ok dead => simpa [hdead] using exists_cutGraphs _ dead

end Store

end Midend
