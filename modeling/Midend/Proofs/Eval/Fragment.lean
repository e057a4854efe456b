import Midend.Proofs.Demand.Cuts

/-!
# Programs of tuples

Programs without environments and mapped calls in which no graph uses the nodes of another one.
-/

namespace Midend

namespace Arena

variable {a : Arena} {n m env value : NodeId} {k : Step} {ix : Indexing}

/-- Whether no placeholder, environment or mapped call occurs, and applies use constants and nodes of
their own graph only. -/
structure TupleFragment (a : Arena) : Prop where
  closed : ∀ {n m}, m ∈ a.inputs n → (∃ v, a.value? m = some v) ∨ a.owner? m = a.owner? n
  constants : ∀ n, a.value? n ∉ [some .dead, some (.prim .envSet), some (.prim .envGet),
    some (.prim .arrayMap)]

namespace TupleFragment

theorem of_forall_mem (h : ∀ n ∈ a.nodeIds,
    (∀ m ∈ a.inputs n, (a.value? m).isSome ∨ a.owner? m = a.owner? n) ∧
      a.value? n ∉ [some .dead, some (.prim .envSet), some (.prim .envGet),
        some (.prim .arrayMap)]) : a.TupleFragment := by
  refine ⟨fun {n m} hm => ?_, fun n => ?_⟩
  · exact ((h n (mem_nodeIds_of_mem_inputs hm)).1 m hm).imp_left Option.isSome_iff_exists.mp
  · by_cases hn : n ∈ a.nodeIds
    · exact (h n hn).2
    · simp [value?, a.kind?_eq_none hn]

variable (h : a.TupleFragment)
include h

theorem applied?_ne : a.applied? n ≠ some .envSet ∧ a.applied? n ≠ some .envGet := by
  constructor
  · intro happ
    obtain ⟨f, -, hv⟩ := applied?_eq_some_iff.mp happ
    exact h.constants f (by simp [hv])
  · intro happ
    obtain ⟨f, -, hv⟩ := applied?_eq_some_iff.mp happ
    exact h.constants f (by simp [hv])

theorem not_isLayer : ¬ a.IsLayer n k env value := fun hl => h.applied?_ne.1 hl.1

theorem inputs_of_indexing (hix : a.indexing? n = some ix) : ∃ f key,
    a.inputs n = [f, ix.base, key] ∧ a.value? f = some (.prim .tupleGet) ∧
      a.step? key = some ix.step := by
  obtain ⟨f, key, hkey, ⟨happ, hin, -⟩ | ⟨d, happ, -, -⟩⟩ := indexing?_eq_some hix
  · obtain ⟨f', hf', hprim⟩ := applied?_eq_some_iff.mp happ
    obtain rfl : f = f' := by simpa [hin] using hf'
    exact ⟨f, key, hin, hprim, hkey⟩
  · exact absurd happ h.applied?_ne.2

/-- What lies under a node is a constant or belongs to the same graph. -/
theorem owner_of_under (hu : a.Under n m) (hm : a.value? m = none) : a.owner? m = a.owner? n := by
  induction hu with
  | refl => rfl
  | @tail k m _ hin ih =>
    have hk : a.value? k = none :=
      value?_eq_none_of_isApply (isApply_of_mem_inputs hin)
    rcases h.closed hin with ⟨v, hv⟩ | howner
    · rw [hm] at hv
      cases hv
    · exact howner.trans (ih hk)

end TupleFragment

end Arena

/-- Without environment layers a listed slot is the one that a reader of its path opens. -/
theorem Live.Listed.opens {a : Arena} {l : Live} {n : NodeId} {e : Edge} {x : Path × Edge}
    (hf : a.TupleFragment) (h : l.Listed a n x) (he : a.slot? e = some n) :
    l.Opens a e x.1 x.2 := by
  induction h generalizing e with
  | element hn ht hm => exact .element he hn ht hm (.here _)
  | inElement hn ht hm _ ih => exact .element he hn ht hm (ih (ht.slot?.trans hm))
  | entry _ hl => exact absurd hl hf.not_isLayer
  | inEntry _ hl _ _ => exact absurd hl hf.not_isLayer
  | inBase _ hl _ _ => exact absurd hl hf.not_isLayer

namespace Store.Analysed

open Dependencies (At)

variable {s : Store} {ds : OrderedMap NodeId (List Demand)} {g g' root : GraphId} {n r : NodeId}
  {p p' q : Path} {pd pd' : PartDeps} {e : Edge} {v : Part}

variable (h : s.Analysed ds) (hf : s.arena.TupleFragment)
include h hf

theorem opens_of_at (hat : (s.recordOf ds).At v pd) : ∃ r, v.1 ∈ s.live.graphs ∧
    s.arena.ret? v.1 = some r ∧ s.live.Opens s.arena ⟨r, 1⟩ v.2 pd.edge := by
  obtain ⟨r, out, m, hlive, hr, hout, -, -, hlisted⟩ := h.of_at hat
  refine ⟨r, hlive, hr, ?_⟩
  rcases hlisted with ⟨hp, he⟩ | hlisted
  · rw [hp, he]
    exact .here _
  · exact hlisted.opens hf hout

theorem owner?_of_at (hat : (s.recordOf ds).At v pd) : s.arena.owner? pd.edge.owner = some v.1 := by
  obtain ⟨r, -, hr, ho⟩ := h.opens_of_at hf hat
  have hvalue := Arena.value?_eq_none_of_isApply (h.owner_of_at hat).2.1
  exact (hf.owner_of_under ho.within.under hvalue).trans (h.wellFormed.ret_owner hr)

/-- A recorded slot within another one is recorded for the same graph, at a longer path. -/
theorem prefix_of_at (hat : (s.recordOf ds).At (g, p) pd) (hat' : (s.recordOf ds).At (g', p') pd')
    (hin : s.arena.Within (fun _ => True) pd.edge pd'.edge) : g = g' ∧ p <+: p' := by
  have hvalue := Arena.value?_eq_none_of_isApply (h.owner_of_at hat').2.1
  have howner := hf.owner_of_under hin.under hvalue
  rw [h.owner?_of_at hf hat, h.owner?_of_at hf hat'] at howner
  obtain rfl : g' = g := Option.some.inj howner
  obtain ⟨r, hlive, hr, ho⟩ := h.opens_of_at hf hat
  obtain ⟨r', -, hr', ho'⟩ := h.opens_of_at hf hat'
  obtain rfl : r = r' := Option.some.inj (hr.symm.trans hr')
  exact ⟨rfl, h.settled.agrees.prefix_of_within h.acyclic (fun _ _ _ _ => hf.not_isLayer)
    (h.settled.agrees.ret_mem hlive hr) ho ho' hin⟩

theorem not_deadSlot_of_isRead (hn : s.IsRead ds root n) (i : Nat) :
    ¬ s.DeadSlot ds root g' ⟨n, i⟩ := by
  rintro ⟨p', pd', hat', hedge, hdead⟩
  obtain ⟨⟨g, p⟩, hv, pd, m, hat, hm, hu⟩ := hn
  have hin := Arena.within_of_under hm hu i
  rw [← hedge] at hin
  obtain ⟨rfl, hp⟩ := h.prefix_of_at hf hat hat' hin
  exact hdead p hv (Or.inr hp)

/-- No cut touches the slot of a part that leads to a needed one or lies within one. -/
theorem not_deadSlot_of_live (hat : (s.recordOf ds).At (g, p) pd) (hq : (g, q) ∈ s.needed ds root)
    (hpq : p <+: q ∨ q <+: p) : ¬ s.DeadSlot ds root g' pd.edge := by
  rintro ⟨p', pd', hat', hedge, hdead⟩
  have hin : s.arena.Within (fun _ => True) pd.edge pd'.edge := hedge ▸ Relation.ReflTransGen.refl
  have hin' : s.arena.Within (fun _ => True) pd'.edge pd.edge := hedge ▸ Relation.ReflTransGen.refl
  obtain ⟨rfl, hp⟩ := h.prefix_of_at hf hat hat' hin
  obtain rfl : p = p' := hp.eq_of_length_le (h.prefix_of_at hf hat' hat hin').2.length_le
  exact hdead q hq hpq

/-- What stands in the slot of a part within a needed one is read and covered as a whole. -/
theorem isRead_of_at (hq : (g, q) ∈ s.needed ds root) (hat : (s.recordOf ds).At (g, p) pd)
    (hqp : q <+: p) (hn : s.arena.slot? pd.edge = some n) :
    s.IsRead ds root n ∧ s.Covered (s.needed ds root) n [] := by
  obtain ⟨p', rfl⟩ := hqp
  obtain ⟨r, hlive, hr, ho⟩ := h.opens_of_at hf hat
  obtain ⟨e₁, hopen, hrest⟩ := ho.exists_split rfl
  have hat₁ := h.at_of_opens hlive hr hopen
  rcases Relation.ReflTransGen.cases_tail hrest.within with heq | ⟨e₂, hin, hi⟩
  · have hslot : s.arena.slot? (s.partDepsAt ds e₁).edge = some n := heq ▸ hn
    exact ⟨⟨_, hq, _, n, hat₁, hslot, Arena.Under.refl _ n⟩, h.covered_slot hq hat₁ hslot⟩
  · obtain ⟨m, hm, hu⟩ := Arena.Within.under_slot hin hi.1
    have hmem := Arena.mem_inputs_of_slot? hn
    have hslot : s.arena.slot? (s.partDepsAt ds e₁).edge = some m := hm
    refine ⟨⟨_, hq, _, m, hat₁, hslot, hu.trans (Arena.under_of_mem_inputs hmem)⟩, ?_⟩
    exact h.covered_input hat₁ hslot hu hq (h.owner_of_at hat).2.2 hmem

end Store.Analysed

end Midend
