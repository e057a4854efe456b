import Mathlib
import Midend.Demand.Search

/-!
# Searches in any order

A demand is answered by the longest recorded prefix of its path. A search may take the demands that
are left in any order, and need not look at a demand twice. What it met and what it has still to look
at then differ from order to order, but in the end every search has met the same parts.
-/

namespace Midend

namespace Dependencies

variable {deps : Dependencies} {d : Demand} {v w : Part} {pd : PartDeps} {p q : Path}
  {first first' : List Demand} {S : Set Part}

/-- What is recorded of a part. -/
def At (deps : Dependencies) (v : Part) (pd : PartDeps) : Prop :=
  ∃ parts, deps.get? v.1 = some parts ∧ parts.get? v.2 = some pd

/-- Whether a part answers a demand. -/
def Answers (deps : Dependencies) (d : Demand) (v : Part) : Prop := ∃ pd, deps.answer? d = some (v, pd)

theorem At.unique {pd' : PartDeps} (h : deps.At v pd) (h' : deps.At v pd') : pd = pd' := by
  obtain ⟨parts, hg, hp⟩ := h
  obtain ⟨parts', hg', hp'⟩ := h'
  obtain rfl := Option.some.inj (hg.symm.trans hg')
  exact Option.some.inj (hp.symm.trans hp')

theorem pairwise_prefixes (p : Path) :
    (Path.prefixes p).Pairwise fun a b => b.length < a.length := by
  rw [Path.prefixes, List.pairwise_map, List.pairwise_reverse]
  refine List.pairwise_lt_range.imp_of_mem fun {i j} hi hj hlt => ?_
  have hi' := List.mem_range.mp hi
  have hj' := List.mem_range.mp hj
  rw [List.length_take, List.length_take]
  omega

/-- The first prefix at which something is found is the longest one. -/
theorem findSome?_prefixes {α : Type} {f : Path → Option α} {x : α}
    (h : (Path.prefixes p).findSome? f = some x) :
    ∃ q, q <+: p ∧ f q = some x ∧ ∀ q', q' <+: p → q.length < q'.length → f q' = none := by
  obtain ⟨pre, q, post, hsplit, hq, hnone⟩ := List.findSome?_eq_some_iff.mp h
  have hmem : q ∈ Path.prefixes p := hsplit ▸ List.mem_append_right _ List.mem_cons_self
  refine ⟨q, Path.mem_prefixes.mp hmem, hq, fun q' hq' hlt => ?_⟩
  have hmem' := Path.mem_prefixes.mpr hq'
  have hpair := pairwise_prefixes p
  rw [hsplit] at hmem' hpair
  rcases List.mem_append.mp hmem' with hpre | hpost
  · exact hnone q' hpre
  · have hlast := (List.pairwise_append.mp hpair).2.1
    rcases List.mem_cons.mp hpost with rfl | hpost
    · exact absurd hlt (Nat.lt_irrefl _)
    · have := (List.pairwise_cons.mp hlast).1 q' hpost
      omega

/-- What answers a demand is the longest recorded prefix of its path. -/
theorem answer?_eq_some (h : deps.answer? d = some (v, pd)) :
    v.1 = d.graph ∧ v.2 <+: d.path ∧ deps.At v pd ∧
      ∀ q, q <+: d.path → v.2.length < q.length → ∀ pd', ¬ deps.At (d.graph, q) pd' := by
  unfold answer? at h
  split at h
  · cases h
  · next parts hg =>
    obtain ⟨⟨p, pd'⟩, hl, heq⟩ := Option.map_eq_some_iff.mp h
    obtain ⟨rfl, rfl⟩ := Prod.mk.inj heq
    obtain ⟨q, hq, hfq, hlong⟩ := findSome?_prefixes hl
    obtain ⟨pd'', hget, heq'⟩ := Option.map_eq_some_iff.mp hfq
    obtain ⟨rfl, rfl⟩ := Prod.mk.inj heq'
    refine ⟨rfl, hq, ⟨parts, hg, hget⟩, fun q' hq' hlt pd' hat => ?_⟩
    obtain ⟨parts', hg', hget'⟩ := hat
    obtain rfl := Option.some.inj (hg.symm.trans hg')
    have hnone := hlong q' hq' hlt
    rw [Option.map_eq_none_iff] at hnone
    simp only at hget'
    rw [hnone] at hget'
    cases hget'

/-- A demand on a graph is answered once any prefix of its path is recorded. -/
theorem exists_answers (hat : deps.At (d.graph, q) pd) (hq : q <+: d.path) :
    ∃ v, deps.Answers d v := by
  obtain ⟨parts, hg, hget⟩ := hat
  have hsome : (Dependencies.longestPrefix? parts d.path).isSome = true := by
    rw [longestPrefix?, List.findSome?_isSome_iff]
    exact ⟨q, Path.mem_prefixes.mpr hq, by simp [hget]⟩
  obtain ⟨⟨p, pd'⟩, hl⟩ := Option.isSome_iff_exists.mp hsome
  refine ⟨(d.graph, p), pd', ?_⟩
  simp only at hg
  simp [answer?, hg, hl]

theorem eq_of_answers (h : deps.answer? d = some (v, pd))
    (hw : deps.Answers d w) : w = v := by
  obtain ⟨pd', hw⟩ := hw
  rw [h] at hw
  exact (Prod.mk.inj (Option.some.inj hw)).1.symm

/-- A search on its way: the demands it looked at, the parts it met and the demands that are left. -/
structure Search where
  asked : List Demand
  seen : List Part
  work : List Demand

/-- A turn takes one of the demands that are left, and looks at it unless it did so before. -/
inductive Turn (deps : Dependencies) : Search → Search → Prop
  | again {asked pre post : List Demand} {seen : List Part} {d : Demand} : d ∈ asked →
      Turn deps ⟨asked, seen, pre ++ d :: post⟩ ⟨asked, seen, pre ++ post⟩
  | nothing {asked pre post : List Demand} {seen : List Part} {d : Demand} : d ∉ asked →
      deps.answer? d = none →
      Turn deps ⟨asked, seen, pre ++ d :: post⟩ ⟨d :: asked, seen, pre ++ post⟩
  | met {asked pre post : List Demand} {seen : List Part} {d : Demand} {v : Part} {pd : PartDeps} :
      d ∉ asked → deps.answer? d = some (v, pd) → v ∈ seen →
      Turn deps ⟨asked, seen, pre ++ d :: post⟩ ⟨d :: asked, seen, pre ++ post⟩
  | new {asked pre post made : List Demand} {seen : List Part} {d : Demand} {v : Part}
      {pd : PartDeps} : d ∉ asked → deps.answer? d = some (v, pd) → v ∉ seen →
      (∀ d', d' ∈ made ↔ d' ∈ pd.demands) →
      Turn deps ⟨asked, seen, pre ++ d :: post⟩ ⟨d :: asked, v :: seen, pre ++ (made ++ post)⟩

variable {t t' : Search}

/-! ### Every search ends -/

theorem wellFounded_turn (deps : Dependencies) : WellFounded fun t' t => deps.Turn t t' := by
  have hlt : ∀ {t' t}, deps.Turn t t' → Prod.Lex (· < ·) (· < ·)
      (unseen deps.recorded t'.seen, t'.work.length) (unseen deps.recorded t.seen, t.work.length) := by
    intro t' t h
    cases h with
    | again _ => exact Prod.Lex.right _ (by simp)
    | nothing _ _ => exact Prod.Lex.right _ (by simp)
    | met _ _ _ => exact Prod.Lex.right _ (by simp)
    | new _ hans hv _ => exact Prod.Lex.left _ _ (unseen_cons_lt (answer?_mem hans) hv)
  exact Subrelation.wf hlt (InvImage.wf _ (Prod.lex Nat.lt_wfRel Nat.lt_wfRel).wf)

theorem work_eq_nil_of_no_turn (h : ∀ t', ¬ deps.Turn t t') : t.work = [] := by
  obtain ⟨asked, seen, work⟩ := t
  cases work with
  | nil => rfl
  | cons d work =>
    by_cases hd : d ∈ asked
    · exact absurd (@Turn.again deps asked [] work seen d hd) (h _)
    · cases hans : deps.answer? d with
      | none => exact absurd (@Turn.nothing deps asked [] work seen d hd hans) (h _)
      | some x =>
        obtain ⟨v, pd⟩ := x
        by_cases hv : v ∈ seen
        · exact absurd (@Turn.met deps asked [] work seen d v pd hd hans hv) (h _)
        · exact absurd (@Turn.new deps asked [] work _ seen d v pd hd hans hv fun _ => Iff.rfl) (h _)

/-! ### What every search meets -/

/-- Whether a search stays within a set and will still find in it what answers the demands left. -/
def Search.Within (deps : Dependencies) (S : Set Part) (t : Search) : Prop :=
  (∀ v ∈ t.seen, v ∈ S) ∧ ∀ d ∈ t.work, ∀ v, deps.Answers d v → v ∈ S

/-- Whether a search looked at every demand that it was given or that a part it met makes, or will do
so, and met whatever answers those that it looked at. -/
structure Search.Complete (deps : Dependencies) (first : List Demand) (t : Search) : Prop where
  given : ∀ d ∈ first, d ∈ t.asked ∨ d ∈ t.work
  recorded : ∀ v ∈ t.seen, ∃ pd, deps.At v pd
  made : ∀ v ∈ t.seen, ∀ pd, deps.At v pd → ∀ d ∈ pd.demands, d ∈ t.asked ∨ d ∈ t.work
  answered : ∀ d ∈ t.asked, ∀ v, deps.Answers d v → v ∈ t.seen

theorem Turn.within (h : deps.Turn t t') (ht : t.Within deps S)
    (hclosed : ∀ v ∈ S, ∀ pd, deps.At v pd → ∀ d ∈ pd.demands, ∀ w, deps.Answers d w → w ∈ S) :
    t'.Within deps S := by
  obtain ⟨hseen, hwork⟩ := ht
  cases h with
  | again _ => exact ⟨hseen, fun d hd => hwork d (by grind)⟩
  | nothing _ _ => exact ⟨hseen, fun d hd => hwork d (by grind)⟩
  | met _ _ _ => exact ⟨hseen, fun d hd => hwork d (by grind)⟩
  | @new asked pre post made seen d v pd _ hans _ hmade =>
    have hv : v ∈ S := hwork d (by simp) v ⟨pd, hans⟩
    refine ⟨fun w hw => ?_, fun d' hd' w hw => ?_⟩
    · rcases List.mem_cons.mp hw with rfl | hw
      · exact hv
      · exact hseen w hw
    · by_cases hd : d' ∈ made
      · exact hclosed v hv pd (answer?_eq_some hans).2.2.1 d' ((hmade d').mp hd) w hw
      · exact hwork d' (by grind) w hw

/-- A demand that is left stays so until it is looked at. -/
theorem Turn.pending (h : deps.Turn t t') (hd : d ∈ t.asked ∨ d ∈ t.work) :
    d ∈ t'.asked ∨ d ∈ t'.work := by
  cases h <;> grind

theorem Turn.recorded (h : deps.Turn t t') (ht : ∀ v ∈ t.seen, ∃ pd, deps.At v pd) :
    ∀ v ∈ t'.seen, ∃ pd, deps.At v pd := by
  cases h with
  | again _ => exact ht
  | nothing _ _ => exact ht
  | met _ _ _ => exact ht
  | new _ hans _ _ =>
    intro w hw
    rcases List.mem_cons.mp hw with rfl | hw
    · exact ⟨_, (answer?_eq_some hans).2.2.1⟩
    · exact ht w hw

theorem Turn.complete (h : deps.Turn t t') (ht : t.Complete deps first) : t'.Complete deps first := by
  obtain ⟨hgiven, hrecorded, hmade, hanswered⟩ := ht
  refine ⟨fun d hd => h.pending (hgiven d hd), h.recorded hrecorded, ?_, ?_⟩
  · have hold : ∀ v ∈ t.seen, ∀ pd, deps.At v pd → ∀ d ∈ pd.demands, d ∈ t'.asked ∨ d ∈ t'.work :=
      fun v hv pd hat d hd => h.pending (hmade v hv pd hat d hd)
    cases h with
    | again _ => exact hold
    | nothing _ _ => exact hold
    | met _ _ _ => exact hold
    | @new asked pre post made seen d v pd _ hans _ hnew =>
      intro w hw pd' hat d' hd'
      rcases List.mem_cons.mp hw with rfl | hw
      · obtain rfl := hat.unique (answer?_eq_some hans).2.2.1
        have hmem : d' ∈ made := (hnew d').mpr hd'
        exact Or.inr (by grind)
      · exact hold w hw pd' hat d' hd'
  · cases h with
    | again _ => exact hanswered
    | @nothing asked pre post seen d _ hnone =>
      intro d' hd' w hw
      rcases List.mem_cons.mp hd' with rfl | hd'
      · obtain ⟨pd, hans⟩ := hw
        simp [hnone] at hans
      · exact hanswered d' hd' w hw
    | @met asked pre post seen d v pd _ hans hv =>
      intro d' hd' w hw
      rcases List.mem_cons.mp hd' with rfl | hd'
      · exact eq_of_answers hans hw ▸ hv
      · exact hanswered d' hd' w hw
    | @new asked pre post made seen d v pd _ hans _ _ =>
      intro d' hd' w hw
      rcases List.mem_cons.mp hd' with rfl | hd'
      · exact eq_of_answers hans hw ▸ List.mem_cons_self
      · exact List.mem_cons_of_mem v (hanswered d' hd' w hw)

theorem Search.Complete.start (deps : Dependencies) (first : List Demand) :
    Search.Complete deps first ⟨[], [], first⟩ where
  given _ hd := Or.inr hd
  recorded _ hv := absurd hv List.not_mem_nil
  made _ hv := absurd hv List.not_mem_nil
  answered _ hd := absurd hd List.not_mem_nil

theorem complete_of_turns (h : Relation.ReflTransGen deps.Turn ⟨[], [], first⟩ t) :
    t.Complete deps first := by
  induction h with
  | refl => exact .start deps first
  | tail _ hturn ih => exact hturn.complete ih

/-- Searches stay within any set that holds what answers the first demands and that is closed under
the demands of parts. -/
theorem within_of_turns (h : Relation.ReflTransGen deps.Turn ⟨[], [], first⟩ t)
    (hfirst : ∀ d ∈ first, ∀ v, deps.Answers d v → v ∈ S)
    (hclosed : ∀ v ∈ S, ∀ pd, deps.At v pd → ∀ d ∈ pd.demands, ∀ w, deps.Answers d w → w ∈ S) :
    t.Within deps S := by
  induction h with
  | refl => exact ⟨fun v hv => absurd hv List.not_mem_nil, hfirst⟩
  | tail _ hturn ih => exact hturn.within ih hclosed

/-- With no demand left, what answers the first demands and those of the parts met was met. -/
theorem Search.Complete.closed (h : t.Complete deps first) (hwork : t.work = []) :
    (∀ d ∈ first, ∀ v, deps.Answers d v → v ∈ t.seen) ∧
    ∀ v ∈ t.seen, ∀ pd, deps.At v pd → ∀ d ∈ pd.demands, ∀ w, deps.Answers d w → w ∈ t.seen := by
  have hasked : ∀ {d}, d ∈ t.asked ∨ d ∈ t.work → d ∈ t.asked := by
    rw [hwork]
    exact fun hd => hd.resolve_right List.not_mem_nil
  exact ⟨fun d hd => h.answered d (hasked (h.given d hd)),
    fun v hv pd hat d hd => h.answered d (hasked (h.made v hv pd hat d hd))⟩

/-! ### The search in order -/

/-- The search in order always takes the demand on top of its stack. -/
theorem turns_searchFrom (deps : Dependencies) (asked : List Demand) (seen : List Part)
    (work : List Demand) : ∃ asked', Relation.ReflTransGen deps.Turn ⟨asked, seen, work⟩
      ⟨asked', deps.searchFrom asked seen work, []⟩ := by
  fun_induction searchFrom deps asked seen work with
  | case1 asked seen => exact ⟨asked, .refl⟩
  | case2 asked seen d work hd ih =>
    obtain ⟨asked', hturns⟩ := ih
    exact ⟨asked', .head (@Turn.again deps asked [] work seen d hd) hturns⟩
  | case3 asked seen d work hd hnone ih =>
    obtain ⟨asked', hturns⟩ := ih
    exact ⟨asked', .head (@Turn.nothing deps asked [] work seen d hd hnone) hturns⟩
  | case4 asked seen d work hd v pd hans hv ih =>
    obtain ⟨asked', hturns⟩ := ih
    exact ⟨asked', .head (@Turn.met deps asked [] work seen d v pd hd hans hv) hturns⟩
  | case5 asked seen d work hd v pd hans hv ih =>
    obtain ⟨asked', hturns⟩ := ih
    exact ⟨asked', .head (@Turn.new deps asked [] work _ seen d v pd hd hans hv
      fun _ => List.mem_reverse) hturns⟩

/-- With a part the search meets what answers the demands of the part. -/
theorem searchFrom_closed : ∀ v ∈ deps.searchFrom [] [] first, ∃ pd, deps.At v pd ∧
    ∀ d ∈ pd.demands, ∀ w, deps.Answers d w → w ∈ deps.searchFrom [] [] first := by
  obtain ⟨_, hturns⟩ := deps.turns_searchFrom [] [] first
  have hcomplete := complete_of_turns hturns
  intro v hv
  obtain ⟨pd, hat⟩ := hcomplete.recorded v hv
  exact ⟨pd, hat, (hcomplete.closed rfl).2 v hv pd hat⟩

theorem mem_searchFrom_of_answers (hd : d ∈ first) (hw : deps.Answers d w) :
    w ∈ deps.searchFrom [] [] first := by
  obtain ⟨_, hturns⟩ := deps.turns_searchFrom [] [] first
  exact ((complete_of_turns hturns).closed rfl).1 d hd w hw

theorem searchFrom_subset (hfirst : ∀ d ∈ first, ∀ v, deps.Answers d v → v ∈ S)
    (hclosed : ∀ v ∈ S, ∀ pd, deps.At v pd → ∀ d ∈ pd.demands, ∀ w, deps.Answers d w → w ∈ S) :
    ∀ v ∈ deps.searchFrom [] [] first, v ∈ S := by
  obtain ⟨_, hturns⟩ := deps.turns_searchFrom [] [] first
  exact (within_of_turns hturns hfirst hclosed).1

/-- A search that can take no further turn has met what the search in order meets from the same
demands. -/
theorem mem_seen_iff_of_turns (h : Relation.ReflTransGen deps.Turn ⟨[], [], first⟩ t)
    (hend : ∀ t', ¬ deps.Turn t t') (hsame : ∀ d, d ∈ first' ↔ d ∈ first) :
    v ∈ t.seen ↔ v ∈ deps.searchFrom [] [] first' := by
  obtain ⟨hfirst, hclosed⟩ := (complete_of_turns h).closed (work_eq_nil_of_no_turn hend)
  constructor
  · refine (within_of_turns h (S := {v | v ∈ deps.searchFrom [] [] first'}) ?_ ?_).1 v
    · exact fun d hd w hw => mem_searchFrom_of_answers ((hsame d).mpr hd) hw
    · intro v hv pd hat
      obtain ⟨pd', hat', hall⟩ := searchFrom_closed v hv
      obtain rfl := hat.unique hat'
      exact hall
  · exact searchFrom_subset (S := {v | v ∈ t.seen}) (fun d hd => hfirst d ((hsame d).mp hd))
      hclosed v

end Dependencies

end Midend
