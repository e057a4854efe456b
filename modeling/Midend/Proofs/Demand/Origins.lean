import Midend.Demand.Dependencies
import Midend.Proofs.Arena.WellFormed

/-!
# Origins and the demands they raise

The origin of a node, stated apart from the search for it: an indexing apply takes the origin of
what it indexes one step further, another apply comes out of the graphs it calls. What an apply does
with its inputs is unknown unless it indexes them, so it charges them with their origins.
-/

namespace Midend

namespace Arena

variable {a : Arena} {n m u f : NodeId} {o o' : Origin} {ix : Indexing} {d : Demand} {g : GraphId}

/-- Which calls a node comes out of, and where in their results it stands. -/
inductive HasOrigin (a : Arena) : NodeId → Origin → Prop
  | indexed {n : NodeId} {ix : Indexing} {o : Origin} : a.indexing? n = some ix →
      HasOrigin a ix.base o → HasOrigin a n ⟨o.graphs, o.path ++ [ix.step]⟩
  | called {n : NodeId} {c : Calls} : a.indexing? n = none → a.isApply n = true →
      a.calls n = .ok c → HasOrigin a n ⟨c.returns, []⟩
  | other {n : NodeId} : a.indexing? n = none → a.isApply n = false → HasOrigin a n .unknown

/-- What an apply demands, and the node with which the demand is recorded. -/
inductive Charges (a : Arena) : NodeId → NodeId → Demand → Prop
  | input {u n : NodeId} {o : Origin} {d : Demand} : a.indexing? u = none → a.isApply u = true →
      n ∈ a.inputs u → a.HasOrigin n o → d ∈ o.demands → Charges a u n d
  | default {u n : NodeId} {ix : Indexing} {o : Origin} {d : Demand} : a.indexing? u = some ix →
      ix.default = some n → a.HasOrigin n o → d ∈ o.demands → Charges a u n d
  | mapped {u : NodeId} {c : Calls} {g : GraphId} : a.indexing? u = none → a.isApply u = true →
      a.calls u = .ok c → g ∈ c.maps → Charges a u u ⟨g, []⟩

theorem HasOrigin.unique (h : a.HasOrigin n o) (h' : a.HasOrigin n o') : o = o' := by
  induction h generalizing o' with
  | indexed hix _ ih =>
    cases h' with
    | indexed hix' hb' =>
      obtain rfl := Option.some.inj (hix.symm.trans hix')
      rw [ih hb']
    | called hnone _ _ => simp [hix] at hnone
    | other hnone _ => simp [hix] at hnone
  | called hnone happ hc =>
    cases h' with
    | indexed hix' _ => simp [hnone] at hix'
    | called _ _ hc' => rw [Except.ok.inj (hc.symm.trans hc')]
    | other _ hnot => simp [happ] at hnot
  | other hnone hnot =>
    cases h' with
    | indexed hix' _ => simp [hnone] at hix'
    | called _ happ _ => simp [hnot] at happ
    | other _ _ => rfl

theorem Charges.of_indexing (h : a.Charges n m d) (hix : a.indexing? n = some ix) :
    ix.default = some m ∧ ∃ o, a.HasOrigin m o ∧ d ∈ o.demands := by
  cases h with
  | input hnone _ _ _ _ => simp [hix] at hnone
  | default hix' hd ho hmem =>
    obtain rfl := Option.some.inj (hix.symm.trans hix')
    exact ⟨hd, _, ho, hmem⟩
  | mapped hnone _ _ _ => simp [hix] at hnone

theorem Charges.of_calls {c : Calls} (h : a.Charges n m d) (hnone : a.indexing? n = none)
    (hc : a.calls n = .ok c) : (m ∈ a.inputs n ∧ ∃ o, a.HasOrigin m o ∧ d ∈ o.demands) ∨
      m = n ∧ d ∈ Origin.demands ⟨c.maps, []⟩ := by
  cases h with
  | input _ _ hm ho hmem => exact Or.inl ⟨hm, _, ho, hmem⟩
  | default hix _ _ _ => simp [hnone] at hix
  | mapped _ _ hc' hg =>
    obtain rfl := Except.ok.inj (hc.symm.trans hc')
    exact Or.inr ⟨rfl, List.mem_map_of_mem hg⟩

theorem Charges.isApply (h : a.Charges n m d) (hnone : a.indexing? n = none) :
    a.isApply n = true := by
  cases h with
  | input _ happ _ _ _ => exact happ
  | default hix _ _ _ => simp [hnone] at hix
  | mapped _ happ _ _ => exact happ

/-- An indexing apply runs one of the two operations on a constant key. -/
theorem indexing?_eq_some (h : a.indexing? n = some ix) : ∃ f key,
    a.step? key = some ix.step ∧
      ((a.applied? n = some .tupleGet ∧ a.inputs n = [f, ix.base, key] ∧ ix.default = none) ∨
        ∃ d, a.applied? n = some .envGet ∧ a.inputs n = [f, ix.base, key, d] ∧
          ix.default = some d) := by
  unfold indexing? at h
  split at h
  · next f base key happ hin =>
    obtain ⟨k, hk, rfl⟩ := Option.map_eq_some_iff.mp h
    exact ⟨f, key, hk, Or.inl ⟨happ, hin, rfl⟩⟩
  · next f base key d happ hin =>
    obtain ⟨k, hk, rfl⟩ := Option.map_eq_some_iff.mp h
    exact ⟨f, key, hk, Or.inr ⟨d, happ, hin, rfl⟩⟩
  · cases h

theorem base_mem_inputs (h : a.indexing? n = some ix) : ix.base ∈ a.inputs n := by
  obtain ⟨f, key, _, ⟨_, hin, _⟩ | ⟨d, _, hin, _⟩⟩ := indexing?_eq_some h
  · simp [hin]
  · simp [hin]

theorem default_mem_inputs (h : a.indexing? n = some ix) (hd : ix.default = some m) :
    m ∈ a.inputs n := by
  obtain ⟨f, key, _, ⟨_, _, hnone⟩ | ⟨d, _, hin, hsome⟩⟩ := indexing?_eq_some h
  · simp [hnone] at hd
  · rw [hd, Option.some.injEq] at hsome
    simp [hin, hsome]

/-- The function and the key of an indexing apply are constants. -/
theorem mem_inputs_of_indexing (h : a.indexing? n = some ix) (hm : m ∈ a.inputs n) :
    m = ix.base ∨ ix.default = some m ∨ ∃ v, a.value? m = some v := by
  obtain ⟨f, key, hkey, hcases⟩ := indexing?_eq_some h
  obtain ⟨w, hw, _⟩ := Option.bind_eq_some_iff.mp hkey
  have hfunc : ∀ {p}, a.applied? n = some p → (a.inputs n).head? = some f →
      ∃ v, a.value? f = some v := by
    intro p happ hhead
    obtain ⟨f', hf', hv⟩ := applied?_eq_some_iff.mp happ
    obtain rfl := Option.some.inj (hhead.symm.trans hf')
    exact ⟨_, hv⟩
  rcases hcases with ⟨happ, hin, _⟩ | ⟨d, happ, hin, hd⟩
  · have hf := hfunc happ (by simp [hin])
    simp only [hin, List.mem_cons, List.not_mem_nil, or_false] at hm
    rcases hm with rfl | rfl | rfl
    · exact Or.inr (Or.inr hf)
    · exact Or.inl rfl
    · exact Or.inr (Or.inr ⟨w, hw⟩)
  · have hf := hfunc happ (by simp [hin])
    simp only [hin, List.mem_cons, List.not_mem_nil, or_false] at hm
    rcases hm with rfl | rfl | rfl | rfl
    · exact Or.inr (Or.inr hf)
    · exact Or.inl rfl
    · exact Or.inr (Or.inr ⟨w, hw⟩)
    · exact Or.inr (Or.inl hd)

theorem HasOrigin.of_value? {v : Value} (h : a.value? n = some v) : a.HasOrigin n .unknown := by
  have hk := kind?_of_value? h
  refine .other ?_ (by simp [isApply, hk])
  cases hix : a.indexing? n with
  | none => rfl
  | some ix =>
    have := base_mem_inputs hix
    rw [inputs_eq_nil_of_value? h] at this
    exact absurd this List.not_mem_nil

end Arena

namespace Origins

variable {a : Arena} {r r' r'' : Origins} {n m : NodeId} {o : Origin} {d : Demand}
  {ds : List Demand} {active : List NodeId}

def recorded (r : Origins) (n : NodeId) : List Demand := (r.demands.get? n).getD []

/-- What is known is so, and what known nodes charge is recorded. -/
structure Sound (a : Arena) (r : Origins) : Prop where
  known : ∀ {n o}, r.known.get? n = some o → a.HasOrigin n o
  charged : ∀ {u o n d}, r.known.get? u = some o → a.Charges u n d → d ∈ r.recorded n

/-- Whether `r'` knows and records all that `r` does. -/
structure Extends (r r' : Origins) : Prop where
  known : ∀ {n o}, r.known.get? n = some o → r'.known.get? n = some o
  recorded : ∀ {n d}, d ∈ r.recorded n → d ∈ r'.recorded n

theorem Extends.refl (r : Origins) : r.Extends r := ⟨id, id⟩

theorem Extends.trans (h : r.Extends r') (h' : r'.Extends r'') : r.Extends r'' :=
  ⟨fun hn => h'.known (h.known hn), fun hd => h'.recorded (h.recorded hd)⟩

@[simp] theorem known_demand (r : Origins) (n : NodeId) (ds : List Demand) :
    (r.demand n ds).known = r.known := by
  unfold demand
  split <;> rfl

theorem mem_recorded_demand :
    d ∈ (r.demand n ds).recorded m ↔ d ∈ r.recorded m ∨ m = n ∧ d ∈ ds := by
  unfold demand
  by_cases hds : ds = []
  · simp [hds]
  · rw [if_neg hds]
    simp only [recorded, OrderedMap.get?_append]
    by_cases hm : m = n
    · simp [hm]
    · simp [hm]

theorem extends_demand (r : Origins) (n : NodeId) (ds : List Demand) :
    r.Extends (r.demand n ds) :=
  ⟨fun hn => by rwa [known_demand], fun hd => mem_recorded_demand.mpr (Or.inl hd)⟩

theorem Sound.demand (h : r.Sound a) (n : NodeId) (ds : List Demand) : (r.demand n ds).Sound a := by
  refine ⟨fun hn => h.known (by rwa [known_demand] at hn), fun hu hc => ?_⟩
  rw [known_demand] at hu
  exact mem_recorded_demand.mpr (Or.inl (h.charged hu hc))

theorem get?_known_learn : (r.learn n o).2.known.get? m = if m = n then some o else r.known.get? m :=
  OrderedMap.get?_insert r.known n m o

theorem known_learn_self (r : Origins) (n : NodeId) (o : Origin) :
    (r.learn n o).2.known.get? n = some o :=
  get?_known_learn.trans (if_pos rfl)

theorem Sound.learn (h : r.Sound a) (ho : a.HasOrigin n o)
    (hc : ∀ m d, a.Charges n m d → d ∈ r.recorded m) :
    (r.learn n o).2.Sound a ∧ r.Extends (r.learn n o).2 := by
  refine ⟨⟨fun {m o'} hm => ?_, fun {u o' m d} hu hcharge => ?_⟩, ⟨fun {m o'} hm => ?_, id⟩⟩
  · rw [get?_known_learn] at hm
    by_cases hmn : m = n
    · rw [if_pos hmn, Option.some.injEq] at hm
      exact hmn ▸ hm ▸ ho
    · rw [if_neg hmn] at hm
      exact h.known hm
  · rw [get?_known_learn] at hu
    by_cases hun : u = n
    · exact hc m d (hun ▸ hcharge)
    · rw [if_neg hun] at hu
      exact h.charged hu hcharge
  · rw [get?_known_learn]
    by_cases hmn : m = n
    · rw [if_pos hmn, ho.unique (hmn ▸ h.known hm)]
    · rwa [if_neg hmn]

/-! ### The search -/

/-- What is to be shown of the search for the origin of a node. -/
def Finds (a : Arena) (n : NodeId) : Prop :=
  ∀ {active r o r'}, (∀ x ∈ active, ¬ a.Under n x) → r.Sound a →
    find a active n r = .ok (o, r') →
      a.HasOrigin n o ∧ r'.known.get? n = some o ∧ r'.Sound a ∧ r.Extends r'

theorem demandAll_spec {ns : List NodeId} (hfinds : ∀ n ∈ ns, Finds a n)
    (hactive : ∀ n ∈ ns, ∀ x ∈ active, ¬ a.Under n x) (hs : r.Sound a)
    (h : demandAll a active ns r = .ok r') :
    r'.Sound a ∧ r.Extends r' ∧
      ∀ n ∈ ns, ∀ o, a.HasOrigin n o → ∀ d ∈ o.demands, d ∈ r'.recorded n := by
  induction ns generalizing r with
  | nil =>
    rw [demandAll, Except.ok.injEq] at h
    exact h ▸ ⟨hs, Extends.refl r, fun n hn => absurd hn List.not_mem_nil⟩
  | cons n ns ih =>
    rw [demandAll] at h
    split at h
    · cases h
    · next o r₁ hfind =>
      obtain ⟨ho, -, hs₁, hext₁⟩ := hfinds n List.mem_cons_self (hactive n List.mem_cons_self) hs
        hfind
      obtain ⟨hs', hext, hall⟩ := ih (fun m hm => hfinds m (List.mem_cons_of_mem n hm))
        (fun m hm => hactive m (List.mem_cons_of_mem n hm)) (hs₁.demand n o.demands) h
      refine ⟨hs', (hext₁.trans (extends_demand r₁ n o.demands)).trans hext, fun m hm => ?_⟩
      rcases List.mem_cons.mp hm with rfl | hm
      · intro o' ho' d hd
        refine hext.recorded (mem_recorded_demand.mpr (Or.inr ⟨rfl, ?_⟩))
        rwa [ho.unique ho']
      · exact hall m hm

/-- The search finds the origin of a node, whatever is being searched above it. -/
theorem finds (hac : a.Acyclic) (hwf : a.WellFormed) (hn : n ∈ a.nodeIds) : Finds a n := by
  induction n using hac.induction with
  | step n ih =>
    intro active r o r' hactive hs h
    have hfree : ∀ m ∈ a.inputs n, ∀ x ∈ n :: active, ¬ a.Under m x := by
      intro m hm x hx hu
      rcases List.mem_cons.mp hx with rfl | hx
      · exact hac.not_under hm hu
      · exact hactive x hx (Arena.Under.of_inputs hm hu)
    have hfinds : ∀ m ∈ a.inputs n, Finds a m := fun m hm => ih m hm (hwf.input_mem hm)
    rw [find] at h
    split at h
    · next o' hknown =>
      obtain ⟨rfl, rfl⟩ := Prod.mk.inj (Except.ok.inj h)
      exact ⟨hs.known hknown, hknown, hs, Extends.refl r⟩
    · rw [dif_neg fun hc => hc.elim (fun ha => hactive n ha (Arena.Under.refl a n)) fun hc => hc hn]
        at h
      split at h
      · next ix hix =>
        have hdef : ∀ m ∈ ix.default.toList, m ∈ a.inputs n := fun m hm =>
          Arena.default_mem_inputs hix (Option.mem_toList.mp hm)
        have hbase := Arena.base_mem_inputs hix
        split at h
        · cases h
        · next r₁ hall =>
          obtain ⟨hs₁, hext₁, hrec⟩ := demandAll_spec (fun m hm => hfinds m (hdef m hm))
            (fun m hm => hfree m (hdef m hm)) hs hall
          split at h
          · cases h
          · next o₂ r₂ hfind =>
            obtain ⟨ho₂, -, hs₂, hext₂⟩ := hfinds ix.base hbase (hfree ix.base hbase) hs₁ hfind
            have ho : a.HasOrigin n ⟨o₂.graphs, o₂.path ++ [ix.step]⟩ := .indexed hix ho₂
            obtain ⟨hs₃, hext₃⟩ := hs₂.learn ho fun m d hc => by
              obtain ⟨hd, o', ho', hmem⟩ := hc.of_indexing hix
              exact hext₂.recorded (hrec m (Option.mem_toList.mpr hd) o' ho' d hmem)
            obtain ⟨rfl, rfl⟩ := Prod.mk.inj (Except.ok.inj h)
            exact ⟨ho, known_learn_self _ n _, hs₃, (hext₁.trans hext₂).trans hext₃⟩
      · next hnone =>
        split at h
        · next happ =>
          split at h
          · cases h
          · next r₁ hall =>
            obtain ⟨hs₁, hext₁, hrec⟩ := demandAll_spec hfinds hfree hs hall
            split at h
            · cases h
            · next c hc =>
              have ho : a.HasOrigin n ⟨c.returns, []⟩ := .called hnone happ hc
              have hs₂ := hs₁.demand n (Origin.demands ⟨c.maps, []⟩)
              have hext₂ := extends_demand r₁ n (Origin.demands ⟨c.maps, []⟩)
              obtain ⟨hs₃, hext₃⟩ := hs₂.learn ho fun m d hcharge => by
                refine mem_recorded_demand.mpr ?_
                rcases hcharge.of_calls hnone hc with ⟨hm, o', ho', hmem⟩ | hmaps
                · exact Or.inl (hrec m hm o' ho' d hmem)
                · exact Or.inr hmaps
              obtain ⟨rfl, rfl⟩ := Prod.mk.inj (Except.ok.inj h)
              exact ⟨ho, known_learn_self _ n _, hs₃, (hext₁.trans hext₂).trans hext₃⟩
        · next happ =>
          have ho : a.HasOrigin n .unknown := .other hnone (by simpa using happ)
          obtain ⟨hs₁, hext₁⟩ := hs.learn ho fun m d hc => absurd (hc.isApply hnone) happ
          obtain ⟨rfl, rfl⟩ := Prod.mk.inj (Except.ok.inj h)
          exact ⟨ho, known_learn_self _ n _, hs₁, hext₁⟩

theorem find_of_not_mem (hn : n ∉ a.nodeIds) (h : find a active n r = .ok (o, r')) : r' = r := by
  rw [find] at h
  split at h
  · exact (Prod.mk.inj (Except.ok.inj h)).2.symm
  · rw [dif_pos (Or.inr hn)] at h
    exact (Prod.mk.inj (Except.ok.inj h)).2.symm

theorem findAll_spec {ns : List NodeId} (hac : a.Acyclic) (hwf : a.WellFormed) (hs : r.Sound a)
    (h : r.findAll a ns = .ok r') :
    r'.Sound a ∧ r.Extends r' ∧ ∀ n ∈ ns, n ∈ a.nodeIds → ∃ o, r'.known.get? n = some o := by
  induction ns generalizing r with
  | nil => exact Except.ok.inj h ▸ ⟨hs, Extends.refl r, fun n hn => absurd hn List.not_mem_nil⟩
  | cons n ns ih =>
    unfold findAll at h
    split at h
    · cases h
    · next o r₁ hfind =>
      by_cases hn : n ∈ a.nodeIds
      · obtain ⟨-, hknown, hs₁, hext₁⟩ := finds hac hwf hn
          (fun x hx => absurd hx List.not_mem_nil) hs hfind
        obtain ⟨hs', hext, hall⟩ := ih hs₁ h
        refine ⟨hs', hext₁.trans hext, fun m hm hmem => ?_⟩
        rcases List.mem_cons.mp hm with rfl | hm
        · exact ⟨o, hext.known hknown⟩
        · exact hall m hm hmem
      · rw [find_of_not_mem hn hfind] at h
        obtain ⟨hs', hext, hall⟩ := ih hs h
        refine ⟨hs', hext, fun m hm hmem => ?_⟩
        rcases List.mem_cons.mp hm with rfl | hm
        · exact absurd hmem hn
        · exact hall m hm hmem

theorem sound_empty : empty.Sound a :=
  ⟨fun hn => by simp [empty] at hn, fun hu => by simp [empty] at hu⟩

end Origins

namespace Store

variable {s : Store} {ds : OrderedMap NodeId (List Demand)} {n u : NodeId} {d : Demand}

/-- The recorded demands come from a search that knows the origin of every live node. -/
theorem demands_spec (hac : s.arena.Acyclic) (hwf : s.arena.WellFormed) (hds : s.demands = .ok ds) :
    ∃ r : Origins, r.demands = ds ∧ r.Sound s.arena ∧
      ∀ n ∈ s.live.nodes, n ∈ s.arena.nodeIds → ∃ o, r.known.get? n = some o := by
  unfold demands at hds
  cases hfind : Origins.empty.findAll s.arena s.demandOrder with
  | error f => simp [hfind, Except.map] at hds
  | ok r =>
    obtain ⟨hs, -, hall⟩ := Origins.findAll_spec hac hwf Origins.sound_empty hfind
    refine ⟨r, ?_, hs, fun n hn => hall n (List.mem_append_right _ hn)⟩
    simpa [hfind, Except.map] using hds

theorem exists_hasOrigin (hac : s.arena.Acyclic) (hwf : s.arena.WellFormed)
    (hds : s.demands = .ok ds) (hn : n ∈ s.live.nodes) (hmem : n ∈ s.arena.nodeIds) :
    ∃ o, s.arena.HasOrigin n o := by
  obtain ⟨r, -, hs, hall⟩ := demands_spec hac hwf hds
  obtain ⟨o, ho⟩ := hall n hn hmem
  exact ⟨o, hs.known ho⟩

/-- Whatever a live apply charges is recorded. -/
theorem mem_demands_of_charges (hac : s.arena.Acyclic) (hwf : s.arena.WellFormed)
    (hds : s.demands = .ok ds) (hu : u ∈ s.live.nodes) (hmem : u ∈ s.arena.nodeIds)
    (hc : s.arena.Charges u n d) : d ∈ (ds.get? n).getD [] := by
  obtain ⟨r, rfl, hs, hall⟩ := demands_spec hac hwf hds
  obtain ⟨o, ho⟩ := hall u hu hmem
  exact hs.charged ho hc

theorem mem_demandsUnder : d ∈ s.demandsUnder ds n ↔
    ∃ m, s.arena.Under n m ∧ d ∈ (ds.get? m).getD [] := by
  simp only [demandsUnder, OrderedSet.mem_ofList, List.mem_flatMap, Arena.mem_preorder]

end Store

end Midend
