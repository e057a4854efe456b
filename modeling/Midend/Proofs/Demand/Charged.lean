import Mathlib
import Midend.Proofs.Demand.Calls
import Midend.Proofs.Demand.Origins
import Midend.Proofs.Demand.Unresolved

/-!
# Demands without the search

Which demands are recorded, said without memory and order: a node that a live apply reads other than
by a constant key, or offers as a default, is charged with the graphs of the call that it was taken
out of, at the keys by which it was taken out.
-/

namespace Midend

/-- Whether `g` is the callee of one of the targets. -/
def Target.AnyCalls (ts : List Target) (g : GraphId) : Prop :=
  ∃ t ∈ ts, ∃ bound, t.callee = .ok (.graph g, bound)

namespace Arena

variable {a : Arena} {n m u c c' : NodeId} {g : GraphId} {p q : Path} {o : Origin} {d : Demand}
  {args : List NodeId} {ts : List Target} {calls calls' : Calls} {bound : List Ty}

/-! ### What an apply runs -/

/-- Whether `n` maps a function over an array that names `g`. -/
def MapNames (a : Arena) (n : NodeId) (g : GraphId) : Prop :=
  ∃ f args ts t bound us, a.inputs n = f :: args ∧ (a.type? f).bind Ty.targets? = some ts ∧
    t ∈ ts ∧ Target.callee t = .ok (.prim .arrayMap, bound) ∧
    (a.mappedType? args bound).bind Ty.targets? = some us ∧ Target.AnyCalls us g

theorem mem_calledGraphs_iff {gs : List GraphId} (h : calledGraphs ts = .ok gs) :
    g ∈ gs ↔ Target.AnyCalls ts g := by
  induction ts generalizing gs with
  | nil =>
    obtain rfl := Except.ok.inj h
    simp [Target.AnyCalls]
  | cons t ts ih =>
    unfold calledGraphs at h
    split at h
    · cases h
    · next k bound hc =>
      cases hrest : calledGraphs ts with
      | error f => simp [hrest, Except.map] at h
      | ok gs' =>
        rw [hrest] at h
        obtain rfl := Except.ok.inj h
        have hfirst : g ∈ k.graph?.toList ↔ k = .graph g := by
          cases k with
          | graph g' => simp [Callee.graph?, eq_comm]
          | prim p => simp [Callee.graph?]
        simp [ih hrest, hfirst, Target.AnyCalls, hc]

theorem mem_mappedGraphs_iff {gs : List GraphId} (h : a.mappedGraphs n args bound = .ok gs) :
    g ∈ gs ↔ ∃ us, (a.mappedType? args bound).bind Ty.targets? = some us ∧
      Target.AnyCalls us g := by
  rw [mappedGraphs_eq_elim] at h
  cases hus : (a.mappedType? args bound).bind Ty.targets? with
  | none => simp [hus] at h
  | some us =>
    rw [hus] at h
    simpa using mem_calledGraphs_iff h

/-- What the targets add to the calls found before. -/
theorem mem_callsOf_iff (h : a.callsOf n args ts calls = .ok calls') :
    (g ∈ calls'.returns ↔ g ∈ calls.returns ∨ Target.AnyCalls ts g) ∧
      (g ∈ calls'.maps ↔ g ∈ calls.maps ∨ ∃ t ∈ ts, ∃ bound us,
        t.callee = .ok (.prim .arrayMap, bound) ∧
        (a.mappedType? args bound).bind Ty.targets? = some us ∧ Target.AnyCalls us g) := by
  induction ts generalizing calls with
  | nil =>
    obtain rfl := Except.ok.inj h
    simp [Target.AnyCalls]
  | cons t ts ih =>
    obtain ⟨calls₁, hrest, hcases⟩ := callsOf_cons h
    obtain ⟨hreturns, hmaps⟩ := ih hrest
    rw [hreturns, hmaps]
    rcases hcases with ⟨g', bound, hc, rfl⟩ | ⟨bound, gs, hc, hgs, rfl⟩ | ⟨p, bound, hc, hne, rfl⟩
    · have hadd : g ∈ (if g' ∈ calls.returns then calls.returns else calls.returns ++ [g']) ↔
          g ∈ calls.returns ∨ g' = g := by
        by_cases hg' : g' ∈ calls.returns
        · rw [if_pos hg']
          exact (or_iff_left_of_imp fun heq => heq ▸ hg').symm
        · simp [hg', eq_comm]
      simp [Target.AnyCalls, hc, hadd, or_assoc]
    · simp [Target.AnyCalls, hc, mem_mappedGraphs_iff hgs, or_assoc]
    · simp [Target.AnyCalls, hc, hne]

theorem calls_eq_ok_iff : a.calls n = .ok calls ↔ ∃ f args ts, a.inputs n = f :: args ∧
    (a.type? f).bind Ty.targets? = some ts ∧ a.callsOf n args ts ⟨[], []⟩ = .ok calls := by
  unfold Arena.calls
  cases hin : a.inputs n with
  | nil => simp
  | cons f args => cases hts : (a.type? f).bind Ty.targets? with
    | none => simp [hts]
    | some ts => simp [hts]

theorem mem_returns_iff (h : a.calls n = .ok calls) : g ∈ calls.returns ↔ a.CallNames n g := by
  obtain ⟨f, args, ts, hin, hts, hcalls⟩ := calls_eq_ok_iff.mp h
  have hf : a.slot? ⟨n, 0⟩ = some f := by simp [slot?, hin]
  rw [(mem_callsOf_iff hcalls).1]
  constructor
  · intro hg
    obtain ⟨t, ht, bound, hc⟩ := hg.resolve_left List.not_mem_nil
    exact ⟨f, ts, t, bound, hf, hts, ht, hc⟩
  · rintro ⟨f', ts', t, bound, hf', hts', ht, hc⟩
    obtain rfl := Option.some.inj (hf.symm.trans hf')
    obtain rfl := Option.some.inj (hts.symm.trans hts')
    exact Or.inr ⟨t, ht, bound, hc⟩

theorem mem_maps_iff (h : a.calls n = .ok calls) : g ∈ calls.maps ↔ a.MapNames n g := by
  obtain ⟨f, args, ts, hin, hts, hcalls⟩ := calls_eq_ok_iff.mp h
  rw [(mem_callsOf_iff hcalls).2]
  constructor
  · intro hg
    obtain ⟨t, ht, bound, us, hc, hus, hnames⟩ := hg.resolve_left List.not_mem_nil
    exact ⟨f, args, ts, t, bound, us, hin, hts, ht, hc, hus, hnames⟩
  · rintro ⟨f', args', ts', t, bound, us, hin', hts', ht, hc, hus, hnames⟩
    obtain ⟨rfl, rfl⟩ := List.cons.inj (hin.symm.trans hin')
    obtain rfl := Option.some.inj (hts.symm.trans hts')
    exact Or.inr ⟨t, ht, bound, us, hc, hus, hnames⟩

/-! ### Where a value was taken out of -/

/-- Whether `n` is taken out of the result of the apply `c` at a path, by index applies with constant
keys alone; the outermost key stands last. -/
inductive Picks (a : Arena) : NodeId → Path → NodeId → Prop
  | here {c : NodeId} : a.indexing? c = none → a.isApply c = true → Picks a c [] c
  | key {n c : NodeId} {ix : Indexing} {p : Path} : a.indexing? n = some ix →
      Picks a ix.base p c → Picks a n (p ++ [ix.step]) c

/-- The origin of a node is the call that it is taken out of. -/
theorem HasOrigin.mem_demands_iff (h : a.HasOrigin n o) :
    ⟨g, p⟩ ∈ o.demands ↔ ∃ c, a.Picks n p c ∧ a.CallNames c g := by
  induction h generalizing p with
  | @indexed n ix o hix _ ih =>
    have hstep : (⟨g, p⟩ : Demand) ∈ Origin.demands ⟨o.graphs, o.path ++ [ix.step]⟩ ↔
        ∃ q, p = q ++ [ix.step] ∧ (⟨g, q⟩ : Demand) ∈ o.demands := by
      simp only [Origin.demands, List.mem_map, Demand.mk.injEq]
      constructor
      · rintro ⟨g', hg', rfl, rfl⟩
        exact ⟨o.path, rfl, g', hg', rfl, rfl⟩
      · rintro ⟨q, rfl, g', hg', rfl, rfl⟩
        exact ⟨g', hg', rfl, rfl⟩
    rw [hstep]
    constructor
    · rintro ⟨q, rfl, hd⟩
      obtain ⟨c, hpick, hname⟩ := ih.mp hd
      exact ⟨c, .key hix hpick, hname⟩
    · rintro ⟨c, hpick, hname⟩
      cases hpick with
      | here hnone _ => simp [hix] at hnone
      | @key _ _ ix' q hix' hrest =>
        obtain rfl := Option.some.inj (hix.symm.trans hix')
        exact ⟨q, rfl, ih.mpr ⟨c, hrest, hname⟩⟩
  | @called n calls hnone happ hcalls =>
    simp only [Origin.demands, List.mem_map, Demand.mk.injEq]
    constructor
    · rintro ⟨g', hg', rfl, rfl⟩
      exact ⟨n, .here hnone happ, (mem_returns_iff hcalls).mp hg'⟩
    · rintro ⟨c, hpick, hname⟩
      cases hpick with
      | here _ _ => exact ⟨g, (mem_returns_iff hcalls).mpr hname, rfl, rfl⟩
      | key hix _ => simp [hnone] at hix
  | @other n hnone hnot =>
    refine ⟨fun h => absurd h List.not_mem_nil, ?_⟩
    rintro ⟨c, hpick, -⟩
    cases hpick with
    | here _ happ => simp [hnot] at happ
    | key hix _ => simp [hnone] at hix

/-- Whether an apply reads `n` otherwise than by indexing it with a constant key, or takes it where an
environment has no entry under a constant key. -/
def Consumes (a : Arena) (u n : NodeId) : Prop :=
  (a.indexing? u = none ∧ n ∈ a.inputs u) ∨ ∃ ix, a.indexing? u = some ix ∧ ix.default = some n

theorem Consumes.mem_inputs (h : a.Consumes u n) : n ∈ a.inputs u := by
  rcases h with ⟨-, hmem⟩ | ⟨ix, hix, hdef⟩
  · exact hmem
  · exact default_mem_inputs hix hdef

theorem charges_iff (hn : n ∈ a.inputs u → ∃ o, a.HasOrigin n o) (hu : ∃ o, a.HasOrigin u o) :
    a.Charges u n ⟨g, p⟩ ↔ (a.Consumes u n ∧ ∃ c, a.Picks n p c ∧ a.CallNames c g) ∨
      (u = n ∧ a.indexing? n = none ∧ p = [] ∧ a.MapNames n g) := by
  constructor
  · intro h
    generalize hd : (⟨g, p⟩ : Demand) = d at h
    cases h with
    | input hnone happ hmem ho hd' =>
      subst hd
      exact Or.inl ⟨Or.inl ⟨hnone, hmem⟩, ho.mem_demands_iff.mp hd'⟩
    | default hix hdef ho hd' =>
      subst hd
      exact Or.inl ⟨Or.inr ⟨_, hix, hdef⟩, ho.mem_demands_iff.mp hd'⟩
    | mapped hnone happ hcalls hg =>
      obtain ⟨rfl, rfl⟩ := Demand.mk.inj hd
      exact Or.inr ⟨rfl, hnone, rfl, (mem_maps_iff hcalls).mp hg⟩
  · rintro (⟨hconsumes, hpick⟩ | ⟨rfl, hnone, rfl, hmap⟩)
    · obtain ⟨o, ho⟩ := hn hconsumes.mem_inputs
      rcases hconsumes with ⟨hnone, hmem⟩ | ⟨ix, hix, hdef⟩
      · exact .input hnone (isApply_of_mem_inputs hmem) hmem ho (ho.mem_demands_iff.mpr hpick)
      · exact .default hix hdef ho (ho.mem_demands_iff.mpr hpick)
    · have happ : a.isApply u = true := by
        obtain ⟨f, args, ts, t, bound, us, hin, -⟩ := hmap
        exact isApply_of_mem_inputs (m := f) (by simp [hin])
      obtain ⟨o', hu⟩ := hu
      cases hu with
      | indexed hix _ => simp [hnone] at hix
      | other _ hnot => simp [happ] at hnot
      | called _ _ hcalls => exact .mapped hnone happ hcalls ((mem_maps_iff hcalls).mpr hmap)

end Arena

namespace Origins

variable {a : Arena} {P : NodeId → Prop} {r r' : Origins} {n : NodeId} {o : Origin}
  {ds : List Demand} {active ns : List NodeId} {again : NodeId → Origins → Except Fault (Origin × Origins)}

/-! ### Nothing is recorded without a charge -/

/-- Whether each recorded demand is charged by a node with a property. -/
def Backed (a : Arena) (P : NodeId → Prop) (r : Origins) : Prop :=
  ∀ n d, d ∈ r.recorded n → ∃ u, P u ∧ a.Charges u n d

theorem backed_empty : empty.Backed a P := fun _ _ hd => absurd hd List.not_mem_nil

theorem Backed.demand (h : r.Backed a P) (hds : ∀ d ∈ ds, ∃ u, P u ∧ a.Charges u n d) :
    (r.demand n ds).Backed a P := by
  intro m d hmem
  rcases mem_recorded_demand.mp hmem with hd | ⟨rfl, hd⟩
  · exact h m d hd
  · exact hds d hd

theorem Backed.learn (h : r.Backed a P) (n : NodeId) (o : Origin) : (r.learn n o).2.Backed a P := h

/-- What is to be shown of the search for the origin of a node. -/
def Backs (a : Arena) (P : NodeId → Prop) (n : NodeId) : Prop :=
  ∀ {active r o r'}, (∀ x ∈ active, ¬ a.Under n x) → r.Sound a → r.Backed a P →
    find a active n r = .ok (o, r') → r'.Backed a P

theorem demandAll_backed (hfinds : ∀ n ∈ ns, Finds a n) (hbacks : ∀ n ∈ ns, Backs a P n)
    (hactive : ∀ n ∈ ns, ∀ x ∈ active, ¬ a.Under n x)
    (hcharge : ∀ n ∈ ns, ∀ o, a.HasOrigin n o → ∀ d ∈ o.demands, ∃ u, P u ∧ a.Charges u n d)
    (hs : r.Sound a) (hb : r.Backed a P) (h : demandAll a active ns r = .ok r') :
    r'.Backed a P := by
  induction ns generalizing r with
  | nil =>
    rw [demandAll, Except.ok.injEq] at h
    exact h ▸ hb
  | cons n ns ih =>
    rw [demandAll] at h
    split at h
    · cases h
    · next o r₁ hfind =>
      have hfree := hactive n List.mem_cons_self
      obtain ⟨ho, -, hs₁, -⟩ := hfinds n List.mem_cons_self hfree hs hfind
      have hb₁ := hbacks n List.mem_cons_self hfree hs hb hfind
      exact ih (fun m hm => hfinds m (List.mem_cons_of_mem n hm))
        (fun m hm => hbacks m (List.mem_cons_of_mem n hm))
        (fun m hm => hactive m (List.mem_cons_of_mem n hm))
        (fun m hm => hcharge m (List.mem_cons_of_mem n hm)) (hs₁.demand n o.demands)
        (hb₁.demand (hcharge n List.mem_cons_self o ho)) h

/-- The search from a node with the property records only what nodes with the property charge, if
their inputs have it too. -/
theorem backs (hac : a.Acyclic) (hwf : a.WellFormed) (hP : ∀ n, P n → ∀ m ∈ a.inputs n, P m)
    (hn : P n) (hmem : n ∈ a.nodeIds) : Backs a P n := by
  induction n using hac.induction with
  | step n ih =>
    intro active r o r' hactive hs hb h
    have hfree : ∀ m ∈ a.inputs n, ∀ x ∈ n :: active, ¬ a.Under m x := by
      intro m hm x hx hu
      rcases List.mem_cons.mp hx with rfl | hx
      · exact hac.not_under hm hu
      · exact hactive x hx (Arena.Under.of_inputs hm hu)
    have hfinds : ∀ m ∈ a.inputs n, Finds a m := fun m hm => finds hac hwf (hwf.input_mem hm)
    have hbacks : ∀ m ∈ a.inputs n, Backs a P m := fun m hm =>
      ih m hm (hP n hn m hm) (hwf.input_mem hm)
    rw [find] at h
    split at h
    · obtain ⟨-, rfl⟩ := Prod.mk.inj (Except.ok.inj h)
      exact hb
    · rw [dif_neg fun hc => hc.elim (fun ha => hactive n ha (Arena.Under.refl a n)) fun hc => hc hmem]
        at h
      split at h
      · next ix hix =>
        have hdef : ∀ m ∈ ix.default.toList, m ∈ a.inputs n := fun m hm =>
          Arena.default_mem_inputs hix (Option.mem_toList.mp hm)
        have hbase := Arena.base_mem_inputs hix
        split at h
        · cases h
        · next r₁ hall =>
          have hb₁ := demandAll_backed (fun m hm => hfinds m (hdef m hm))
            (fun m hm => hbacks m (hdef m hm)) (fun m hm => hfree m (hdef m hm))
            (fun m hm o ho d hd => ⟨n, hn, .default hix (Option.mem_toList.mp hm) ho hd⟩) hs hb hall
          obtain ⟨hs₁, -, -⟩ := demandAll_spec (fun m hm => hfinds m (hdef m hm))
            (fun m hm => hfree m (hdef m hm)) hs hall
          split at h
          · cases h
          · next o₂ r₂ hfind =>
            obtain ⟨-, rfl⟩ := Prod.mk.inj (Except.ok.inj h)
            exact (hbacks ix.base hbase (hfree ix.base hbase) hs₁ hb₁ hfind).learn n _
      · next hnone =>
        split at h
        · next happ =>
          split at h
          · cases h
          · next r₁ hall =>
            have hb₁ := demandAll_backed hfinds hbacks hfree
              (fun m hm o ho d hd => ⟨n, hn, .input hnone happ hm ho hd⟩) hs hb hall
            split at h
            · cases h
            · next c hc =>
              obtain ⟨-, rfl⟩ := Prod.mk.inj (Except.ok.inj h)
              refine Backed.learn (hb₁.demand fun d hd => ?_) n _
              obtain ⟨g, hg, rfl⟩ := List.mem_map.mp hd
              exact ⟨n, hn, .mapped hnone happ hc hg⟩
        · obtain ⟨-, rfl⟩ := Prod.mk.inj (Except.ok.inj h)
          exact hb.learn n _

theorem findAll_backed (hac : a.Acyclic) (hwf : a.WellFormed)
    (hP : ∀ n, P n → n ∈ a.nodeIds ∧ ∀ m ∈ a.inputs n, P m) (hns : ∀ n ∈ ns, P n)
    (hs : r.Sound a) (hb : r.Backed a P) (h : r.findAll a ns = .ok r') : r'.Backed a P := by
  induction ns generalizing r with
  | nil => exact Except.ok.inj h ▸ hb
  | cons n ns ih =>
    unfold findAll at h
    split at h
    · cases h
    · next o r₁ hfind =>
      have hn := hns n List.mem_cons_self
      have hmem := (hP n hn).1
      have hfree : ∀ x ∈ ([] : List NodeId), ¬ a.Under n x := fun x hx => absurd hx List.not_mem_nil
      have hb₁ := backs hac hwf (fun n hn => (hP n hn).2) hn hmem hfree hs hb hfind
      obtain ⟨-, -, hs₁, -⟩ := finds hac hwf hmem hfree hs hfind
      exact ih (fun m hm => hns m (List.mem_cons_of_mem n hm)) hs₁ hb₁ h

/-- Searched in any order, nodes that hold with a node its inputs are recorded with what they charge,
and with nothing else. -/
theorem mem_recorded_iff (hac : a.Acyclic) (hwf : a.WellFormed)
    (hP : ∀ n, P n → n ∈ a.nodeIds ∧ ∀ m ∈ a.inputs n, P m) (hns : ∀ n, n ∈ ns ↔ P n)
    (h : Origins.empty.findAll a ns = .ok r) {d : Demand} :
    d ∈ r.recorded n ↔ ∃ u, P u ∧ a.Charges u n d := by
  obtain ⟨hs, -, hall⟩ := findAll_spec hac hwf sound_empty h
  constructor
  · exact fun hd => findAll_backed hac hwf hP (fun n hn => (hns n).mp hn) sound_empty backed_empty h
      n d hd
  · rintro ⟨u, hu, hcharge⟩
    obtain ⟨o, ho⟩ := hall u ((hns u).mpr hu) (hP u hu).1
    exact hs.charged ho hcharge

/-! ### No node is searched while it is being searched -/

mutual

/-- The search for the origin of `n` in which `again` answers for a node that is being searched. -/
def findElse (a : Arena) (again : NodeId → Origins → Except Fault (Origin × Origins))
    (active : List NodeId) (n : NodeId) (r : Origins) : Except Fault (Origin × Origins) :=
  match r.known.get? n with
  | some o => .ok (o, r)
  | none =>
    if _hactive : n ∈ active then again n r
    else if _hmem : n ∈ a.nodeIds then
      match a.indexing? n with
      | some ix =>
        match demandAllElse a again (n :: active) ix.default.toList r with
        | .error f => .error f
        | .ok r =>
          match findElse a again (n :: active) ix.base r with
          | .error f => .error f
          | .ok (o, r) => .ok (r.learn n ⟨o.graphs, o.path ++ [ix.step]⟩)
      | none =>
        if a.isApply n then
          match demandAllElse a again (n :: active) (a.inputs n) r with
          | .error f => .error f
          | .ok r =>
            match a.calls n with
            | .error f => .error f
            | .ok c => .ok ((r.demand n (Origin.demands ⟨c.maps, []⟩)).learn n ⟨c.returns, []⟩)
        else .ok (r.learn n .unknown)
    else .ok (.unknown, r)
termination_by (unseen a.nodeIds active, 0)
decreasing_by
  all_goals exact Prod.Lex.left _ _ (unseen_cons_lt _hmem _hactive)

/-- The search through a list in which `again` answers for a node that is being searched. -/
def demandAllElse (a : Arena) (again : NodeId → Origins → Except Fault (Origin × Origins))
    (active : List NodeId) (ns : List NodeId) (r : Origins) : Except Fault Origins :=
  match ns with
  | [] => .ok r
  | n :: ns =>
    match findElse a again active n r with
    | .error f => .error f
    | .ok (o, r) => demandAllElse a again active ns (r.demand n o.demands)
termination_by (unseen a.nodeIds active, ns.length + 1)
decreasing_by
  · exact Prod.Lex.right _ (Nat.succ_pos _)
  · exact Prod.Lex.right _ (by simp)

end

theorem demandAllElse_eq (h : ∀ n ∈ ns, ∀ r, findElse a again active n r = find a active n r)
    (r : Origins) : demandAllElse a again active ns r = demandAll a active ns r := by
  induction ns generalizing r with
  | nil => rw [demandAllElse, demandAll]
  | cons n ns ih =>
    rw [demandAllElse, demandAll, h n List.mem_cons_self r]
    cases find a active n r with
    | error f => rfl
    | ok x => exact ih (fun m hm => h m (List.mem_cons_of_mem n hm)) _

/-- Without cycles nothing depends on how a node is answered for that is being searched. -/
theorem findElse_eq (hac : a.Acyclic) (hactive : ∀ x ∈ active, ¬ a.Under n x) (r : Origins) :
    findElse a again active n r = find a active n r := by
  induction n using hac.induction generalizing active r with
  | step n ih =>
    have hfree : n ∉ active := fun hn => hactive n hn (Arena.Under.refl a n)
    have hbelow : ∀ m ∈ a.inputs n, ∀ r,
        findElse a again (n :: active) m r = find a (n :: active) m r := by
      refine fun m hm r => ih m hm (fun x hx hu => ?_) r
      rcases List.mem_cons.mp hx with rfl | hx
      · exact hac.not_under hm hu
      · exact hactive x hx (Arena.Under.of_inputs hm hu)
    rw [findElse, find]
    cases r.known.get? n with
    | some o => rfl
    | none =>
      by_cases hmem : n ∈ a.nodeIds
      · rw [dif_neg hfree, dif_pos hmem, dif_neg fun hc => hc.elim hfree fun hc => hc hmem]
        cases hix : a.indexing? n with
        | some ix =>
          have hdef : ∀ m ∈ ix.default.toList, ∀ r,
              findElse a again (n :: active) m r = find a (n :: active) m r := fun m hm =>
            hbelow m (Arena.default_mem_inputs hix (Option.mem_toList.mp hm))
          have hlist := demandAllElse_eq hdef r
          cases hok : demandAll a (n :: active) ix.default.toList r with
          | error f => simp [hlist, hok]
          | ok r =>
            have hbase := hbelow ix.base (Arena.base_mem_inputs hix) r
            cases hfind : find a (n :: active) ix.base r <;> simp [hlist, hok, hbase, hfind]
        | none =>
          have hlist := demandAllElse_eq hbelow r
          cases hok : demandAll a (n :: active) (a.inputs n) r with
          | error f => simp [hlist, hok]
          | ok r' => cases a.calls n <;> simp [hlist, hok]
      · rw [dif_neg hfree, dif_neg hmem, dif_pos (Or.inr hmem)]

/-- The search through the nodes of a list in which `again` answers for a node that is being
searched. -/
def findAllElse (a : Arena) (again : NodeId → Origins → Except Fault (Origin × Origins))
    (r : Origins) : List NodeId → Except Fault Origins
  | [] => .ok r
  | n :: ns =>
    match findElse a again [] n r with
    | .error f => .error f
    | .ok (_, r) => findAllElse a again r ns

theorem findAllElse_eq (hac : a.Acyclic) (again : NodeId → Origins → Except Fault (Origin × Origins))
    (r : Origins) (ns : List NodeId) : r.findAllElse a again ns = r.findAll a ns := by
  induction ns generalizing r with
  | nil => rfl
  | cons n ns ih =>
    rw [findAllElse, findAll, findElse_eq hac fun x hx => absurd hx List.not_mem_nil]
    cases find a [] n r with
    | error f => rfl
    | ok x => exact ih x.2

end Origins

namespace Store

variable {s : Store} {ds : OrderedMap NodeId (List Demand)} {lax : Prop} {n : NodeId} {g root : GraphId}
  {p : Path} {ns : List NodeId} {r : Origins}

/-- Whether a live apply reads `n` otherwise than by indexing it with a constant key, or takes it where
an environment has no entry under a constant key. -/
def Consumed (s : Store) (n : NodeId) : Prop := ∃ u ∈ s.live.nodes, s.arena.Consumes u n

/-- What a search through the live nodes in any order records. -/
theorem Settled.mem_recorded_iff (h : s.Settled lax) (hac : s.arena.Acyclic)
    (hns : ∀ n, n ∈ ns ↔ n ∈ s.live.nodes) (hr : Origins.empty.findAll s.arena ns = .ok r) :
    ⟨g, p⟩ ∈ r.recorded n ↔
      (s.Consumed n ∧ ∃ c, s.arena.Picks n p c ∧ s.arena.CallNames c g) ∨
      (n ∈ s.live.nodes ∧ s.arena.indexing? n = none ∧ p = [] ∧ s.arena.MapNames n g) := by
  have hlive : ∀ n, n ∈ s.live.nodes → n ∈ s.arena.nodeIds ∧ ∀ m ∈ s.arena.inputs n, m ∈ s.live.nodes :=
    fun n hn => ⟨h.agrees.mem_nodeIds hn, fun m hm => h.agrees.mem_of_input hn hm⟩
  obtain ⟨hsound, -, hall⟩ := Origins.findAll_spec hac h.wellFormed Origins.sound_empty hr
  have horigin : ∀ n, n ∈ s.live.nodes → ∃ o, s.arena.HasOrigin n o := by
    intro n hn
    obtain ⟨o, ho⟩ := hall n ((hns n).mpr hn) (hlive n hn).1
    exact ⟨o, hsound.known ho⟩
  have hcharges : ∀ u ∈ s.live.nodes, (s.arena.Charges u n ⟨g, p⟩ ↔
      (s.arena.Consumes u n ∧ ∃ c, s.arena.Picks n p c ∧ s.arena.CallNames c g) ∨
      (u = n ∧ s.arena.indexing? n = none ∧ p = [] ∧ s.arena.MapNames n g)) := fun u hu =>
    Arena.charges_iff (fun hin => horigin n ((hlive u hu).2 n hin)) (horigin u hu)
  rw [Origins.mem_recorded_iff hac h.wellFormed hlive hns hr]
  constructor
  · rintro ⟨u, hu, hcharge⟩
    rcases (hcharges u hu).mp hcharge with ⟨hconsumes, hpick⟩ | ⟨rfl, hmap⟩
    · exact Or.inl ⟨⟨u, hu, hconsumes⟩, hpick⟩
    · exact Or.inr ⟨hu, hmap⟩
  · rintro (⟨⟨u, hu, hconsumes⟩, hpick⟩ | ⟨hn, hmap⟩)
    · exact ⟨u, hu, (hcharges u hu).mpr (Or.inl ⟨hconsumes, hpick⟩)⟩
    · exact ⟨n, hn, (hcharges n hn).mpr (Or.inr ⟨rfl, hmap⟩)⟩

theorem exists_findAll_of_demands (hds : s.demands = .ok ds) :
    ∃ r, Origins.empty.findAll s.arena s.demandOrder = .ok r ∧ r.demands = ds := by
  unfold demands at hds
  cases hr : Origins.empty.findAll s.arena s.demandOrder with
  | error f => simp [hr, Except.map] at hds
  | ok r => exact ⟨r, rfl, by simpa [hr, Except.map] using hds⟩

theorem Settled.mem_demands_iff (h : s.Settled lax) (hac : s.arena.Acyclic)
    (hds : s.demands = .ok ds) : ⟨g, p⟩ ∈ (ds.get? n).getD [] ↔
      (s.Consumed n ∧ ∃ c, s.arena.Picks n p c ∧ s.arena.CallNames c g) ∨
      (n ∈ s.live.nodes ∧ s.arena.indexing? n = none ∧ p = [] ∧ s.arena.MapNames n g) := by
  obtain ⟨r, hr, rfl⟩ := exists_findAll_of_demands hds
  exact h.mem_recorded_iff hac (fun n => mem_demandOrder_iff h) hr

/-- Where the search succeeds it does so in any order. -/
theorem Settled.exists_findAll (h : s.Settled lax) (hac : s.arena.Acyclic) (hds : s.demands = .ok ds)
    (hns : ∀ n ∈ ns, n ∈ s.live.nodes) : ∃ r, Origins.empty.findAll s.arena ns = .ok r := by
  refine Origins.exists_findAll hac (fun n hn m hu => ?_) .empty
  have hm := h.agrees.mem_of_under (hns n hn) hu
  obtain ⟨o, ho⟩ := exists_hasOrigin hac h.wellFormed hds hm (h.agrees.mem_nodeIds hm)
  exact ho.clear

/-- The demand `(g, p)` is recorded with `n` exactly if a live apply consumes `n` and `n` is taken at
`p` out of an apply that names `g`, or `n` is itself a live apply that maps `g` and `p` is empty. So it
is in whatever order the live nodes are searched, and whatever is answered for a node that is being
searched; and all graphs that an apply names are demanded at one path. -/
theorem demands_exact (hs : s.Reachable) (hac : s.arena.Acyclic) (hroot : root ∈ s.arena.graphIds)
    (hds : (s.keepRoots [root]).demands = .ok ds) :
    (∀ n g p, ⟨g, p⟩ ∈ (ds.get? n).getD [] ↔
      ((s.keepRoots [root]).Consumed n ∧ ∃ c, s.arena.Picks n p c ∧ s.arena.CallNames c g) ∨
      (n ∈ (s.keepRoots [root]).live.nodes ∧ s.arena.indexing? n = none ∧ p = [] ∧
        s.arena.MapNames n g)) ∧
    (∀ ns, (∀ n, n ∈ ns ↔ n ∈ (s.keepRoots [root]).live.nodes) →
      ∃ r, Origins.empty.findAll s.arena ns = .ok r ∧
        ∀ n d, d ∈ r.recorded n ↔ d ∈ (ds.get? n).getD []) ∧
    (∀ again, (Origins.empty.findAllElse s.arena again (s.keepRoots [root]).demandOrder).map
      Origins.demands = .ok ds) ∧
    ∀ n p c, (s.keepRoots [root]).Consumed n → s.arena.Picks n p c →
      ∀ g, s.arena.CallNames c g → ⟨g, p⟩ ∈ (ds.get? n).getD [] := by
  have hsettled : (s.keepRoots [root]).Settled True := (hs.keepRoot hroot).settled
  have hall : ∀ n g p, ⟨g, p⟩ ∈ (ds.get? n).getD [] ↔ _ := fun n g p =>
    hsettled.mem_demands_iff hac hds
  refine ⟨hall, fun ns hns => ?_, fun again => ?_, fun n p c hn hpick g hname => ?_⟩
  · obtain ⟨r, hr⟩ := hsettled.exists_findAll hac hds fun n hn => (hns n).mp hn
    exact ⟨r, hr, fun n d => (hsettled.mem_recorded_iff hac hns hr).trans (hall n d.graph d.path).symm⟩
  · rw [Origins.findAllElse_eq hac]
    exact hds
  · exact (hall n g p).mpr (Or.inl ⟨hn, c, hpick, hname⟩)

/-- A call of one of two graphs that return pairs, and the sign change of the second part. -/
def eitherPair : Store := Store.empty.performAll
  [.constant (.prim .makeTuple) (some (.function [.prim .makeTuple])),
    .newGraph "f", .addParameter ⟨0⟩ (some .int64), .apply ⟨0⟩ [⟨0⟩, ⟨1⟩, ⟨1⟩] none,
    .setOutput ⟨0⟩ ⟨2⟩,
    .newGraph "h", .addParameter ⟨1⟩ (some .int64), .apply ⟨1⟩ [⟨0⟩, ⟨5⟩, ⟨5⟩] none,
    .setOutput ⟨1⟩ ⟨6⟩,
    .newGraph "main", .addParameter ⟨2⟩ (some .int64),
    .addParameter ⟨2⟩ (some (.function [.graph ⟨0⟩, .graph ⟨1⟩])),
    .apply ⟨2⟩ [⟨10⟩, ⟨9⟩] none, .constant (.int 1) none, .constant (.prim .tupleGet) none,
    .apply ⟨2⟩ [⟨13⟩, ⟨11⟩, ⟨12⟩] (some .int64),
    .constant (.prim .neg) (some (.function [.prim .neg])), .apply ⟨2⟩ [⟨15⟩, ⟨14⟩] (some .int64),
    .setOutput ⟨2⟩ ⟨16⟩, .constant (.graph ⟨0⟩) none, .constant (.graph ⟨1⟩) none]

/-- The part is demanded of both graphs at one position, and nothing of the pair itself. -/
theorem demands_exact_eitherPair : ∃ ds, (eitherPair.keepRoots [⟨2⟩]).demands = .ok ds ∧
    ⟨⟨0⟩, [.index 1]⟩ ∈ (ds.get? ⟨14⟩).getD [] ∧ ⟨⟨1⟩, [.index 1]⟩ ∈ (ds.get? ⟨14⟩).getD [] ∧
    (∀ d, d ∉ (ds.get? ⟨11⟩).getD []) := by
  have hcalled : eitherPair.Called := Called.start.performAll (of_decide_eq_true (by cbv))
  have hac : eitherPair.arena.Acyclic := Arena.acyclic_of_lt (by decide)
  have hroot : (⟨2⟩ : GraphId) ∈ eitherPair.arena.graphIds := of_decide_eq_true (by cbv)
  have hok : ((eitherPair.keepRoots [⟨2⟩]).demands).toBool = true := by cbv
  obtain ⟨ds, hds⟩ : ∃ ds, (eitherPair.keepRoots [⟨2⟩]).demands = .ok ds := by
    cases hds : (eitherPair.keepRoots [⟨2⟩]).demands with
    | error f => simp [hds, Except.toBool] at hok
    | ok ds => exact ⟨ds, rfl⟩
  obtain ⟨hall, -, -, hnamed⟩ := demands_exact hcalled.reachable hac hroot hds
  have hslot : eitherPair.arena.slot? ⟨⟨11⟩, 0⟩ = some ⟨10⟩ := by decide
  have hts : (eitherPair.arena.type? ⟨10⟩).bind Ty.targets? = some [.graph ⟨0⟩, .graph ⟨1⟩] := rfl
  have hnames : ∀ g, .graph g ∈ [Target.graph ⟨0⟩, Target.graph ⟨1⟩] →
      eitherPair.arena.CallNames ⟨11⟩ g := fun g hg => ⟨_, _, .graph g, [], hslot, hts, hg, rfl⟩
  have hix : eitherPair.arena.indexing? ⟨14⟩ = some ⟨⟨11⟩, .index 1, none⟩ := rfl
  have hconsumed : (eitherPair.keepRoots [⟨2⟩]).Consumed ⟨14⟩ :=
    ⟨⟨16⟩, of_decide_eq_true (by cbv), Or.inl ⟨rfl, by decide⟩⟩
  have hpick : eitherPair.arena.Picks ⟨14⟩ [.index 1] ⟨11⟩ := .key hix (.here rfl (by decide))
  refine ⟨ds, hds, hnamed _ _ _ hconsumed hpick _ (hnames ⟨0⟩ (by simp)),
    hnamed _ _ _ hconsumed hpick _ (hnames ⟨1⟩ (by simp)), fun d hd => ?_⟩
  rcases (hall _ d.graph d.path).mp hd with ⟨⟨u, -, hu⟩, -⟩ | ⟨-, -, -, hmap⟩
  · -- the only apply that has the pair as an input takes a part of it
    have husers : ∀ u ∈ eitherPair.arena.nodeIds, ⟨11⟩ ∈ eitherPair.arena.inputs u → u = ⟨14⟩ := by
      decide
    have hin := hu.mem_inputs
    obtain rfl := husers u (Arena.mem_nodeIds_of_mem_inputs hin) hin
    rcases hu with ⟨hnone, -⟩ | ⟨ix, hix', hdef⟩
    · cases hix.symm.trans hnone
    · obtain rfl := Option.some.inj (hix.symm.trans hix')
      cases hdef
  · obtain ⟨f, args, ts, t, bound, us, hin, hts', ht, hc, -⟩ := hmap
    obtain rfl : ⟨10⟩ = f := by simpa [Arena.slot?, hin] using hslot.symm
    obtain rfl := Option.some.inj (hts.symm.trans hts')
    simp only [List.mem_cons, List.not_mem_nil, or_false] at ht
    rcases ht with rfl | rfl
    · simp [Target.callee] at hc
    · simp [Target.callee] at hc

end Store

end Midend
