import Mathlib
import Midend.Proofs.Demand.Least

/-!
# What a cut leaves as it was

Dead parts are cut one after the other, and each cut points one slot at a placeholder that it makes.
A slot that holds a placeholder is passed over, so no slot is cut twice. Where no return node is an
input, a slot is recorded for one part only.
-/

namespace Midend

namespace Arena

variable {a b c : Arena} {e : Edge} {n m : NodeId} {xs ys : List Edge}

/-- Whether `e` held a node that is no placeholder and now holds the placeholder `new` for it. -/
def CutAt (a b : Arena) (e : Edge) (new : NodeId) : Prop :=
  ∃ old, a.slot? e = some old ∧ a.value? old ≠ some .dead ∧ b.slot? e = some new ∧
    b.value? new = some .dead ∧ b.type? new = Store.placeholderType (a.type? old) ∧
    b.owner? new = none ∧ b.label? new = none

/-- Whether `b` is `a` with the slots of a list pointed at new placeholders, each at its own. -/
structure Replaced (a b : Arena) (cuts : List Edge) : Prop where
  size : b.nodes.size = a.nodes.size + cuts.length
  graphs : b.graphs = a.graphs
  value : ∀ {n}, n ∈ a.nodeIds → b.value? n = a.value? n
  type : ∀ {n}, n ∈ a.nodeIds → b.type? n = a.type? n
  label : ∀ {n}, n ∈ a.nodeIds → b.label? n = a.label? n
  owner : ∀ {n}, n ∈ a.nodeIds → b.owner? n = a.owner? n
  slots : ∀ {e}, e.owner ∈ a.nodeIds → e ∉ cuts → b.slot? e = a.slot? e
  cut : ∀ {i e}, cuts[i]? = some e → a.CutAt b e ⟨a.nodes.size + i⟩

theorem Replaced.refl (a : Arena) : a.Replaced a [] :=
  ⟨rfl, rfl, fun _ => rfl, fun _ => rfl, fun _ => rfl, fun _ => rfl, fun _ _ => rfl,
    fun h => by simp at h⟩

theorem Replaced.nodeIds (h : a.Replaced b xs) (hn : n ∈ a.nodeIds) : n ∈ b.nodeIds := by
  have hlt := a.mem_nodeIds.mp hn
  have hsize := h.size
  exact b.mem_nodeIds.mpr (by omega)

/-- The nodes that are new are placeholders. -/
theorem Replaced.value?_new (h : a.Replaced b xs) (hn : n ∈ b.nodeIds) (hnew : n ∉ a.nodeIds) :
    b.value? n = some .dead := by
  have hlt := b.mem_nodeIds.mp hn
  have hge : ¬ n.index < a.nodes.size := fun hlt => hnew (a.mem_nodeIds.mpr hlt)
  have hsize := h.size
  have hi : n.index - a.nodes.size < xs.length := by omega
  obtain ⟨old, -, -, -, hdead, -⟩ := h.cut (List.getElem?_eq_getElem hi)
  have hindex : a.nodes.size + (n.index - a.nodes.size) = n.index := by omega
  rw [hindex] at hdead
  exact hdead

/-- No slot is cut twice: its placeholder would be of two ages. -/
theorem Replaced.nodup (h : a.Replaced b xs) : xs.Nodup := by
  rw [List.nodup_iff_getElem?_ne_getElem?]
  intro i j hij hj heq
  have hxj : xs[j]? = some xs[j] := List.getElem?_eq_getElem hj
  obtain ⟨-, -, -, hslot, -⟩ := h.cut (heq.trans hxj)
  obtain ⟨-, -, -, hslot', -⟩ := h.cut hxj
  have hsame := congrArg NodeId.index (Option.some.inj (hslot.symm.trans hslot'))
  simp only at hsame
  omega

/-- A slot that is cut later held no placeholder, so it was not cut before. -/
theorem Replaced.not_mem_of_cutAt {new : NodeId} (h : a.Replaced b xs) (h' : b.CutAt c e new) :
    e ∉ xs := by
  intro hx
  obtain ⟨i, hi⟩ := List.mem_iff_getElem?.mp hx
  obtain ⟨-, -, -, hslot, hdead, -⟩ := h.cut hi
  obtain ⟨old, hslot', hne, -⟩ := h'
  exact hne (Option.some.inj (hslot.symm.trans hslot') ▸ hdead)

/-- What is cut later of the nodes that there were before. -/
theorem Replaced.cutAt_later {new : NodeId} (h : a.Replaced b xs) (hwf : a.WellFormed)
    (h' : b.CutAt c e new) : a.CutAt c e new := by
  have hnot := h.not_mem_of_cutAt h'
  obtain ⟨old, hold, hne, hslot, hdead, htype, howner, hlabel⟩ := h'
  have hmem : e.owner ∈ a.nodeIds := by
    by_contra hnew
    have hv := h.value?_new (mem_nodeIds_of_slot? hold) hnew
    have hin := mem_inputs_of_slot? hold
    rw [inputs_eq_nil_of_value? hv] at hin
    exact List.not_mem_nil hin
  have hold' : a.slot? e = some old := (h.slots hmem hnot).symm.trans hold
  have holdmem : old ∈ a.nodeIds := hwf.slot_mem hold'
  exact ⟨old, hold', h.value holdmem ▸ hne, hslot, hdead, h.type holdmem ▸ htype, howner, hlabel⟩

/-- What was cut stays as it is, unless the slot is cut again. -/
theorem Replaced.cutAt_before {new : NodeId} (h : b.Replaced c ys) (h' : a.CutAt b e new)
    (hnot : e ∉ ys) : a.CutAt c e new := by
  obtain ⟨old, hold, hne, hslot, hdead, htype, howner, hlabel⟩ := h'
  have hmem : new ∈ b.nodeIds := mem_nodeIds_of_value? hdead
  have hslot' : c.slot? e = some new := (h.slots (mem_nodeIds_of_slot? hslot) hnot).trans hslot
  exact ⟨old, hold, hne, hslot', (h.value hmem).trans hdead, (h.type hmem).trans htype,
    (h.owner hmem).trans howner, (h.label hmem).trans hlabel⟩

theorem Replaced.trans (h : a.Replaced b xs) (h' : b.Replaced c ys) (hwf : a.WellFormed) :
    a.Replaced c (xs ++ ys) := by
  have hsize := h.size
  have hsize' := h'.size
  refine ⟨by simp only [List.length_append]; omega, h'.graphs.trans h.graphs,
    fun hn => (h'.value (h.nodeIds hn)).trans (h.value hn),
    fun hn => (h'.type (h.nodeIds hn)).trans (h.type hn),
    fun hn => (h'.label (h.nodeIds hn)).trans (h.label hn),
    fun hn => (h'.owner (h.nodeIds hn)).trans (h.owner hn), fun he hnot => ?_,
    fun {i e} hi => ?_⟩
  · rw [List.mem_append, not_or] at hnot
    exact (h'.slots (h.nodeIds he) hnot.2).trans (h.slots he hnot.1)
  · by_cases hlt : i < xs.length
    · rw [List.getElem?_append_left hlt] at hi
      refine h'.cutAt_before (h.cut hi) fun hy => ?_
      obtain ⟨j, hj⟩ := List.mem_iff_getElem?.mp hy
      exact h.not_mem_of_cutAt (h'.cut hj) (List.mem_of_getElem? hi)
    · rw [List.getElem?_append_right (Nat.le_of_not_lt hlt)] at hi
      have hnew : b.nodes.size + (i - xs.length) = a.nodes.size + i := by omega
      exact hnew ▸ h.cutAt_later hwf (h'.cut hi)

/-- One slot goes over to a new placeholder. -/
theorem replaced_setSlot (hslot : a.slot? e = some m) (hne : a.value? m ≠ some .dead) :
    a.Replaced ((a.addNode (.constant .dead) none (Store.placeholderType (a.type? m))).2.setSlot e
      ⟨a.nodes.size⟩) [e] := by
  have hnode : ∀ {n}, n ∈ a.nodeIds → (a.addNode (.constant .dead) none
      (Store.placeholderType (a.type? m))).2.node? n = a.node? n := fun hn =>
    a.node?_addNode_of_mem _ _ _ hn
  have hslot' : (a.addNode (.constant .dead) none (Store.placeholderType (a.type? m))).2.slot? e =
      some m := (slot?_congr (inputs_congr (hnode (mem_nodeIds_of_slot? hslot)))).trans hslot
  refine ⟨?_, rfl, fun hn => ?_, fun hn => ?_, fun hn => ?_, fun hn => ?_, fun hn hnot => ?_,
    fun {i e'} hi => ?_⟩
  · simp [setSlot, modifyNode, addNode]
  · rw [value?_setSlot, value?_congr (hnode hn)]
  · rw [type?_setSlot, type?_congr (hnode hn)]
  · rw [label?_setSlot]
    simp only [label?, hnode hn]
  · rw [owner?_setSlot, owner?_congr (hnode hn)]
  · rw [List.mem_singleton] at hnot
    exact (slot?_setSlot_of_ne _ hnot).trans (slot?_congr (inputs_congr (hnode hn)))
  · obtain ⟨hlt, rfl⟩ := List.getElem?_eq_some_iff.mp hi
    have hi0 : i = 0 := by simpa using hlt
    subst hi0
    refine ⟨m, hslot, hne, slot?_setSlot_self _ hslot', ?_, ?_, ?_, ?_⟩
    · rw [value?_setSlot]
      simp [value?, kind?, node?_addNode, NodeKind.value?]
    · rw [type?_setSlot]
      simp [type?, node?_addNode]
    · rw [owner?_setSlot]
      simp [owner?, node?_addNode]
    · rw [label?_setSlot]
      simp [label?, node?_addNode]

end Arena

/-! ### One part for each slot -/

namespace Live

open Arena (IsTuple IsLayer Within)

variable {a : Arena} {l : Live} {lax : Prop} {n m env value : NodeId} {parts : List NodeId} {k : Step}
  {i : Nat} {e : Edge} {x y : Path × Edge} {p q : Path}

theorem Listed.under (h : l.Listed a n x) : a.Under n x.2.owner := by
  induction h with
  | element _ _ _ => exact Arena.Under.refl a _
  | inElement _ ht hm _ ih =>
    exact .of_inputs (Arena.mem_inputs_of_slot? (ht.slot?.trans hm)) ih
  | entry _ _ => exact Arena.Under.refl a _
  | inEntry _ hl _ ih => exact .of_inputs (Arena.mem_inputs_of_slot? hl.slot?_value) ih
  | inBase _ hl _ ih => exact .of_inputs (Arena.mem_inputs_of_slot? hl.slot?_env) ih

/-- What is listed of an input is no slot of the node itself. -/
theorem Listed.ne_slot (h : l.Listed a m x) (hac : a.Acyclic) (hm : a.slot? ⟨n, i⟩ = some m)
    (j : Nat) : x.2 ≠ ⟨n, j⟩ := by
  intro heq
  have hu := h.under
  rw [heq] at hu
  exact hac.not_under (Arena.mem_inputs_of_slot? hm) hu

/-- A listed slot that another one leads into stands at a longer path: every node on the way has a
single use, so there is one way. -/
theorem Listed.prefix_of_within (h : Agrees a l (.upTo lax) []) (hac : a.Acyclic) (hn : n ∈ l.nodes)
    (hx : l.Listed a n x) (hy : l.Listed a n y) (hxy : a.Within (fun _ => True) x.2 y.2) :
    x.1 <+: y.1 := by
  -- below a slot of a node there is no slot of the node
  have hbelow : ∀ {n m i x j}, a.slot? ⟨n, i⟩ = some m → l.Listed a m x →
      ¬ a.Within (fun _ => True) x.2 ⟨n, j⟩ := fun {_ _ _ _ _} hm hx hw =>
    hac.not_under (Arena.mem_inputs_of_slot? hm) (hx.under.trans hw.under)
  have hlower : ∀ {n m i x}, a.slot? ⟨n, i⟩ = some m → l.Listed a m x →
      a.Within l.Single ⟨n, i⟩ x.2 := fun hm hx => hx.within hm
  have hloose : ∀ {e f}, a.Within l.Single e f → a.Within (fun _ => True) e f :=
    fun hw => hw.mono fun _ _ => trivial
  induction hx generalizing y with
  | @element n m parts i _ ht hm =>
    obtain ⟨j, m', hm', rfl | ⟨z, hz, rfl⟩⟩ := hy.of_isTuple ht
    · obtain rfl : i = j := Nat.succ.inj (hac.index_eq_of_within hxy)
      exact List.prefix_refl _
    · have hj := hlower (ht.slot?.trans hm') hz
      obtain rfl : i = j := Nat.succ.inj (h.index_eq_of_within hac hn hxy hj)
      exact List.prefix_append _ _
  | @inElement n m parts i x _ ht hm hx ih =>
    have hslot : a.slot? ⟨n, i + 1⟩ = some m := ht.slot?.trans hm
    obtain ⟨j, m', hm', rfl | ⟨z, hz, rfl⟩⟩ := hy.of_isTuple ht
    · exact (hbelow hslot hx hxy).elim
    · have hi := (hloose (hlower hslot hx)).trans hxy
      have hj := hlower (ht.slot?.trans hm') hz
      obtain rfl : i = j := Nat.succ.inj (h.index_eq_of_within hac hn hi hj)
      obtain rfl : m = m' := Option.some.inj (hm.symm.trans hm')
      have hmlive : m ∈ l.nodes := h.mem_of_input hn (Arena.mem_inputs_of_slot? hslot)
      exact List.cons_prefix_cons.mpr ⟨rfl, ih hmlive hz hxy⟩
  | @entry n env value k _ hl =>
    rcases hy.of_isLayer hl with rfl | ⟨z, hz, rfl⟩ | hy
    · exact List.prefix_refl _
    · exact List.prefix_append _ _
    · have hone := hlower hl.slot?_env hy
      exact absurd (h.index_eq_of_within hac hn hxy hone) (by decide)
  | @inEntry n env value k x _ hl hx ih =>
    have hvlive : value ∈ l.nodes := h.mem_of_input hn (Arena.mem_inputs_of_slot? hl.slot?_value)
    rcases hy.of_isLayer hl with rfl | ⟨z, hz, rfl⟩ | hy
    · exact (hbelow hl.slot?_value hx hxy).elim
    · exact List.cons_prefix_cons.mpr ⟨rfl, ih hvlive hz hxy⟩
    · have hthree := (hloose (hlower hl.slot?_value hx)).trans hxy
      have hone := hlower hl.slot?_env hy
      exact absurd (h.index_eq_of_within hac hn hthree hone) (by decide)
  | @inBase n env value k x _ hl hx ih =>
    have helive : env ∈ l.nodes := h.mem_of_input hn (Arena.mem_inputs_of_slot? hl.slot?_env)
    rcases hy.of_isLayer hl with rfl | ⟨z, hz, rfl⟩ | hy
    · exact (hbelow hl.slot?_env hx hxy).elim
    · have hone := (hloose (hlower hl.slot?_env hx)).trans hxy
      have hthree := hlower hl.slot?_value hz
      exact absurd (h.index_eq_of_within hac hn hone hthree) (by decide)
    · exact ih helive hy hxy

/-- A slot of the parts of a node is listed at one path only. -/
theorem Listed.path_eq (h : Agrees a l (.upTo lax) []) (hac : a.Acyclic) (hn : n ∈ l.nodes)
    (hx : l.Listed a n x) (hy : l.Listed a n y) (he : x.2 = y.2) : x.1 = y.1 := by
  have hxy := hx.prefix_of_within h hac hn hy (he ▸ Relation.ReflTransGen.refl)
  have hyx := hy.prefix_of_within h hac hn hx (he ▸ Relation.ReflTransGen.refl)
  exact hxy.eq_of_length_le hyx.length_le

end Live

namespace Store

variable {s s' : Store} {g root : GraphId} {e : Edge} {es : List Edge} {k : Nat} {p q : Path}
  {v w : Part} {pd pd' : PartDeps} {ds : OrderedMap NodeId (List Demand)}

/-! ### Cuts in a row -/

theorem replaced_setEdge {m : NodeId} (hm : s.arena.slot? e = some m)
    (hne : s.arena.value? m ≠ some .dead)
    (h : (s.constantWith .dead (placeholderType (s.arena.type? m))).2.setEdge e
      (s.constantWith .dead (placeholderType (s.arena.type? m))).1 = .ok s') :
    s.arena.Replaced s'.arena [e] :=
  arena_setEdge h ▸ Arena.replaced_setSlot hm hne

theorem cutEdges_replaced (hs : s.Reachable) (h : s.cutEdges es = (s', .ok k)) :
    ∃ cuts, s.arena.Replaced s'.arena cuts ∧ cuts.length = k ∧ ∀ e ∈ cuts, e ∈ es := by
  induction es generalizing s k with
  | nil =>
    obtain ⟨rfl, hk⟩ := Prod.mk.inj h
    exact ⟨[], .refl s.arena, Except.ok.inj hk, fun e he => absurd he List.not_mem_nil⟩
  | cons e es ih =>
    rcases cutEdges_cons_eq_ok h with ⟨hrest, -⟩ | ⟨m, s₁, j, hm, hne, hok, hrest, rfl⟩
    · obtain ⟨cuts, hrep, hlen, hall⟩ := ih hs hrest
      exact ⟨cuts, hrep, hlen, fun e' he' => List.mem_cons_of_mem e (hall e' he')⟩
    · have hone : s.arena.Replaced s₁.arena [e] := replaced_setEdge hm hne hok
      have hs₁ : s₁.Reachable := (cutTo_setEdge (E := fun _ => True) hs trivial hok).1
      obtain ⟨cuts, hrep, hlen, hall⟩ := ih hs₁ hrest
      refine ⟨[e] ++ cuts, hone.trans hrep hs.settled.wellFormed, by simp [hlen], fun e' he' => ?_⟩
      rcases List.mem_cons.mp he' with rfl | he'
      · exact List.mem_cons_self
      · exact List.mem_cons_of_mem e (hall e' he')

theorem cutGraphs_replaced {gs : List (GraphId × List Edge)} (hs : s.Reachable)
    (h : s.cutGraphs gs = (s', .ok k)) :
    ∃ cuts, s.arena.Replaced s'.arena cuts ∧ cuts.length = k ∧ ∀ e ∈ cuts, ∃ x ∈ gs, e ∈ x.2 := by
  induction gs generalizing s k with
  | nil =>
    obtain ⟨rfl, hk⟩ := Prod.mk.inj h
    exact ⟨[], .refl s.arena, Except.ok.inj hk, fun e he => absurd he List.not_mem_nil⟩
  | cons x gs ih =>
    have hmono : ∀ e, (∃ y ∈ gs, e ∈ y.2) → ∃ y ∈ x :: gs, e ∈ y.2 :=
      fun e ⟨y, hy, he⟩ => ⟨y, List.mem_cons_of_mem x hy, he⟩
    rcases cutGraphs_cons_eq_ok h with ⟨-, hrest⟩ | ⟨s₁, i, j, hcut, hrest, rfl⟩
    · obtain ⟨cuts, hrep, hlen, hall⟩ := ih hs hrest
      exact ⟨cuts, hrep, hlen, fun e he => hmono e (hall e he)⟩
    · obtain ⟨xs, hxs, hxlen, hxall⟩ := cutEdges_replaced hs hcut
      obtain ⟨ys, hys, hylen, hyall⟩ := ih (cutEdges_spec hs hcut).1 hrest
      refine ⟨xs ++ ys, hxs.trans hys hs.settled.wellFormed, by simp [hxlen, hylen], fun e he => ?_⟩
      rcases List.mem_append.mp he with he | he
      · exact ⟨x, List.mem_cons_self, hxall e he⟩
      · exact hmono e (hyall e he)

/-! ### All cuts -/

/-- Where no return node is taken apart from elsewhere, a slot is recorded for one part only. -/
theorem Analysed.part_eq_of_at (h : s.Analysed ds) (hret : s.ReturnsLast)
    (hat : (s.recordOf ds).At v pd) (hat' : (s.recordOf ds).At w pd') (he : pd.edge = pd'.edge) :
    v = w := by
  have hgraph : v.1 = w.1 := h.graph_eq_of_at hret hat hat' he
  obtain ⟨r, out, m, hlive, hr, hout, -, -, hlisted⟩ := h.of_at hat
  obtain ⟨r', out', m', -, hr', hout', -, -, hlisted'⟩ := h.of_at hat'
  obtain rfl : r = r' := Option.some.inj (hr.symm.trans (hgraph ▸ hr'))
  obtain rfl : out = out' := Option.some.inj (hout.symm.trans hout')
  have hagrees := h.settled.agrees
  have hmem : out ∈ s.live.nodes :=
    hagrees.mem_of_input (hagrees.ret_mem hlive hr) (Arena.mem_inputs_of_slot? hout)
  have hpath : v.2 = w.2 := by
    rcases hlisted with ⟨hnil, hedge⟩ | hlisted
    · rcases hlisted' with ⟨hnil', -⟩ | hlisted'
      · exact hnil.trans hnil'.symm
      · exact absurd (he.symm.trans hedge) (hlisted'.ne_slot h.acyclic hout 1)
    · rcases hlisted' with ⟨-, hedge'⟩ | hlisted'
      · exact absurd (he.trans hedge') (hlisted.ne_slot h.acyclic hout 1)
      · exact hlisted.path_eq hagrees h.acyclic hmem hlisted' he
  exact Prod.ext hgraph hpath

theorem returnsLast_of_not_mem_inputs
    (hfree : ∀ g r n, s.arena.ret? g = some r → r ∉ s.arena.inputs n) : s.ReturnsLast :=
  fun g _ r hr e hinside => hfree g r e.owner hr (Arena.mem_inputs_of_slot? hinside.1)

/-- Where no return node is an input, a recorded slot that another one leads into is recorded for the
same graph, at a longer path. -/
theorem Analysed.prefix_of_within (h : s.Analysed ds)
    (hfree : ∀ g r n, s.arena.ret? g = some r → r ∉ s.arena.inputs n)
    (hat : (s.recordOf ds).At v pd) (hat' : (s.recordOf ds).At w pd')
    (hin : s.arena.Within (fun _ => True) pd.edge pd'.edge) : v.1 = w.1 ∧ v.2 <+: w.2 := by
  have hlast := returnsLast_of_not_mem_inputs hfree
  have hagrees := h.settled.agrees
  obtain ⟨r, out, m, hg, hr, hout, -, -, hlisted⟩ := h.of_at hat
  obtain ⟨r', out', m', hg', hr', hout', -, -, hlisted'⟩ := h.of_at hat'
  obtain ⟨r₁, -, hr₁, hw⟩ := h.within_of_at hat
  obtain ⟨r₂, -, hr₂, hw'⟩ := h.within_of_at hat'
  obtain rfl : r = r₁ := Option.some.inj (hr.symm.trans hr₁)
  obtain rfl : r' = r₂ := Option.some.inj (hr'.symm.trans hr₂)
  -- no slot leads into the output slot but itself
  have hout_only : s.arena.Within (fun _ => True) pd.edge ⟨r', 1⟩ → pd.edge = ⟨r', 1⟩ := by
    intro hinto
    rcases Relation.ReflTransGen.cases_tail hinto with heq | ⟨e, -, hinside⟩
    · exact heq.symm
    · exact absurd (Arena.mem_inputs_of_slot? hinside.1) (hfree w.1 r' e.owner hr')
  have hgraph : v.1 = w.1 := by
    rcases hagrees.within_or (e := ⟨r', 1⟩) (f := pd.edge) (hagrees.ret_mem hg' hr')
      (h.owner_of_at hat).1 (fun _ hn => hn.1) hw' hin with hinto | hinto
    · rw [hout_only hinto] at hw
      exact h.graph_eq_of_within hlast hg hr hg' hr' hw Relation.ReflTransGen.refl
    · exact h.graph_eq_of_within hlast hg hr hg' hr' hw hinto
  obtain rfl : r = r' := Option.some.inj (hr.symm.trans (hgraph ▸ hr'))
  obtain rfl : out = out' := Option.some.inj (hout.symm.trans hout')
  have hmem : out ∈ s.live.nodes :=
    hagrees.mem_of_input (hagrees.ret_mem hg hr) (Arena.mem_inputs_of_slot? hout)
  refine ⟨hgraph, ?_⟩
  rcases hlisted with ⟨hnil, -⟩ | hlisted
  · rw [hnil]
    exact List.nil_prefix
  · rcases hlisted' with ⟨-, hedge'⟩ | hlisted'
    · exact absurd (hout_only (hedge' ▸ hin)) (hlisted.ne_slot h.acyclic hout 1)
    · exact hlisted.prefix_of_within hagrees h.acyclic hmem hlisted' hin

/-- Cutting dead parts of a store without cycles, in which no return node is an input, changes as
many slots as are counted. Each held no placeholder, is recorded for a part that is not live and
holds a placeholder of its own; nothing else is made or changed of nodes and graphs. The slots of
live parts are as before, and those of dead parts hold placeholders if graph and owner stay live. -/
theorem cutDead_replaces_dead (hs : s.Reachable) (hac : s.arena.Acyclic)
    (hroot : root ∈ s.arena.graphIds)
    (hret : ∀ g r n, s.arena.ret? g = some r → r ∉ s.arena.inputs n)
    (h : s.cutDead root = (s', .ok k)) :
    ∃ deps cuts, (s.keepRoots [root]).dependencies = .ok deps ∧ s.arena.Replaced s'.arena cuts ∧
      cuts.length = k ∧ cuts.Nodup ∧
      (∀ e ∈ cuts, ∃ g p pd, deps.At (g, p) pd ∧ pd.edge = e ∧
        partIsLive ((s.keepRoots [root]).neededParts deps root) g p = false) ∧
      (∀ g p pd, deps.At (g, p) pd →
        partIsLive ((s.keepRoots [root]).neededParts deps root) g p = true →
        s'.arena.slot? pd.edge = s.arena.slot? pd.edge) ∧
      ∀ g p pd, deps.At (g, p) pd →
        partIsLive ((s.keepRoots [root]).neededParts deps root) g p = false →
        g ∈ s'.live.graphs → pd.edge.owner ∈ s'.live.nodes → s'.arena.HoldsDead pd.edge := by
  obtain ⟨ds, han, -, -, hholds⟩ := cutDead_spec hs hac hroot h
  have hr : (s.keepRoots [root]).Reachable := hs.keepRoot hroot
  have hfalse : ∀ g p, partIsLive ((s.keepRoots [root]).needed ds root) g p = false ↔
      ∀ q, (g, q) ∈ (s.keepRoots [root]).needed ds root → ¬ (p <+: q ∨ q <+: p) := by
    intro g p
    rw [← Bool.not_eq_true, partIsLive_iff]
    push Not
    rfl
  have hlast : (s.keepRoots [root]).ReturnsLast := fun g _ r hr e hinside =>
    hret g r e.owner hr (Arena.mem_inputs_of_slot? hinside.1)
  unfold cutDead at h
  simp only at h
  split at h
  · cases (Prod.mk.inj h).2
  · next dead hdead =>
    obtain ⟨ds', hds', hiff⟩ := deadEdges_spec hdead
    obtain rfl := Except.ok.inj (han.demands.symm.trans hds')
    obtain ⟨cuts, hrep, hlen, hall⟩ := cutGraphs_replaced hr h
    have hcuts : ∀ e ∈ cuts, ∃ g p pd, ((s.keepRoots [root]).recordOf ds).At (g, p) pd ∧
        pd.edge = e ∧ partIsLive ((s.keepRoots [root]).needed ds root) g p = false := by
      intro e he
      obtain ⟨x, hx, hex⟩ := hall e he
      obtain ⟨p, pd, hat, hedge, hnone⟩ := (hiff x.1 e).mp ⟨x, hx, rfl, hex⟩
      exact ⟨x.1, p, pd, hat, hedge, (hfalse x.1 p).mpr hnone⟩
    refine ⟨_, cuts, dependencies_eq_ok_iff.mpr ⟨ds, hds', rfl⟩, hrep, hlen, hrep.nodup, hcuts,
      fun g p pd hat hlive => ?_, fun g p pd hat hdead hg howner => ?_⟩
    · have hmem : pd.edge.owner ∈ s.arena.nodeIds :=
        han.settled.agrees.mem_nodeIds (han.owner_of_at hat).1
      refine hrep.slots hmem fun he => ?_
      -- the slot of a live part would be that of a dead one
      obtain ⟨g', p', pd', hat', hedge, hdead⟩ := hcuts _ he
      obtain ⟨rfl, rfl⟩ := Prod.mk.inj (han.part_eq_of_at hlast hat hat' hedge.symm)
      have hlive' : partIsLive ((s.keepRoots [root]).needed ds root) g p = true := hlive
      rw [hlive'] at hdead
      cases hdead
    · exact hholds g pd.edge ⟨p, pd, hat, rfl, (hfalse g p).mp hdead⟩ hg howner

/-- Of all slots of `keptBase` only the output of the first graph changes. -/
theorem cutDead_replaces_dead_keptBase : ∃ s', keptBase.cutDead ⟨2⟩ = (s', .ok 1) ∧
    keptBase.arena.Replaced s'.arena [⟨⟨2⟩, 1⟩] := by
  have hs := reachedAcyclic_keptBase
  have hroot : (⟨2⟩ : GraphId) ∈ keptBase.arena.graphIds := by decide
  have hids : ∀ g ∈ keptBase.arena.graphIds, ∀ r ∈ keptBase.arena.ret? g,
      ∀ n ∈ keptBase.arena.nodeIds, r ∉ keptBase.arena.inputs n := by decide
  have hret : ∀ g r n, keptBase.arena.ret? g = some r → r ∉ keptBase.arena.inputs n := by
    intro g r n hr hin
    exact hids g (Arena.mem_graphIds_of_ret? hr) r hr n (Arena.mem_nodeIds_of_mem_inputs hin) hin
  obtain ⟨s', hok, -, -, -, -, -, m, hm, hdead⟩ := exists_cutDead_keptBase
  obtain ⟨deps, cuts, -, hrep, hlen, -⟩ :=
    cutDead_replaces_dead hs.reachable hs.acyclic hroot hret hok
  obtain ⟨e, rfl⟩ := List.length_eq_one_iff.mp hlen
  have hold : keptBase.arena.slot? ⟨⟨2⟩, 1⟩ = some ⟨0⟩ := by decide
  have he : ⟨⟨2⟩, 1⟩ ∈ [e] := by
    by_contra hnot
    have hsame := (hrep.slots (Arena.mem_nodeIds_of_slot? hold) hnot).trans hold
    obtain rfl : m = ⟨0⟩ := Option.some.inj (hm.symm.trans hsame)
    rw [hrep.value (by decide)] at hdead
    exact no_dead_keptBase _ hdead
  obtain rfl := List.mem_singleton.mp he
  exact ⟨s', hok, hrep⟩

end Store

end Midend
