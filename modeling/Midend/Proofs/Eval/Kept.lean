import Midend.Proofs.Eval.Fragment
import Midend.Proofs.Eval.Strict

/-!
# Cutting dead parts keeps results

After the cuts a graph may return a value with placeholders in it, but none in a needed part, and
what is read of a value is needed.
-/

namespace Midend

namespace Store

variable {s s' : Store} {ds : OrderedMap NodeId (List Demand)} {op : Arithmetic} {depth : Nat}
  {frame : Frame} {g root : GraphId} {n m : NodeId} {e : Edge} {p q : Path} {pd : PartDeps}
  {d x : Datum} {args : List Datum} {cs : List (NodeId × GraphId)}

/-! ### Functions that occur in a run -/

/-- Whether the values of a frame name live graphs only. -/
def InFrame (s : Store) (frame : Frame) : Prop :=
  ∀ n d, frame n = some d → d.NamesOnly (· ∈ s.live.graphs)

theorem inFrame_of_enter? (hargs : ∀ d ∈ args, d.NamesOnly (· ∈ s.live.graphs))
    (h : s.arena.enter? g args = some (frame, n)) : s.InFrame frame :=
  fun m d hd => hargs d ((Arena.enter?_eq_some h).2 m d hd)

/-- The values of live nodes name live graphs only. -/
theorem Settled.namesOnly_eval (h : s.Settled False) (hframe : s.InFrame frame)
    (hn : n ∈ s.live.nodes) (heval : s.arena.eval op depth frame n = some (d, cs)) :
    d.NamesOnly (· ∈ s.live.graphs) := by
  induction depth generalizing frame n d cs with
  | zero => cases heval
  | succ depth ih =>
    rcases Arena.eval_cases heval with ⟨v, hv, rfl⟩ | ⟨-, hd⟩ | happ
    · refine .literal fun g hg => ?_
      have hheld : s.arena.heldGraph? n = some g := by simp [Arena.heldGraph?, hv, hg]
      rcases h.agrees.held n hn g hheld with hlive | hagenda | hlost
      · exact hlive
      · exact absurd hagenda List.not_mem_nil
      · exact hlost.elim
    · exact hframe n d hd
    · rw [Arena.eval_of_isApply happ] at heval
      obtain ⟨f, args, cs₁, cs₂, hall, hinv, -⟩ := evalApply_eq_some heval
      have hnames : ∀ y ∈ f :: args, y.NamesOnly (· ∈ s.live.graphs) := by
        intro y hy
        obtain ⟨m, hm, cs', hev⟩ := mem_of_evalAll hall hy
        exact ih hframe (h.agrees.mem_of_input hn hm) hev
      rcases invoke_cases hinv (hnames f List.mem_cons_self)
        (fun y hy => hnames y (List.mem_cons_of_mem f hy)) with
        ⟨g, args', cs', hg, hargs', hcall, -, -⟩ | ⟨hd, -⟩
      · obtain ⟨⟨frame', out⟩, henter, hbody⟩ := Option.bind_eq_some_iff.mp hcall
        obtain ⟨r, hr, hout⟩ := Arena.output?_eq_some_iff.mp (Arena.enter?_eq_some henter).1
        have hlive := h.agrees.mem_of_input (h.agrees.ret_mem hg hr) (Arena.mem_inputs_of_slot? hout)
        exact ih (inFrame_of_enter? hargs' henter) hlive hbody
      · exact hd

/-! ### The store after the cuts -/

/-- A program of tuples, and what is left of it when its dead slots are cut. -/
structure TrimmedTo (s s' : Store) (ds : OrderedMap NodeId (List Demand)) (root : GraphId) : Prop where
  analysed : s.Analysed ds
  fragment : s.arena.TupleFragment
  settled : s'.Settled False
  cut : s.CutTo s' fun e => ∃ g, s.DeadSlot ds root g e
  held : ∀ g e, s.DeadSlot ds root g e → g ∈ s'.live.graphs → e.owner ∈ s'.live.nodes →
    s'.arena.HoldsDead e

/-- Whether what is read still evaluates, with the same part at each path at which it is covered. -/
def ReadsKept (s s' : Store) (ds : OrderedMap NodeId (List Demand)) (root : GraphId)
    (op : Arithmetic) (depth : Nat) : Prop :=
  ∀ frame n q d cs x, s'.InFrame frame → s.IsRead ds root n → n ∈ s'.live.nodes →
    s.Covered (s.needed ds root) n q → s.arena.eval op depth frame n = some (d, cs) →
    (∀ c ∈ cs, s.arena.CallNames c.1 c.2) → d.at? q = some x →
    ∃ d' cs', s'.arena.eval op depth frame n = some (d', cs') ∧ d'.at? q = some x

/-- A value that is read as a whole is the same. -/
theorem ReadsKept.exists_eval (hreads : s.ReadsKept s' ds root op depth) (hframe : s'.InFrame frame)
    (hn : s.IsRead ds root n) (hlive : n ∈ s'.live.nodes)
    (hcov : s.Covered (s.needed ds root) n [])
    (heval : s.arena.eval op depth frame n = some (d, cs))
    (hcs : ∀ c ∈ cs, s.arena.CallNames c.1 c.2) :
    ∃ cs', s'.arena.eval op depth frame n = some (d, cs') := by
  obtain ⟨d', cs', heval', hd⟩ :=
    hreads frame n [] d cs d hframe hn hlive hcov heval hcs (Datum.at?_nil d)
  rw [Datum.at?_nil, Option.some.injEq] at hd
  exact ⟨cs', hd ▸ heval'⟩

/-- Whether parts that lead to needed ones or lie within them still evaluate, with the same needed
parts. -/
def PartsKept (s s' : Store) (ds : OrderedMap NodeId (List Demand)) (root : GraphId)
    (op : Arithmetic) (depth : Nat) : Prop :=
  ∀ frame g p pd n d cs, s'.InFrame frame → g ∈ s'.live.graphs → (s.recordOf ds).At (g, p) pd →
    (∃ q, (g, q) ∈ s.needed ds root ∧ (p <+: q ∨ q <+: p)) → s.arena.slot? pd.edge = some n →
    n ∈ s'.live.nodes → s.arena.eval op depth frame n = some (d, cs) →
    (∀ c ∈ cs, s.arena.CallNames c.1 c.2) →
    ∃ d' cs', s'.arena.eval op depth frame n = some (d', cs') ∧
      ∀ q, (g, p ++ q) ∈ s.needed ds root → d'.at? q = d.at? q

namespace TrimmedTo

variable (h : s.TrimmedTo s' ds root)
include h

theorem mem_nodeIds_of_isRead (hn : s.IsRead ds root n) : n ∈ s.arena.nodeIds := by
  obtain ⟨v, -, pd, m, hat, hm, hu⟩ := hn
  exact h.analysed.settled.agrees.mem_nodeIds (h.analysed.live_of_under hat hm hu)

theorem inputs_of_isRead (hn : s.IsRead ds root n) : s'.arena.inputs n = s.arena.inputs n := by
  refine h.cut.arena.inputs_eq (h.mem_nodeIds_of_isRead hn) ?_
  rintro ⟨owner, i⟩ ⟨g, hd⟩ rfl
  exact h.analysed.not_deadSlot_of_isRead h.fragment hn i hd

theorem slot?_of_live (hat : (s.recordOf ds).At (g, p) pd) (hq : (g, q) ∈ s.needed ds root)
    (hpq : p <+: q ∨ q <+: p) : s'.arena.slot? pd.edge = s.arena.slot? pd.edge := by
  have hmem := h.analysed.settled.agrees.mem_nodeIds (h.analysed.owner_of_at hat).1
  refine (h.cut.arena.slots hmem).resolve_right fun hcut => ?_
  obtain ⟨⟨g', hd⟩, -⟩ := hcut
  exact h.analysed.not_deadSlot_of_live h.fragment hat hq hpq hd

/-- A call of a graph with a needed part returns the same needed parts. -/
theorem exists_call (hparts : s.PartsKept s' ds root op depth) (hg : g ∈ s'.live.graphs)
    (hargs : ∀ d ∈ args, d.NamesOnly (· ∈ s'.live.graphs)) (hp : (g, p) ∈ s.needed ds root)
    (hcall : s.arena.call op depth g args = some (d, cs))
    (hcs : ∀ c ∈ cs, s.arena.CallNames c.1 c.2) :
    ∃ d' cs', s'.arena.call op depth g args = some (d', cs') ∧
      ∀ q, (g, q) ∈ s.needed ds root → d'.at? q = d.at? q := by
  obtain ⟨⟨frame, out⟩, henter, hbody⟩ := Option.bind_eq_some_iff.mp hcall
  obtain ⟨r, hr, hout⟩ := Arena.output?_eq_some_iff.mp (Arena.enter?_eq_some henter).1
  have hat := h.analysed.exists_at (h.cut.graphs hg) hr
  have hslot : s'.arena.slot? ⟨r, 1⟩ = some out :=
    (h.slot?_of_live hat hp (Or.inl List.nil_prefix)).trans hout
  have hr' : s'.arena.ret? g = some r := h.cut.arena.ret?.trans hr
  have henter' : s'.arena.enter? g args = some (frame, out) := by
    have hpar : s'.arena.parameters g = s.arena.parameters g :=
      Arena.parameters_congr (congrArg (fun graphs : Array Graph => graphs[g.index]?)
        h.cut.arena.graphs)
    have hout' : s'.arena.output? g = s.arena.output? g := by
      rw [Arena.output?_eq_some_iff.mpr ⟨r, hr', hslot⟩, Arena.output?_eq_some_iff.mpr ⟨r, hr, hout⟩]
    rw [Arena.enter?, hpar, hout']
    exact henter
  have hlive : out ∈ s'.live.nodes := h.settled.agrees.mem_of_input
    (h.settled.agrees.ret_mem hg hr') (Arena.mem_inputs_of_slot? hslot)
  obtain ⟨d', cs', heval, hsame⟩ := hparts frame g [] _ out d cs (inFrame_of_enter? hargs henter') hg
    hat ⟨p, hp, Or.inl List.nil_prefix⟩ hout hlive hbody hcs
  exact ⟨d', cs', by rw [Arena.call, henter']; exact heval, hsame⟩

/-- What an apply that indexes reads is what it indexes, one step further. -/
theorem readsKept_indexing {ix : Indexing} (hreads : s.ReadsKept s' ds root op depth)
    (hframe : s'.InFrame frame) (hn : s.IsRead ds root n) (hlive : n ∈ s'.live.nodes)
    (hix : s.arena.indexing? n = some ix) (hcov : s.Covered (s.needed ds root) n q)
    (heval : s.arena.eval op (depth + 1) frame n = some (d, cs))
    (hcs : ∀ c ∈ cs, s.arena.CallNames c.1 c.2) (hx : d.at? q = some x) :
    ∃ d' cs', s'.arena.eval op (depth + 1) frame n = some (d', cs') ∧ d'.at? q = some x := by
  obtain ⟨f, key, hin, hf, hkey⟩ := h.fragment.inputs_of_indexing hix
  have hin' := (h.inputs_of_isRead hn).trans hin
  have hsame : ∀ {m}, m ∈ s.arena.inputs n → s'.arena.value? m = s.arena.value? m := fun hm =>
    h.cut.arena.value (h.analysed.wellFormed.input_mem hm)
  have hf' : s'.arena.value? f = some (.prim .tupleGet) := (hsame (by simp [hin])).trans hf
  have hkey' : s'.arena.step? key = some ix.step := by
    rw [Arena.step?, hsame (by simp [hin])]
    exact hkey
  obtain ⟨b, hb, hd⟩ := (Arena.eval_tupleGet_iff hin hf hkey).mp heval
  have hbx : b.at? ([ix.step] ++ q) = some x := by
    rw [Datum.at?_append, hd]
    exact hx
  have hlive' : ix.base ∈ s'.live.nodes := h.settled.agrees.mem_of_input hlive (by simp [hin'])
  obtain ⟨b', cs', hb', hbx'⟩ := hreads frame ix.base (ix.step :: q) b cs x hframe
    (hn.input (Arena.base_mem_inputs hix)) hlive' (hcov.base hix) hb hcs hbx
  obtain ⟨d', hd', hx'⟩ := Option.bind_eq_some_iff.mp
    ((Datum.at?_append b' [ix.step] q).symm.trans hbx')
  exact ⟨d', cs', (Arena.eval_tupleGet_iff hin' hf' hkey').mpr ⟨b', hb', hd'⟩, hx'⟩

/-- The inputs of an apply that does not index evaluate to the same: nothing is known of what it does
with them, so all of them are read whole. -/
theorem exists_evalAll {ds' : List Datum} (hreads : s.ReadsKept s' ds root op depth)
    (hframe : s'.InFrame frame) (hn : s.IsRead ds root n) (hlive : n ∈ s'.live.nodes)
    (hix : s.arena.indexing? n = none)
    (hall : evalAll (s.arena.eval op depth frame) (s.arena.inputs n) = some (ds', cs))
    (hcs : ∀ c ∈ cs, s.arena.CallNames c.1 c.2) :
    ∃ cs', evalAll (s'.arena.eval op depth frame) (s.arena.inputs n) = some (ds', cs') := by
  have hinput : ∀ (i : Nat) m m' y cs, (s.arena.inputs n)[i]? = some m →
      (s.arena.inputs n)[i]? = some m' → s.arena.eval op depth frame m = some (y, cs) →
      (∀ c ∈ cs, s.arena.CallNames c.1 c.2) →
      ∃ y' cs', s'.arena.eval op depth frame m' = some (y', cs') ∧ y' = y := by
    intro i m m' y cs hm hm' hev hcs
    obtain rfl : m = m' := Option.some.inj (hm.symm.trans hm')
    have hmin := List.mem_of_getElem? hm
    have hread := hn.input hmin
    have hmlive := h.settled.agrees.mem_of_input hlive ((h.inputs_of_isRead hn).symm ▸ hmin)
    obtain ⟨v, hv, pd, k, hat, hk, hu⟩ := hn
    have hcov := h.analysed.covered_input hat hk hu hv hix hmin
    obtain ⟨cs', hev'⟩ := hreads.exists_eval hframe hread hmlive hcov hev hcs
    exact ⟨y, cs', hev', rfl⟩
  obtain ⟨ds'', cs', hall', hlen, hsame⟩ :=
    evalAll_related (R := fun _ y y' => y' = y) hall hcs rfl hinput
  obtain rfl : ds'' = ds' := by
    refine List.ext_getElem hlen fun i hi hi' => ?_
    exact hsame i _ _ (List.getElem?_eq_getElem hi') (List.getElem?_eq_getElem hi)
  exact ⟨cs', hall'⟩

/-- An apply that does not index runs the same operation, or a graph that returns the same needed
parts. -/
theorem readsKept_apply (hreads : s.ReadsKept s' ds root op depth)
    (hparts : s.PartsKept s' ds root op depth) (hframe : s'.InFrame frame)
    (hn : s.IsRead ds root n) (hlive : n ∈ s'.live.nodes) (happ : s.arena.isApply n = true)
    (hix : s.arena.indexing? n = none) (hcov : s.Covered (s.needed ds root) n q)
    (heval : s.arena.eval op (depth + 1) frame n = some (d, cs))
    (hcs : ∀ c ∈ cs, s.arena.CallNames c.1 c.2) (hx : d.at? q = some x) :
    ∃ d' cs', s'.arena.eval op (depth + 1) frame n = some (d', cs') ∧ d'.at? q = some x := by
  have hmem := h.mem_nodeIds_of_isRead hn
  have hin' := h.inputs_of_isRead hn
  rw [Arena.eval_of_isApply happ] at heval
  obtain ⟨f, args, cs₁, cs₂, hall, hinv, rfl⟩ := evalApply_eq_some heval
  obtain ⟨cs₁', hall'⟩ := h.exists_evalAll hreads hframe hn hlive hix hall fun c hc =>
    hcs c (List.mem_append_left _ hc)
  have hnames : ∀ y ∈ f :: args, y.NamesOnly (· ∈ s'.live.graphs) := by
    intro y hy
    obtain ⟨m, hm, cs', hev⟩ := mem_of_evalAll hall' hy
    exact h.settled.namesOnly_eval hframe (h.settled.agrees.mem_of_input hlive (hin' ▸ hm)) hev
  rw [Arena.eval_of_isApply ((h.cut.arena.isApply hmem).trans happ), hin',
    evalApply_of_evalAll hall']
  rcases invoke_cases hinv (hnames f List.mem_cons_self)
    (fun y hy => hnames y (List.mem_cons_of_mem f hy)) with
    ⟨g, args', cs', hg, hargs', hcall, rfl, hinvoke⟩ | ⟨-, hinvoke⟩
  · have hcs₂ : ∀ c ∈ (n, g) :: cs', s.arena.CallNames c.1 c.2 := fun c hc =>
      hcs c (List.mem_append_right _ hc)
    have hret : (s.arena.ret? g).isSome := by
      obtain ⟨y, henter, -⟩ := Option.bind_eq_some_iff.mp hcall
      obtain ⟨r, hr, -⟩ := Arena.output?_eq_some_iff.mp (Arena.enter?_eq_some henter).1
      simp [hr]
    obtain ⟨p, hp, hneeded⟩ := h.analysed.exists_needed_of_callNames hcov (h.cut.nodes hlive hmem)
      hix (hcs₂ (n, g) List.mem_cons_self) (h.cut.graphs hg) hret
    obtain ⟨d', cs'', hcall', hneed⟩ := h.exists_call hparts hg hargs' hneeded hcall
      fun c hc => hcs₂ c (List.mem_cons_of_mem _ hc)
    refine ⟨d', _, by rw [hinvoke, hcall']; rfl, ?_⟩
    obtain ⟨q', rfl⟩ := hp
    rw [Datum.at?_append] at hx ⊢
    rw [hneed p hneeded]
    exact hx
  · exact ⟨d, _, by rw [hinvoke]; rfl, hx⟩

theorem readsKept_succ (hreads : s.ReadsKept s' ds root op depth)
    (hparts : s.PartsKept s' ds root op depth) : s.ReadsKept s' ds root op (depth + 1) := by
  intro frame n q d cs x hframe hn hlive hcov heval hcs hx
  have hmem := h.mem_nodeIds_of_isRead hn
  rcases Arena.eval_cases heval with ⟨v, hv, rfl⟩ | ⟨hpar, hd⟩ | happ
  · exact ⟨_, [], Arena.eval_of_value? ((h.cut.arena.value hmem).trans hv), hx⟩
  · refine ⟨d, [], ?_, hx⟩
    rw [Arena.eval_of_isParameter ((h.cut.arena.isParameter hmem).trans hpar), hd]
    rfl
  · cases hix : s.arena.indexing? n with
    | some ix => exact h.readsKept_indexing hreads hframe hn hlive hix hcov heval hcs hx
    | none => exact h.readsKept_apply hreads hparts hframe hn hlive happ hix hcov heval hcs hx

theorem exists_parts {func : NodeId} {parts : List NodeId} (hmem : n ∈ s.arena.nodeIds)
    (hin : s.arena.inputs n = func :: parts) :
    ∃ parts', s'.arena.inputs n = func :: parts' ∧ parts'.length = parts.length := by
  have hfunc : s'.arena.slot? ⟨n, 0⟩ = some func := by
    rw [h.analysed.slot?_function h.cut hmem]
    simp [Arena.slot?, hin]
  have hlen := h.cut.arena.length hmem
  rw [hin] at hlen
  cases hin' : s'.arena.inputs n with
  | nil => simp [hin'] at hlen
  | cons func' parts' =>
    obtain rfl : func' = func := by simpa [Arena.slot?, hin'] using hfunc
    rw [hin'] at hlen
    exact ⟨parts', rfl, Nat.succ.inj hlen⟩

/-- What stands in the slot of a part after the cuts evaluates with the same needed parts: the part
leads to a needed one or lies within one, or it was cut and no part of it is needed. -/
theorem exists_eval_slot (hparts : s.PartsKept s' ds root op depth) (hframe : s'.InFrame frame)
    (hg : g ∈ s'.live.graphs) (hat : (s.recordOf ds).At (g, p) pd)
    (hlive : pd.edge.owner ∈ s'.live.nodes) (hn : s.arena.slot? pd.edge = some n)
    (hm : s'.arena.slot? pd.edge = some m) (heval : s.arena.eval op depth frame n = some (d, cs))
    (hcs : ∀ c ∈ cs, s.arena.CallNames c.1 c.2) :
    ∃ d' cs', s'.arena.eval op depth frame m = some (d', cs') ∧
      ∀ q, (g, p ++ q) ∈ s.needed ds root → d'.at? q = d.at? q := by
  by_cases hpart : ∃ q, (g, q) ∈ s.needed ds root ∧ (p <+: q ∨ q <+: p)
  · obtain ⟨q, hq, hpq⟩ := hpart
    have hkept := h.slot?_of_live hat hq hpq
    obtain rfl : m = n := Option.some.inj (hm.symm.trans (hkept.trans hn))
    have hmlive := h.settled.agrees.mem_of_input hlive (Arena.mem_inputs_of_slot? hm)
    exact hparts frame g p pd m d cs hframe hg hat ⟨q, hq, hpq⟩ hn hmlive heval hcs
  · have hdead : s.DeadSlot ds root g pd.edge := ⟨p, pd, hat, rfl, fun q hq hpq => hpart ⟨q, hq, hpq⟩⟩
    obtain ⟨k, hk, hkdead⟩ := h.held g _ hdead hg hlive
    obtain rfl : m = k := Option.some.inj (hm.symm.trans hk)
    cases depth with
    | zero => cases heval
    | succ depth =>
      refine ⟨_, [], Arena.eval_of_value? hkdead, fun q hq => absurd ⟨_, hq, Or.inl ?_⟩ hpart⟩
      exact List.prefix_append p q

/-- A tuple above a needed part evaluates one level up if its parts do below. -/
theorem partsKept_tuple {parts : List NodeId} (hparts : s.PartsKept s' ds root op depth)
    (hframe : s'.InFrame frame) (hg : g ∈ s'.live.graphs) (hat : (s.recordOf ds).At (g, p) pd)
    (hn : s.arena.slot? pd.edge = some n) (hlive : n ∈ s'.live.nodes) (hsingle : s.live.Single n)
    (ht : s.arena.IsTuple n parts) (hnot : (g, p) ∉ s.needed ds root)
    (heval : s.arena.eval op (depth + 1) frame n = some (d, cs))
    (hcs : ∀ c ∈ cs, s.arena.CallNames c.1 c.2) :
    ∃ d' cs', s'.arena.eval op (depth + 1) frame n = some (d', cs') ∧
      ∀ q, (g, p ++ q) ∈ s.needed ds root → d'.at? q = d.at? q := by
  have hsome := ht
  obtain ⟨happ, func, hin⟩ := hsome
  obtain ⟨func', hfunc', hprim⟩ := Arena.applied?_eq_some_iff.mp happ
  obtain rfl : func = func' := by simpa [hin] using hfunc'
  have hfunc : func ∈ s.arena.inputs n := by simp [hin]
  have hprim' : s'.arena.value? func = some (.prim .makeTuple) :=
    (h.cut.arena.value (h.analysed.wellFormed.input_mem hfunc)).trans hprim
  obtain ⟨parts', hin', hlen⟩ := h.exists_parts (Arena.mem_nodeIds_of_mem_inputs hfunc) hin
  obtain ⟨hdepth, xs, hxs, rfl⟩ := (Arena.eval_makeTuple_iff hin hprim).mp heval
  obtain ⟨r, -, hr, hopen⟩ := h.analysed.opens_of_at h.fragment hat
  have hpart : ∀ i m m' x c, parts[i]? = some m → parts'[i]? = some m' →
      s.arena.eval op depth frame m = some (x, c) → (∀ y ∈ c, s.arena.CallNames y.1 y.2) →
      ∃ x' c', s'.arena.eval op depth frame m' = some (x', c') ∧
        ∀ q, (g, p ++ .index i :: q) ∈ s.needed ds root → x'.at? q = x.at? q := by
    intro i m m' x c hm hm' hx hc
    have hat' := h.analysed.at_of_opens (h.cut.graphs hg) hr
      (hopen.append (.element hn hsingle ht hm (.here _)))
    have hslot' : s'.arena.slot? ⟨n, i + 1⟩ = some m' := by simpa [Arena.slot?, hin'] using hm'
    obtain ⟨x', c', hx', hneed⟩ := h.exists_eval_slot hparts hframe hg hat' hlive
      (ht.slot?.trans hm) hslot' hx hc
    exact ⟨x', c', hx', fun q hq => hneed q (by simpa using hq)⟩
  obtain ⟨xs', cs', hxs', hlen', hsame⟩ := evalAll_related hxs hcs hlen hpart
  refine ⟨.tuple xs', cs', (Arena.eval_makeTuple_iff hin' hprim').mpr ⟨hdepth, xs', hxs', rfl⟩, ?_⟩
  intro q hq
  cases q with
  | nil => exact absurd (by simpa using hq) hnot
  | cons k q =>
    cases k with
    | key name => rfl
    | index i =>
      rw [Datum.at?_tuple, Datum.at?_tuple]
      by_cases hi : i < xs.length
      · have hi' : i < xs'.length := hlen' ▸ hi
        rw [List.getElem?_eq_getElem hi, List.getElem?_eq_getElem hi']
        exact hsame i _ _ (List.getElem?_eq_getElem hi) (List.getElem?_eq_getElem hi') q hq
      · have hle : xs.length ≤ i := Nat.le_of_not_lt hi
        rw [List.getElem?_eq_none hle, List.getElem?_eq_none (hlen' ▸ hle)]

theorem partsKept_succ (hreads : s.ReadsKept s' ds root op (depth + 1))
    (hparts : s.PartsKept s' ds root op depth) : s.PartsKept s' ds root op (depth + 1) := by
  intro frame g p pd n d cs hframe hg hat hq hn hlive heval hcs
  by_cases hwithin : ∃ q, (g, q) ∈ s.needed ds root ∧ q <+: p
  · obtain ⟨q, hq, hqp⟩ := hwithin
    obtain ⟨hread, hcov⟩ := h.analysed.isRead_of_at h.fragment hq hat hqp hn
    obtain ⟨cs', heval'⟩ := hreads.exists_eval hframe hread hlive hcov heval hcs
    exact ⟨d, cs', heval', fun _ _ => rfl⟩
  · obtain ⟨q, hq, hpq | hqp⟩ := hq
    · obtain ⟨q', rfl⟩ := hpq
      have hnot : (g, p) ∉ s.needed ds root := fun hp => hwithin ⟨p, hp, List.prefix_refl p⟩
      obtain ⟨pd', hat', -⟩ := neededParts_closed hq
      obtain ⟨r, hglive, hr, hopen⟩ := h.analysed.opens_of_at h.fragment hat'
      obtain ⟨e, hopen₁, hrest⟩ := hopen.exists_split rfl
      have hedge : pd.edge = e :=
        congrArg PartDeps.edge (hat.unique (h.analysed.at_of_opens hglive hr hopen₁))
      subst hedge
      generalize pd'.edge = e' at hrest
      cases hrest with
      | here _ => exact absurd (by simpa using hq) hnot
      | entry _ _ hl _ => exact absurd hl h.fragment.not_isLayer
      | under _ _ hl _ _ => exact absurd hl h.fragment.not_isLayer
      | @element _ _ n' m parts i q' hn' hsingle ht _ _ =>
        obtain rfl := Option.some.inj (hn'.symm.trans hn)
        exact h.partsKept_tuple hparts hframe hg hat hn hlive hsingle ht hnot heval hcs
    · exact absurd ⟨q, hq, hqp⟩ hwithin

/-- By induction on the depth, reads and parts are kept together. -/
theorem kept (op : Arithmetic) (depth : Nat) :
    s.ReadsKept s' ds root op depth ∧ s.PartsKept s' ds root op depth := by
  induction depth with
  | zero =>
    constructor
    · intro frame n q d cs x _ _ _ _ heval
      cases heval
    · intro frame g p pd n d cs _ _ _ _ _ _ heval
      cases heval
  | succ depth ih =>
    have hreads := h.readsKept_succ ih.1 ih.2
    exact ⟨hreads, h.partsKept_succ hreads ih.2⟩

end TrimmedTo

/-- Cutting the dead parts of a program of tuples keeps what its root returns, if every graph that is
called on the way is named by the annotation of what the call applies. -/
theorem cutDead_keeps_returns {k : Nat} (hs : s.ReachedAcyclic) (hf : s.arena.TupleFragment)
    (hargs : ∀ x ∈ args, x.Plain) (hret : s.arena.Returns op root args d cs)
    (hcs : ∀ c ∈ cs, s.arena.CallNames c.1 c.2) (h : s.cutDead root = (s', .ok k)) :
    ∃ cs', s'.arena.Returns op root args d cs' := by
  obtain ⟨depth, hcall⟩ := hret
  obtain ⟨⟨frame, out⟩, henter, -⟩ := Option.bind_eq_some_iff.mp hcall
  obtain ⟨r, hr, -⟩ := Arena.output?_eq_some_iff.mp (Arena.enter?_eq_some henter).1
  have hroot : root ∈ s.arena.graphIds := Arena.mem_graphIds_of_ret? hr
  obtain ⟨ds, han, -, hcut, hheld⟩ := cutDead_spec hs.reachable hs.acyclic hroot h
  have hkeep : (s.keepRoots [root]).ReachedAcyclic := ReachedThrough.step hs
    (.keepRoots fun g hg => by rwa [List.mem_singleton.mp hg]) hs.acyclic
  have hsettled := (hcut.reachedAcyclic hkeep).settled
  have htrim : (s.keepRoots [root]).TrimmedTo s' ds root := ⟨han, hf, hsettled, hcut, hheld⟩
  have hlive : root ∈ s'.live.graphs := by
    refine hsettled.roots_live root ?_
    rw [hcut.roots]
    exact OrderedSet.mem_ofList.mpr (List.mem_singleton.mpr rfl)
  have hat := han.exists_at (hcut.graphs hlive) hr
  have hneeded : (root, []) ∈ (s.keepRoots [root]).needed ds root := mem_needed_root hat
  obtain ⟨d', cs', hcall', hsame⟩ := htrim.exists_call (htrim.kept op depth).2 hlive
    (fun x hx => (hargs x hx).namesOnly) hneeded hcall hcs
  obtain rfl : d' = d := by simpa using hsame [] hneeded
  exact ⟨cs', depth, hcall'⟩

def intScalar (i : Int) : Scalar := ⟨.int i, rfl, rfl, nofun⟩

def integers : Arithmetic
  | .add, [.literal (.int i), .literal (.int j)] => some (intScalar (i + j))
  | .mul, [.literal (.int i), .literal (.int j)] => some (intScalar (i * j))
  | _, _ => none

/-- A function that returns a sum and a product, and a reader of the sum. -/
def sumReader : Store :=
  let s := (Store.empty.newGraph "both").2
  let (x, s) := s.param ⟨0⟩ "x" (some .int64)
  let (sum, s) := s.callPrim ⟨0⟩ .add [x, x] (some .int64)
  let (product, s) := s.callPrim ⟨0⟩ .mul [x, x] (some .int64)
  let (pair, s) := s.tuple ⟨0⟩ [sum, product]
  let s := s.addReturn ⟨0⟩ pair
  let s := (s.newGraph "main").2
  let (x, s) := s.param ⟨1⟩ "x" (some .int64)
  let (r, s) := s.callGraph ⟨1⟩ ⟨0⟩ [x] (some (.tuple [.int64, .int64]))
  let (sum, s) := s.tupleGet ⟨1⟩ r 0
  s.addReturn ⟨1⟩ sum

theorem reachedAcyclic_sumReader : sumReader.ReachedAcyclic :=
  ReachedAcyclic.start.newGraph "both"
    |>.param ⟨0⟩ "x" (some .int64) (by decide)
    |>.callPrim ⟨0⟩ .add [⟨0⟩, ⟨0⟩] (some .int64) (by decide) (by decide)
    |>.callPrim ⟨0⟩ .mul [⟨0⟩, ⟨0⟩] (some .int64) (by decide) (by decide)
    |>.tuple ⟨0⟩ [⟨2⟩, ⟨4⟩] (by decide) (by decide)
    |>.addReturn ⟨0⟩ ⟨6⟩ (by decide) (by decide) (by decide)
    |>.newGraph "main"
    |>.param ⟨1⟩ "x" (some .int64) (by decide)
    |>.callGraph ⟨1⟩ ⟨0⟩ [⟨9⟩] (some (.tuple [.int64, .int64])) (by decide) (by decide) (by decide)
    |>.tupleGet ⟨1⟩ ⟨11⟩ 0 (by decide) (by decide)
    |>.addReturn ⟨1⟩ ⟨14⟩ (by decide) (by decide) (by decide)

theorem tupleFragment_sumReader : sumReader.arena.TupleFragment :=
  .of_forall_mem (by decide)

/-- The product is cut and the sum is still returned. -/
theorem cutDead_keeps_returns_sumReader :
    ∃ s' cs, sumReader.cutDead ⟨1⟩ = (s', .ok 1) ∧
      sumReader.arena.Returns integers ⟨1⟩ [.literal (.int 3)] (.literal (.int 6))
        [(⟨11⟩, ⟨0⟩)] ∧
      s'.arena.Returns integers ⟨1⟩ [.literal (.int 3)] (.literal (.int 6)) cs := by
  have hok : (sumReader.cutDead ⟨1⟩).2 = .ok 1 := by cbv
  have hret : sumReader.arena.Returns integers ⟨1⟩ [.literal (.int 3)] (.literal (.int 6))
      [(⟨11⟩, ⟨0⟩)] := ⟨5, by cbv⟩
  obtain ⟨cs, hret'⟩ := cutDead_keeps_returns reachedAcyclic_sumReader tupleFragment_sumReader
    (fun x hx => by
      rw [List.mem_singleton.mp hx]
      exact .literal (intScalar 3).2)
    hret (fun c hc => by
      rw [List.mem_singleton.mp hc]
      exact ⟨⟨10⟩, [.graph ⟨0⟩], .graph ⟨0⟩, [], rfl, rfl, List.mem_singleton.mpr rfl, rfl⟩)
    (Prod.ext rfl hok)
  exact ⟨_, cs, Prod.ext rfl hok, hret, hret'⟩

end Store

end Midend
