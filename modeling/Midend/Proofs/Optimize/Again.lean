import Mathlib
import Midend.Proofs.Optimize.Rerun
import Midend.Proofs.Optimize.Success
import Midend.Proofs.Store.Calls

/-!
# Cutting again

A cut releases what computed the part, and a second analysis may find more dead than the first: a
call may have lost the reader that took all of its result, a tuple all users but one, an entry of an
environment the one that was written over it. `Steady` says that the first run did nothing of the
kind. Without one of its conditions there are programs of which the second run cuts more, or cannot
resolve a call.
-/

namespace Midend

namespace Store

variable {s s' : Store} {ds : OrderedMap NodeId (List Demand)} {root : GraphId} {n : NodeId} {k : Nat}

theorem cutEdges_of_holdsDead {es : List Edge} (h : ∀ e ∈ es, s.arena.HoldsDead e) :
    s.cutEdges es = (s, .ok 0) := by
  induction es with
  | nil => rfl
  | cons e es ih =>
    obtain ⟨m, hm, hv⟩ := h e List.mem_cons_self
    rw [cutEdges, hm]
    simp only [hv, or_true, if_true]
    exact ih fun e' he' => h e' (List.mem_cons_of_mem e he')

theorem cutGraphs_of_holdsDead {gs : List (GraphId × List Edge)}
    (h : ∀ x ∈ gs, ∀ e ∈ x.2, s.arena.HoldsDead e) : s.cutGraphs gs = (s, .ok 0) := by
  induction gs with
  | nil => rfl
  | cons x gs ih =>
    have hrest := ih fun y hy => h y (List.mem_cons_of_mem x hy)
    rw [cutGraphs, cutEdges_of_holdsDead (h x List.mem_cons_self)]
    simp [hrest, Except.map]

/-- An apply that could be resolved still can, if what builds or returns an output does not map a part
of it. -/
theorem Analysed.clear_after (h : s.Analysed ds)
    (hcut : s.CutTo s' fun e => ∃ g, s.DeadSlot ds root g e) (hfit : s.arena.Refitted s'.arena)
    (hn : n ∈ s'.arena.nodeIds) (hclear : s.arena.Clear n)
    (hplain : s.arena.Opens n → ∀ f, s.arena.slot? ⟨n, 0⟩ = some f → ¬ s.arena.MapsArgument f) :
    s'.arena.Clear n := by
  intro happ
  have hwf := h.wellFormed
  have hmem : n ∈ s.arena.nodeIds :=
    hfit.mem_nodeIds hn (by simp [Arena.value?_eq_none_of_isApply happ])
  have hcases := hclear (hcut.arena.isApply hmem ▸ happ)
  by_cases hdead : ∃ e g, s.DeadSlot ds root g e ∧ e.owner = n
  · obtain ⟨e, g, hd, rfl⟩ := hdead
    have hres := hcases.resolve_left (by simp [(h.of_deadSlot hd).2])
    obtain ⟨f, args, ts, hin, -⟩ := id hres
    have hf : s.arena.slot? ⟨e.owner, 0⟩ = some f := by simp [Arena.slot?, hin]
    obtain ⟨args', hin'⟩ : ∃ args', s'.arena.inputs e.owner = f :: args' := by
      refine List.head?_eq_some_iff.mp ?_
      rw [List.head?_eq_getElem?]
      exact (h.slot?_function hcut hmem).trans hf
    rw [hin] at hres
    rw [hin']
    exact Or.inr (hres.of_not_mapsArgument (hplain (h.opens_of_deadSlot hd).2 f hf)
      (hcut.arena.type (hwf.slot_mem hf)) args')
  · have hfree : ∀ e, (∃ g, s.DeadSlot ds root g e) → e.owner ≠ n := by
      rintro e ⟨g, hd⟩ heq
      exact hdead ⟨e, g, hd, heq⟩
    rw [hcut.arena.indexing? hwf hmem hfree, hcut.arena.inputs_eq hmem hfree]
    refine hcases.imp_right fun hres => hres.congr (List.forall₂_same.mpr fun m hm => ?_)
    exact hcut.arena.type (hwf.input_mem hm)

/-- Every apply that is still live can be resolved again. -/
theorem Steady.clear {t : Store} (h : s.Steady t ds root) (han : s.Analysed ds)
    (hcut : s.CutTo t fun e => ∃ g, s.DeadSlot ds root g e) (hfit : s.arena.Refitted t.arena)
    (ht : t.Settled True) (hclear : ∀ n ∈ s.live.nodes, s.arena.Clear n) :
    ∀ n ∈ t.live.nodes, t.arena.Clear n := by
  intro n hn happ
  have hmem' : n ∈ t.arena.nodeIds := ht.agrees.mem_nodeIds hn
  have hmem : n ∈ s.arena.nodeIds :=
    hfit.mem_nodeIds hmem' (by simp [Arena.value?_eq_none_of_isApply happ])
  exact han.clear_after hcut hfit hmem' (hclear n (hcut.nodes hn hmem)) (h.plain n hn) happ

/-- Keeping the root alone once more leaves no more than a cut did. -/
theorem CutTo.keepRoots {E : Edge → Prop} (h : (s.keepRoots [root]).CutTo s' E)
    (hroot : root ∈ s'.arena.graphIds) (hlive : root ∈ s'.live.graphs) :
    (s.keepRoots [root]).CutTo (s'.keepRoots [root]) E :=
  ⟨h.arena, fun hn hmem => h.nodes (nodes_keepRoots_subset hlive hn) hmem,
    fun hg => h.graphs (graphs_keepRoots_subset hlive hg), rfl,
    fun hr => (h.reachedAcyclic hr).keepRoots hroot⟩

/-- A second run of cuts on a store without cycles, in which no return node is an input, succeeds, cuts
nothing and changes no slot, if the first one left what its analysis had seen of the live parts. -/
theorem cutDead_again (hs : s.Reachable) (hac : s.arena.Acyclic) (hroot : root ∈ s.arena.graphIds)
    (hfree : ∀ g r n, s.arena.ret? g = some r → r ∉ s.arena.inputs n)
    (h : s.cutDead root = (s', .ok k))
    (hsteady : ∀ ds, (s.keepRoots [root]).demands = .ok ds →
      (s.keepRoots [root]).Steady (s'.keepRoots [root]) ds root) :
    s'.cutDead root = (s'.keepRoots [root], .ok 0) ∧
      ∀ e, (s'.cutDead root).1.arena.slot? e = s'.arena.slot? e := by
  obtain ⟨ds, han, hs', hcut, hheld⟩ := cutDead_spec hs hac hroot h
  have hsteady := hsteady ds han.demands
  have hfit : s.arena.Refitted s'.arena := by
    have hfit := s.refitted_cutDead root
    rwa [h] at hfit
  have hac' : s'.arena.Acyclic := Arena.CutTo.acyclic hcut.arena hfit hac
  have hroot' : root ∈ s'.arena.graphIds := hfit.graphIds ▸ hroot
  have hlive : root ∈ s'.live.graphs :=
    hs'.settled.roots_live root (hcut.roots ▸ s.mem_roots_keepRoots root)
  have hsettled : (s'.keepRoots [root]).Settled True := (hs'.keepRoot hroot').settled
  have hkept := hcut.keepRoots hroot' hlive
  have hclear := (exists_cutDead_iff han.settled hac).mp ⟨k, congrArg Prod.snd h⟩
  obtain ⟨dead, hdead⟩ : ∃ dead, (s'.keepRoots [root]).deadEdges root = .ok dead :=
    (exists_deadEdges_iff hsettled hac').mpr (hsteady.clear han hkept hfit hsettled hclear)
  obtain ⟨ds', hds', hiff⟩ := deadEdges_spec hdead
  have hrerun : (s.keepRoots [root]).Rerun (s'.keepRoots [root]) ds ds' root :=
    ⟨han, ⟨hsettled, hac', hds'⟩, hkept, fun g e hd hg howner => hheld g e hd
      (graphs_keepRoots_subset hlive hg) (nodes_keepRoots_subset hlive howner), hfit, hfree,
      s'.mem_graphs_keepRoots root, hsteady⟩
  have hnone : s'.cutDead root = (s'.keepRoots [root], .ok 0) := by
    simp only [cutDead, hdead]
    exact cutGraphs_of_holdsDead fun x hx e he =>
      hrerun.holdsDead_of_deadSlot ((hiff x.1 e).mp ⟨x, hx, rfl, he⟩)
  refine ⟨hnone, fun e => ?_⟩
  rw [hnone]
  rfl

/-- A pair of which only the second part is read. -/
def readSecond : Store := Store.empty.performAll
  [.newGraph "f", .addParameter ⟨0⟩ (some .int64),
    .constant (.prim .makeTuple) (some (.function [.prim .makeTuple])),
    .apply ⟨0⟩ [⟨1⟩, ⟨0⟩, ⟨0⟩] none, .setOutput ⟨0⟩ ⟨2⟩,
    .newGraph "main", .addParameter ⟨1⟩ (some .int64),
    .constant (.graph ⟨0⟩) (some (.function [.graph ⟨0⟩])), .apply ⟨1⟩ [⟨6⟩, ⟨5⟩] none,
    .constant (.int 1) none, .constant (.prim .tupleGet) (some (.function [.prim .tupleGet])),
    .apply ⟨1⟩ [⟨9⟩, ⟨7⟩, ⟨8⟩] (some .int64), .setOutput ⟨1⟩ ⟨10⟩]

/-- `readSecond` after the first run. -/
def readSecondCut : Store := (readSecond.cutDead ⟨1⟩).1.keepRoots [⟨1⟩]

/-- What is live in `readSecond`, and where the parts of the outputs are. -/
theorem live_readSecond : (readSecond.keepRoots [⟨1⟩]).live.graphs.toList = [⟨1⟩, ⟨0⟩] ∧
    (readSecond.keepRoots [⟨1⟩]).live.parts readSecond.arena ⟨1⟩ = [([], ⟨⟨12⟩, 1⟩)] ∧
    (readSecond.keepRoots [⟨1⟩]).live.parts readSecond.arena ⟨0⟩ =
      [([], ⟨⟨4⟩, 1⟩), ([.index 0], ⟨⟨2⟩, 1⟩), ([.index 1], ⟨⟨2⟩, 2⟩)] ∧
    (readSecond.keepRoots [⟨1⟩]).live.useCount ⟨2⟩ = 1 := by
  refine ⟨?_, ?_, ?_, ?_⟩
  all_goals cbv

theorem live_readSecondCut : readSecondCut.live.graphs.toList = [⟨1⟩, ⟨0⟩] ∧
    readSecondCut.live.parts readSecondCut.arena ⟨1⟩ = [([], ⟨⟨12⟩, 1⟩)] ∧
    readSecondCut.live.parts readSecondCut.arena ⟨0⟩ =
      [([], ⟨⟨4⟩, 1⟩), ([.index 0], ⟨⟨2⟩, 1⟩), ([.index 1], ⟨⟨2⟩, 2⟩)] := by
  refine ⟨?_, ?_, ?_⟩
  all_goals cbv

/-- What is read out of the pair is returned, before the first run and after it. -/
theorem consumed_readSecondCut : readSecondCut.Consumed ⟨10⟩ := by
  have hlive : (⟨12⟩ : NodeId) ∈ readSecondCut.live.nodes := of_decide_eq_true (by cbv)
  have hinputs : readSecondCut.arena.inputs ⟨12⟩ = [⟨11⟩, ⟨10⟩] := by cbv
  have hindexing : readSecondCut.arena.indexing? ⟨12⟩ = none := by cbv
  exact ⟨⟨12⟩, hlive, Or.inl ⟨hindexing, by simp [hinputs]⟩⟩

theorem steady_readSecond (hds : (readSecond.keepRoots [⟨1⟩]).demands = .ok ds) :
    (readSecond.keepRoots [⟨1⟩]).Steady readSecondCut ds ⟨1⟩ := by
  obtain ⟨hgraphs, hmain, hf, hsole⟩ := live_readSecond
  obtain ⟨hgraphs', hmain', hf'⟩ := live_readSecondCut
  have hcases : ∀ g ∈ readSecondCut.live.graphs, g = ⟨1⟩ ∨ g = ⟨0⟩ := by
    intro g hg
    rw [OrderedSet.mem_def, hgraphs'] at hg
    simpa using hg
  refine ⟨fun n _ hd _ => ?_, fun v pd d _ hat _ => ?_, fun g hg x hx hne => ?_, fun g hg => ?_, ?_⟩
  · -- only what is read out of the pair demands anything
    have hentries : (readSecond.keepRoots [⟨1⟩]).demands.map (·.entries) =
        .ok [(⟨10⟩, [⟨⟨0⟩, [.index 1]⟩])] := by cbv
    rw [hds] at hentries
    cases hget : ds.get? n with
    | none => simp [hget] at hd
    | some d =>
      have hmem : (n, d) ∈ [((⟨10⟩ : NodeId), [(⟨⟨0⟩, [.index 1]⟩ : Demand)])] :=
        Except.ok.inj hentries ▸ OrderedMap.mem_entries_of_get? hget
      obtain ⟨rfl, -⟩ := Prod.mk.inj (List.mem_singleton.mp hmem)
      exact consumed_readSecondCut
  · obtain ⟨parts, hparts, -⟩ := hat
    have hlive := (get?_recordOf_eq_some_iff.mp hparts).1
    rw [OrderedSet.mem_def, hgraphs] at hlive
    rw [OrderedSet.mem_def, hgraphs']
    exact hlive
  · -- all parts that are not whole outputs are those of the pair
    have howner : x.2.owner = ⟨2⟩ := by
      rcases hcases g hg with rfl | rfl
      · rw [hmain'] at hx
        simp_all
      · rw [hf'] at hx
        simp only [List.mem_cons, List.not_mem_nil, or_false] at hx
        rcases hx with rfl | rfl | rfl
        · exact absurd rfl hne
        · rfl
        · rfl
    rw [howner]
    exact hsole.le
  · have harena : (readSecond.keepRoots [⟨1⟩]).arena = readSecond.arena := rfl
    rcases hcases g hg with rfl | rfl
    · simp [harena, hmain]
    · simp [harena, hf]
  · rintro n - - f hf ⟨ts, t, hts, ht, hcallee⟩
    have hall : ∀ n ∈ readSecond.arena.nodeIds,
        ∀ f ∈ readSecond.arena.slot? ⟨n, 0⟩, ∀ ts ∈ (readSecond.arena.type? f).bind Ty.targets?,
        ∀ t ∈ ts, t.callee.toOption ≠ some (.prim .arrayMap, []) := by decide
    exact hall n (Arena.mem_nodeIds_of_slot? hf) f hf ts hts t ht (by rw [hcallee]; rfl)

/-- The first run cuts the part that is not read, the second one nothing. -/
theorem cutDead_again_readSecond : (readSecond.cutDead ⟨1⟩).2 = .ok 1 ∧
    (readSecond.cutDead ⟨1⟩).1.cutDead ⟨1⟩ = (readSecondCut, .ok 0) := by
  have hcalled : readSecond.Called := Called.start.performAll (of_decide_eq_true (by cbv))
  have hac : readSecond.arena.Acyclic := Arena.acyclic_of_rising (by cbv)
  have hroot : (⟨1⟩ : GraphId) ∈ readSecond.arena.graphIds := by decide
  have hok : (readSecond.cutDead ⟨1⟩).2 = .ok 1 := by cbv
  have hids : ∀ g ∈ readSecond.arena.graphIds, ∀ r ∈ readSecond.arena.ret? g,
      ∀ n ∈ readSecond.arena.nodeIds, r ∉ readSecond.arena.inputs n := by decide
  have hfree : ∀ g r n, readSecond.arena.ret? g = some r → r ∉ readSecond.arena.inputs n := by
    intro g r n hr hin
    exact hids g (Arena.mem_graphIds_of_ret? hr) r hr n (Arena.mem_nodeIds_of_mem_inputs hin) hin
  exact ⟨hok, (cutDead_again hcalled.reachable hac hroot hfree (Prod.ext rfl hok)
    fun ds hds => steady_readSecond hds).1⟩

/-! ### Programs of which a second run cuts more -/

/-- What two runs of cuts in a row answer, of which the first one succeeds. -/
structure CutTwice (s : Store) (root : GraphId) (k : Nat) (again : Except Fault Nat) : Prop where
  reachable : s.Reachable
  acyclic : s.arena.Acyclic
  root_mem : root ∈ s.arena.graphIds
  answers : (s.cutDead root).2 = .ok k ∧ ((s.cutDead root).1.cutDead root).2 = again

/-- A pair of what a function parameter returns and of the only constant that names the function; the
function returns what a call of `f` in the body of `f` returns. -/
def droppedCallee : Store := Store.empty.performAll
  [.newGraph "f", .addParameter ⟨0⟩ (some .int64),
    .constant (.graph ⟨0⟩) (some (.function [.graph ⟨0⟩])), .apply ⟨0⟩ [⟨1⟩, ⟨0⟩] (some .int64),
    .constant (.prim .neg) (some (.function [.prim .neg])), .apply ⟨0⟩ [⟨3⟩, ⟨2⟩] (some .int64),
    .setOutput ⟨0⟩ ⟨4⟩,
    .newGraph "g", .setOutput ⟨1⟩ ⟨2⟩,
    .newGraph "p", .addParameter ⟨2⟩ (some (.function [.graph ⟨1⟩])), .apply ⟨2⟩ [⟨9⟩] (some .int64),
    .constant (.graph ⟨1⟩) none, .constant (.prim .makeTuple) (some (.function [.prim .makeTuple])),
    .apply ⟨2⟩ [⟨12⟩, ⟨10⟩, ⟨11⟩] none, .setOutput ⟨2⟩ ⟨13⟩,
    .newGraph "main", .constant (.graph ⟨2⟩) (some (.function [.graph ⟨2⟩])), .apply ⟨3⟩ [⟨16⟩] none,
    .constant (.int 0) none, .constant (.prim .tupleGet) none,
    .apply ⟨3⟩ [⟨19⟩, ⟨17⟩, ⟨18⟩] (some .int64),
    .constant (.prim .add) (some (.function [.prim .add])), .apply ⟨3⟩ [⟨21⟩, ⟨20⟩, ⟨1⟩] (some .int64),
    .setOutput ⟨3⟩ ⟨22⟩]

/-- A return node that was made a pair and is an element of another pair. -/
def rebuiltCall : Store := Store.empty.performAll
  [.newGraph "f", .addParameter ⟨0⟩ (some .int64),
    .constant (.graph ⟨0⟩) (some (.function [.graph ⟨0⟩])), .apply ⟨0⟩ [⟨1⟩, ⟨0⟩] (some .int64),
    .constant (.prim .neg) (some (.function [.prim .neg])), .apply ⟨0⟩ [⟨3⟩, ⟨2⟩] (some .int64),
    .setOutput ⟨0⟩ ⟨4⟩,
    .newGraph "g", .constant (.prim .makeTuple) (some (.function [.prim .makeTuple])),
    .setOutput ⟨1⟩ ⟨2⟩, .setEdge ⟨⟨9⟩, 0⟩ ⟨7⟩,
    .newGraph "main", .constant (.graph ⟨1⟩) (some (.function [.graph ⟨1⟩])),
    .constant (.prim .add) (some (.function [.prim .add])),
    .apply ⟨2⟩ [⟨11⟩, ⟨1⟩, ⟨10⟩] (some .int64), .apply ⟨2⟩ [⟨7⟩, ⟨9⟩, ⟨12⟩] none, .setOutput ⟨2⟩ ⟨13⟩]

theorem cutTwice_droppedCallee : droppedCallee.CutTwice ⟨3⟩ 1 (.ok 1) := by
  have hcalled : droppedCallee.Called := Called.start.performAll (of_decide_eq_true (by cbv))
  refine ⟨hcalled.reachable, Arena.acyclic_of_rising (by cbv), by decide, ?_⟩
  cbv

theorem cutTwice_rebuiltCall : rebuiltCall.CutTwice ⟨2⟩ 1 (.ok 1) := by
  have hcalled : rebuiltCall.Called := Called.start.performAll (of_decide_eq_true (by cbv))
  refine ⟨hcalled.reachable, Arena.acyclic_of_rising (by cbv), by decide, ?_⟩
  cbv

end Store

namespace Program

open Store (droppedCallee rebuiltCall)

variable {spec : Spec} {k : Nat} {again : Except Fault Nat}

theorem cutTwice_loaded (hbuild : build spec = .ok (loaded spec))
    (hanswers : ((loaded spec).store.cutDead (loaded spec).root).2 = .ok k ∧
      (((loaded spec).store.cutDead (loaded spec).root).1.cutDead (loaded spec).root).2 = again) :
    (loaded spec).store.CutTwice (loaded spec).root k again := by
  obtain ⟨hloaded, hroot⟩ := loaded_build hbuild
  exact ⟨hloaded.reached.reachable, hloaded.reached.acyclic, hroot, hanswers⟩

/-- A call whose result is indexed and also taken as a whole, for a part that nobody reads. -/
def takenWhole : Spec :=
  ⟨some "main", [
    ⟨"f", [⟨"x", none⟩], [⟨"t", none, some ["make_tuple", "x", "x"], none⟩], "t"⟩,
    ⟨"h", [⟨"p", none⟩], [], "p"⟩,
    ⟨"g", [⟨"x", none⟩], [
      ⟨"zero", some (.number (.whole 0)), none, none⟩,
      ⟨"r", none, some ["f", "x"], none⟩,
      ⟨"r0", none, some ["tuple_getitem", "r", "zero"], none⟩,
      ⟨"whole", none, some ["h", "r"], none⟩,
      ⟨"t", none, some ["make_tuple", "r0", "whole"], none⟩], "t"⟩,
    ⟨"main", [⟨"x", none⟩], [
      ⟨"zero", some (.number (.whole 0)), none, none⟩,
      ⟨"s", none, some ["g", "x"], none⟩,
      ⟨"out", none, some ["tuple_getitem", "s", "zero"], none⟩], "out"⟩]⟩

/-- A pair of one pair twice. -/
def sharedPair : Spec :=
  ⟨some "main", [
    ⟨"f", [⟨"x", none⟩], [
      ⟨"t", none, some ["make_tuple", "x", "x"], none⟩,
      ⟨"u", none, some ["make_tuple", "t", "t"], none⟩], "u"⟩,
    ⟨"main", [⟨"x", none⟩], [
      ⟨"zero", some (.number (.whole 0)), none, none⟩,
      ⟨"s", none, some ["f", "x"], none⟩,
      ⟨"s0", none, some ["tuple_getitem", "s", "zero"], none⟩,
      ⟨"out", none, some ["tuple_getitem", "s0", "zero"], none⟩], "out"⟩]⟩

/-- An environment with two pairs written at one key. -/
def writtenTwice : Spec :=
  ⟨some "main", [
    ⟨"f", [⟨"e", none⟩, ⟨"x", none⟩], [
      ⟨"j", some (.object [("key", .string "j")]), none, none⟩,
      ⟨"k", some (.object [("key", .string "k")]), none, none⟩,
      ⟨"t", none, some ["make_tuple", "x", "x"], none⟩,
      ⟨"u", none, some ["make_tuple", "x", "x"], none⟩,
      ⟨"e1", none, some ["env_setitem", "e", "j", "x"], none⟩,
      ⟨"e2", none, some ["env_setitem", "e1", "k", "t"], none⟩,
      ⟨"e3", none, some ["env_setitem", "e2", "k", "u"], none⟩], "e3"⟩,
    ⟨"main", [⟨"e", none⟩, ⟨"x", none⟩], [
      ⟨"j", some (.object [("key", .string "j")]), none, none⟩,
      ⟨"s", none, some ["f", "e", "x"], none⟩,
      ⟨"out", none, some ["env_getitem", "s", "j", "x"], none⟩], "out"⟩]⟩

/-- One run of cuts is not always enough. Each condition on the first run fails of one of these: the
node that is read as a whole, the graph that is called, the pair that is shared, the key that is written
over, the tuple made by what maps, and the return node that is an input. -/
theorem cutDead_not_last :
    (loaded takenWhole).store.CutTwice (loaded takenWhole).root 1 (.ok 1) ∧
    droppedCallee.CutTwice ⟨3⟩ 1 (.ok 1) ∧
    (loaded sharedPair).store.CutTwice (loaded sharedPair).root 1 (.ok 1) ∧
    (loaded writtenTwice).store.CutTwice (loaded writtenTwice).root 1 (.ok 2) ∧
    (loaded mappingTuple).store.CutTwice (loaded mappingTuple).root 1 (.error (.nothingMapped ⟨6⟩)) ∧
    rebuiltCall.CutTwice ⟨2⟩ 1 (.ok 1) := by
  refine ⟨cutTwice_loaded (build_eq_loaded ?_) ?_, Store.cutTwice_droppedCallee,
    cutTwice_loaded (build_eq_loaded ?_) ?_, cutTwice_loaded (build_eq_loaded ?_) ?_,
    cutTwice_loaded (build_eq_loaded ?_) ?_, Store.cutTwice_rebuiltCall⟩
  all_goals cbv

end Program

end Midend
