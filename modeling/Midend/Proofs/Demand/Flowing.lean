import Midend.Proofs.Demand.Least

/-!
# Graphs that flow out of the root

A graph flows into the nodes whose values may hold it: through tuples, environments and what calls
return. Whoever receives the output of the root may call the graphs that flow into it. An
environment's annotation says nothing about its entries, so an entry that another graph than the
root writes is not seen, and the graph in it may be cut.
-/

namespace Midend

namespace Arena

variable {a : Arena} {n : NodeId} {h : GraphId}

/-- Whether the annotation of a node mentions a graph. -/
def Mentions (a : Arena) (n : NodeId) (h : GraphId) : Prop := h ∈ ((a.type? n).map Ty.graphs).getD []

/-- Whether a graph flows into a node, over environment entries with a property. -/
inductive Flows (a : Arena) (P : NodeId → Prop) (h : GraphId) : NodeId → Prop
  | held {n : NodeId} : a.heldGraph? n = some h → Flows a P h n
  | element {n m : NodeId} {parts : List NodeId} : a.IsTuple n parts → m ∈ parts →
      Flows a P h m → Flows a P h n
  | entry {n f env key value : NodeId} : a.applied? n = some .envSet →
      a.inputs n = [f, env, key, value] → P n → Flows a P h value → Flows a P h n
  | base {n f env key value : NodeId} : a.applied? n = some .envSet →
      a.inputs n = [f, env, key, value] → Flows a P h env → Flows a P h n
  | called {n out : NodeId} {g : GraphId} : a.CallNames n g → a.output? g = some out →
      Flows a P h out → Flows a P h n

/-- Whether annotations mention the graphs that constants, tuples and calls hand on; those of
environments mention none. -/
structure WellAnnotated (a : Arena) : Prop where
  held : ∀ n h, a.heldGraph? n = some h → a.Mentions n h
  element : ∀ n parts m h, a.IsTuple n parts → m ∈ parts → a.Mentions m h → a.Mentions n h
  called : ∀ n g out h, a.CallNames n g → a.output? g = some out → a.Mentions out h → a.Mentions n h
  base : ∀ n f env key value, a.applied? n = some .envSet → a.inputs n = [f, env, key, value] →
    a.type? env = some .env

theorem not_mentions_of_env (hn : a.type? n = some .env) : ¬ a.Mentions n h := by
  simp [Mentions, hn, Ty.graphs]

end Arena

namespace Store

variable {s : Store} {h root : GraphId} {n out : NodeId} {e : Edge} {p : Path}
  {dead : List (GraphId × List Edge)}

/-- Whether the entry that `n` writes to an environment is a part of the root's own output. -/
def OwnEntry (s : Store) (root : GraphId) (n : NodeId) : Prop :=
  ∃ p, (p, (⟨n, 3⟩ : Edge)) ∈ s.live.parts s.arena root

theorem mem_escaping_of_mentions (hx : (p, e) ∈ s.live.parts s.arena root)
    (hn : s.arena.slot? e = some n) (hh : s.arena.Mentions n h) : h ∈ s.escaping root := by
  rw [escaping, ← OrderedSet.mem_def, OrderedSet.mem_ofList, List.mem_flatMap]
  refine ⟨(p, e), hx, ?_⟩
  simp only [hn]
  exact List.mem_append_left _ hh

/-- What flows into a node is mentioned by its annotation, unless an entry of an environment that it
passed lets it escape. -/
theorem mentions_or_mem_escaping_of_flows (hann : s.arena.WellAnnotated)
    (hflows : s.arena.Flows (s.OwnEntry root) h n) : s.arena.Mentions n h ∨ h ∈ s.escaping root := by
  induction hflows with
  | held hn => exact Or.inl (hann.held _ _ hn)
  | element ht hm _ ih => exact ih.imp_left (hann.element _ _ _ _ ht hm)
  | @entry n f env key value _ hin hown _ ih =>
    obtain ⟨p, hp⟩ := hown
    have hslot : s.arena.slot? ⟨n, 3⟩ = some value := by simp [Arena.slot?, hin]
    exact Or.inr (ih.elim (mem_escaping_of_mentions hp hslot) id)
  | base happ hin _ ih =>
    have hnone := Arena.not_mentions_of_env (h := h) (hann.base _ _ _ _ _ happ hin)
    exact ih.imp_left fun hname => absurd hname hnone
  | called hnames hout _ ih => exact ih.imp_left (hann.called _ _ _ _ hnames hout)

theorem mem_escaping_of_flows (hann : s.arena.WellAnnotated) (hout : s.arena.output? root = some out)
    (hflows : s.arena.Flows (s.OwnEntry root) h out) : h ∈ s.escaping root := by
  obtain ⟨r, hr, hslot⟩ := Arena.output?_eq_some_iff.mp hout
  have hmem : ([], ⟨r, 1⟩) ∈ s.live.parts s.arena root := by
    rw [parts_eq hr hslot]
    exact List.mem_cons_self
  exact (mentions_or_mem_escaping_of_flows hann hflows).elim (mem_escaping_of_mentions hmem hslot) id

/-- A graph that flows into the output of the root over entries of the root's own output is needed as
a whole, if it is recorded at all, and not reported dead. -/
theorem flowing_kept_of_wellAnnotated (hs : s.Reachable) (hac : s.arena.Acyclic)
    (hroot : root ∈ s.arena.graphIds) (hdead : (s.keepRoots [root]).deadEdges root = .ok dead)
    (hann : s.arena.WellAnnotated) (hout : s.arena.output? root = some out)
    (hflows : s.arena.Flows ((s.keepRoots [root]).OwnEntry root) h out) :
    ∃ ds, (s.keepRoots [root]).demands = .ok ds ∧
      (∀ p, ((s.keepRoots [root]).recordOf ds).Has (h, p) →
        (h, []) ∈ (s.keepRoots [root]).needed ds root) ∧
      (∀ x ∈ dead, x.1 ≠ h) ∧
      ((s.keepRoots [root]).PlainReturns → ∀ p pd,
        ((s.keepRoots [root]).recordOf ds).At (h, p) pd → ∀ x ∈ dead, pd.edge ∉ x.2) := by
  obtain ⟨ds, hds, -⟩ := deadEdges_spec hdead
  have han := hs.analysed hac hroot hds
  have hescaping := mem_escaping_of_flows (s := s.keepRoots [root]) hann hout hflows
  have hneeded : ∀ p, ((s.keepRoots [root]).recordOf ds).Has (h, p) →
      (h, []) ∈ (s.keepRoots [root]).needed ds root := fun p hp =>
    han.closed_needed.escaping_mem h p hescaping hp
  exact ⟨ds, hds, hneeded,
    han.not_reported hdead fun p hp => partIsLive_of_mem_needed (hneeded p hp)⟩

/-- A graph that puts a function into an environment which another graph returned after it had put one
into it, too. -/
def wrapped : Store := Store.empty.performAll
  [.newGraph "f", .addParameter ⟨0⟩ (some .int64), .setOutput ⟨0⟩ ⟨0⟩,
    .newGraph "h", .addParameter ⟨1⟩ (some .int64), .setOutput ⟨1⟩ ⟨3⟩,
    .newGraph "g", .addParameter ⟨2⟩ (some .env),
    .constant (.graph ⟨0⟩) (some (.function [.graph ⟨0⟩])), .constant (.key "a") (some .key),
    .constant (.prim .envSet) (some (.function [.prim .envSet])),
    .apply ⟨2⟩ [⟨9⟩, ⟨6⟩, ⟨8⟩, ⟨7⟩] (some .env), .setOutput ⟨2⟩ ⟨10⟩,
    .newGraph "main", .addParameter ⟨3⟩ (some .env),
    .constant (.graph ⟨2⟩) (some (.function [.graph ⟨2⟩])), .apply ⟨3⟩ [⟨14⟩, ⟨13⟩] (some .env),
    .constant (.graph ⟨1⟩) (some (.function [.graph ⟨1⟩])), .constant (.key "b") (some .key),
    .apply ⟨3⟩ [⟨9⟩, ⟨15⟩, ⟨17⟩, ⟨16⟩] (some .env), .setOutput ⟨3⟩ ⟨18⟩]

theorem called_wrapped : wrapped.Called := Called.start.performAll (by decide)

theorem acyclic_wrapped : wrapped.arena.Acyclic := Arena.acyclic_of_lt (by decide)

theorem deadEdges_wrapped :
    (wrapped.keepRoots [⟨3⟩]).deadEdges ⟨3⟩ = .ok [(⟨0⟩, [⟨⟨2⟩, 1⟩])] := by
  cbv

theorem wellAnnotated_wrapped : wrapped.arena.WellAnnotated := by
  have hheld : ∀ n ∈ wrapped.arena.nodeIds, ∀ h ∈ wrapped.arena.heldGraph? n,
      h ∈ ((wrapped.arena.type? n).map Ty.graphs).getD [] := by decide +kernel
  have htuple : ∀ n ∈ wrapped.arena.nodeIds, wrapped.arena.applied? n ≠ some .makeTuple := by
    decide
  have houtput : ∀ g ∈ wrapped.arena.graphIds, ∀ out ∈ wrapped.arena.output? g,
      ((wrapped.arena.type? out).map Ty.graphs).getD [] = [] := by decide +kernel
  have hbase : ∀ n ∈ wrapped.arena.nodeIds, wrapped.arena.applied? n = some .envSet →
      (wrapped.arena.inputs n)[1]?.bind wrapped.arena.type? = some .env :=
    by decide +kernel
  refine ⟨fun n h hn => ?_, fun n parts m h ht => ?_, fun n g out h _ hout hname => ?_,
    fun n f env key value happ hin => ?_⟩
  · obtain ⟨v, hv, -⟩ := Option.bind_eq_some_iff.mp hn
    exact hheld n (Arena.mem_nodeIds_of_value? hv) h hn
  · obtain ⟨happ, f, hin⟩ := ht
    have hmem := Arena.mem_nodeIds_of_mem_inputs (a := wrapped.arena) (m := f) (n := n) (by simp [hin])
    exact absurd happ (htuple n hmem)
  · obtain ⟨r, hr, -⟩ := Arena.output?_eq_some_iff.mp hout
    rw [Arena.Mentions, houtput g (Arena.mem_graphIds_of_ret? hr) out hout] at hname
    exact absurd hname List.not_mem_nil
  · have hmem := Arena.mem_nodeIds_of_mem_inputs (a := wrapped.arena) (m := f) (n := n) (by simp [hin])
    simpa [hin] using hbase n hmem happ

theorem parts_wrapped : (wrapped.keepRoots [⟨3⟩]).live.parts wrapped.arena ⟨3⟩ =
    [([], ⟨⟨20⟩, 1⟩), ([.key "b"], ⟨⟨18⟩, 3⟩)] := by
  cbv

theorem graphs_wrapped :
    (wrapped.keepRoots [⟨3⟩]).live.graphs.toList = [⟨3⟩, ⟨1⟩, ⟨2⟩, ⟨0⟩] := by
  cbv

/-- The function in the entry that the root writes itself is needed. -/
theorem flowing_kept_of_wellAnnotated_wrapped : ∃ ds,
    (wrapped.keepRoots [⟨3⟩]).demands = .ok ds ∧
    (⟨1⟩, []) ∈ (wrapped.keepRoots [⟨3⟩]).needed ds ⟨3⟩ := by
  have hs := called_wrapped.reachable
  have hroot : (⟨3⟩ : GraphId) ∈ wrapped.arena.graphIds := by decide
  have hown : (wrapped.keepRoots [⟨3⟩]).OwnEntry ⟨3⟩ ⟨18⟩ := by
    refine ⟨[.key "b"], ?_⟩
    rw [show (wrapped.keepRoots [⟨3⟩]).arena = wrapped.arena from rfl, parts_wrapped]
    simp
  have hupper : wrapped.arena.inputs ⟨18⟩ = [⟨9⟩, ⟨15⟩, ⟨17⟩, ⟨16⟩] := rfl
  have hflows : wrapped.arena.Flows ((wrapped.keepRoots [⟨3⟩]).OwnEntry ⟨3⟩) ⟨1⟩ ⟨18⟩ :=
    .entry (by decide) hupper hown (.held (by decide))
  obtain ⟨ds, hds, hneeded, -⟩ := flowing_kept_of_wellAnnotated hs acyclic_wrapped hroot
    deadEdges_wrapped wellAnnotated_wrapped (by decide) hflows
  have hlive : (⟨1⟩ : GraphId) ∈ (wrapped.keepRoots [⟨3⟩]).live.graphs := by
    rw [OrderedSet.mem_def, graphs_wrapped]
    decide
  have hat := (hs.analysed acyclic_wrapped hroot hds).exists_at hlive (r := ⟨5⟩) (by decide)
  exact ⟨ds, hds, hneeded [] ⟨_, hat⟩⟩

/-- The function in the entry that the called graph writes is reported dead. -/
theorem flowing_reported_dead :
    wrapped.Reachable ∧ wrapped.arena.Acyclic ∧ wrapped.arena.WellAnnotated ∧
    (∀ n ∈ wrapped.arena.nodeIds, (wrapped.arena.type? n).isSome) ∧
    ∃ out dead, wrapped.arena.output? ⟨3⟩ = some out ∧
      (wrapped.keepRoots [⟨3⟩]).deadEdges ⟨3⟩ = .ok dead ∧
      wrapped.arena.Flows (fun _ => True) ⟨0⟩ out ∧ ∃ x ∈ dead, x.1 = ⟨0⟩ := by
  have hcalls : wrapped.arena.CallNames ⟨15⟩ ⟨2⟩ :=
    ⟨⟨14⟩, [.graph ⟨2⟩], .graph ⟨2⟩, [], rfl, rfl, List.mem_singleton.mpr rfl, rfl⟩
  have hlower : wrapped.arena.inputs ⟨10⟩ = [⟨9⟩, ⟨6⟩, ⟨8⟩, ⟨7⟩] := rfl
  have hupper : wrapped.arena.inputs ⟨18⟩ = [⟨9⟩, ⟨15⟩, ⟨17⟩, ⟨16⟩] := rfl
  have hinner : wrapped.arena.Flows (fun _ => True) ⟨0⟩ ⟨10⟩ :=
    .entry (by decide) hlower trivial (.held (by decide))
  have hflows : wrapped.arena.Flows (fun _ => True) ⟨0⟩ ⟨18⟩ :=
    .base (by decide) hupper (.called hcalls (by decide) hinner)
  exact ⟨called_wrapped.reachable, acyclic_wrapped, wellAnnotated_wrapped, by decide, ⟨18⟩, _,
    by decide, deadEdges_wrapped, hflows, _, List.mem_singleton.mpr rfl, rfl⟩

end Store

end Midend
