import Mathlib
import Midend.Demand.Callee
import Midend.Proofs.Store.Calls
import Midend.Store.Build

/-!
# Annotations of bound arguments

Binding arguments to a function annotates the apply with the targets of the function, each with the
annotations of the arguments bound to it. An argument that has no annotation is passed over, and the
entries after it move up.
-/

namespace Midend

/-- A list without repetitions is taken over as it is. -/
theorem OrderedSet.toList_insertAll_of_nodup {α : Type} [DecidableEq α] {xs : List α}
    {s : OrderedSet α} (h : (s.toList ++ xs).Nodup) : (s.insertAll xs).toList = s.toList ++ xs := by
  induction xs generalizing s with
  | nil => exact (List.append_nil _).symm
  | cons x xs ih =>
    have hx : x ∉ s := fun hx => (List.nodup_append.mp h).2.2 x hx x List.mem_cons_self rfl
    have hinsert := toList_insert_of_not_mem hx
    rw [List.append_cons, ← hinsert] at h
    have hstep : s.insertAll (x :: xs) = (s.insert x).insertAll xs := rfl
    rw [hstep, ih h, hinsert, ← List.append_cons]

theorem Ty.functionOf_of_nodup {ts : List Target} (h : ts.Nodup) :
    Ty.functionOf ts = .function ts := by
  have hlist : (OrderedSet.ofList ts).toList = [] ++ ts :=
    OrderedSet.toList_insertAll_of_nodup (s := .empty) h
  rw [Ty.functionOf, hlist, List.nil_append]

/-! ### One target -/

/-- A target with arguments bound has the same callee, and the arguments come after those that were
bound before. -/
theorem Target.callee_bound (t : Target) (args : List Ty) :
    (t.bound args).callee = t.callee.map fun (c, before) => (c, before ++ args) := rfl

/-- Whether `us` are the targets `ts` with `args` bound: as many different ones, in the same order,
with the callees that they had. -/
structure Bound (ts us : List Target) (args : List Ty) : Prop where
  nodup : us.Nodup
  callee : List.Forall₂ (fun t u => u.callee = t.callee.map fun (c, before) => (c, before ++ args))
    ts us

theorem Bound.refl {ts : List Target} (h : ts.Nodup) : Bound ts ts [] := by
  refine ⟨h, List.forall₂_same.mpr fun t _ => ?_⟩
  cases t.callee <;> simp [Except.map]

theorem Bound.trans {ts us vs : List Target} {xs ys : List Ty} (h : Bound ts us xs)
    (h' : Bound us vs ys) : Bound ts vs (xs ++ ys) := by
  refine ⟨h'.nodup, ?_⟩
  have hboth := h.callee
  have hnext := h'.callee
  clear h h'
  induction hboth generalizing vs with
  | nil =>
    obtain rfl := List.forall₂_nil_left_iff.mp hnext
    exact .nil
  | @cons t u ts us htu _ ih =>
    obtain ⟨v, vs, huv, hrest, rfl⟩ := List.forall₂_cons_left_iff.mp hnext
    refine .cons ?_ (ih hrest)
    rw [huv, htu]
    cases t.callee <;> simp [Except.map]

theorem bound_map {ts : List Target} (h : ts.Nodup) (args : List Ty) :
    Bound ts (ts.map (Target.bound · args)) args := by
  refine ⟨h.map fun t u heq => (Target.bound.inj heq).1, ?_⟩
  rw [List.forall₂_map_right_iff]
  exact List.forall₂_same.mpr fun t _ => t.callee_bound args

/-- A further node leaves annotations as they are. -/
theorem Arena.type?_addNode_of_some {a : Arena} {n : NodeId} {t : Ty} (h : a.type? n = some t)
    (k : NodeKind) (o : Option GraphId) (t' : Option Ty) :
    (a.addNode k o t').2.type? n = some t := by
  obtain ⟨d, hd, -⟩ := Option.bind_eq_some_iff.mp h
  have hmem : n ∈ a.nodeIds := Arena.mem_nodeIds_iff_node?.mpr (by simp [hd])
  rw [Arena.type?_congr (a.node?_addNode_of_mem k o t' hmem), h]

namespace Store

variable {s : Store} {g : GraphId} {func n : NodeId} {args : List NodeId} {ts : List Target}
  {t : Ty}

/-! ### One level -/

theorem type?_bindArgs (s : Store) (g : GraphId) (func : NodeId) (args : List NodeId) :
    (s.bindArgs g func args).2.arena.type? (s.bindArgs g func args).1 =
      boundType? (s.arena.type? func) (args.filterMap s.arena.type?) := by
  simp only [bindArgs, callPrim, call, Arena.type?, node?_apply]
  rfl

theorem type?_bindArgs_of_some (hn : s.arena.type? n = some t) :
    (s.bindArgs g func args).2.arena.type? n = some t :=
  Arena.type?_addNode_of_some (Arena.type?_addNode_of_some hn _ _ _) _ _ _

/-- The apply is annotated with the targets of the function, bound to what the arguments are
annotated with. -/
theorem exists_bound_bindArgs (hf : s.arena.type? func = some (.function ts)) (hts : ts.Nodup)
    (g : GraphId) (args : List NodeId) : ∃ us,
      (s.bindArgs g func args).2.arena.type? (s.bindArgs g func args).1 = some (.function us) ∧
      Bound ts us (args.filterMap s.arena.type?) := by
  have hbound := bound_map hts (args.filterMap s.arena.type?)
  refine ⟨_, ?_, hbound⟩
  rw [type?_bindArgs, hf]
  exact congrArg some (Ty.functionOf_of_nodup hbound.nodup)

/-- Annotated arguments have one entry each. -/
theorem forall₂_entries (hargs : ∀ n ∈ args, (s.arena.type? n).isSome = true) :
    List.Forall₂ (fun n t => s.arena.type? n = some t) args (args.filterMap s.arena.type?) := by
  induction args with
  | nil => exact .nil
  | cons n args ih =>
    obtain ⟨t, ht⟩ := Option.isSome_iff_exists.mp (hargs n List.mem_cons_self)
    rw [List.filterMap_cons_some ht]
    exact .cons ht (ih fun m hm => hargs m (List.mem_cons_of_mem n hm))

/-! ### Levels -/

/-- Binds the arguments of each level to what came of the levels before; each apply has a graph of
its own. -/
def bindLevels (s : Store) (func : NodeId) : List (GraphId × List NodeId) → NodeId × Store
  | [] => (func, s)
  | (g, args) :: levels =>
    let (n, s) := s.bindArgs g func args
    s.bindLevels n levels

theorem exists_bound_bindLevels {levels : List (GraphId × List NodeId)}
    (hf : s.arena.type? func = some (.function ts)) (hts : ts.Nodup)
    (hargs : ∀ n ∈ levels.flatMap Prod.snd, (s.arena.type? n).isSome = true) : ∃ us,
      (s.bindLevels func levels).2.arena.type? (s.bindLevels func levels).1 =
        some (.function us) ∧
      Bound ts us ((levels.flatMap Prod.snd).filterMap s.arena.type?) := by
  induction levels generalizing s func ts with
  | nil => exact ⟨ts, hf, .refl hts⟩
  | cons level levels ih =>
    obtain ⟨g, args⟩ := level
    obtain ⟨us, hus, hone⟩ := exists_bound_bindArgs hf hts g args
    have hlater : ∀ n ∈ levels.flatMap Prod.snd,
        (s.bindArgs g func args).2.arena.type? n = s.arena.type? n := by
      intro n hn
      obtain ⟨t, ht⟩ := Option.isSome_iff_exists.mp (hargs n (by simp [hn]))
      rw [type?_bindArgs_of_some ht, ht]
    obtain ⟨vs, hvs, hrest⟩ := ih hus hone.nodup fun n hn => by
      rw [hlater n hn]
      exact hargs n (by simp [hn])
    refine ⟨vs, hvs, ?_⟩
    rw [List.flatMap_cons, List.filterMap_append, ← List.filterMap_congr hlater]
    exact hone.trans hrest

/-- Binding arguments to a function keeps the number of its targets and their callees, and appends
the annotations of the annotated arguments to what was bound before; that is an entry for each
argument exactly if all are annotated. Where they are, the entries of any number of levels stand in
the order in which the arguments were bound. -/
theorem bound_entries_in_order (hf : s.arena.type? func = some (.function ts)) (hts : ts.Nodup) :
    (∀ g args, ∃ us,
      (s.bindArgs g func args).2.arena.type? (s.bindArgs g func args).1 = some (.function us) ∧
      Bound ts us (args.filterMap s.arena.type?) ∧
      ((args.filterMap s.arena.type?).length = args.length ↔
        ∀ n ∈ args, (s.arena.type? n).isSome = true)) ∧
    ∀ levels : List (GraphId × List NodeId),
      (∀ n ∈ levels.flatMap Prod.snd, (s.arena.type? n).isSome = true) → ∃ us entries,
        (s.bindLevels func levels).2.arena.type? (s.bindLevels func levels).1 =
          some (.function us) ∧
        List.Forall₂ (fun n t => s.arena.type? n = some t) (levels.flatMap Prod.snd) entries ∧
        Bound ts us entries := by
  constructor
  · intro g args
    obtain ⟨us, hus, hbound⟩ := exists_bound_bindArgs hf hts g args
    exact ⟨us, hus, hbound, List.filterMap_length_eq_length⟩
  · intro levels hargs
    obtain ⟨us, hus, hbound⟩ := exists_bound_bindLevels hf hts hargs
    exact ⟨us, _, hus, forall₂_entries hargs, hbound⟩

/-- A graph with two annotated parameters and one without annotation, and a function that is one of
two operations. -/
def unbound : Store := Store.empty.performAll
  [.newGraph "main", .addParameter ⟨0⟩ (some .int64), .addParameter ⟨0⟩ (some .env),
    .addParameter ⟨0⟩ none,
    .constant (.prim .arrayMap) (some (.function [.prim .arrayMap, .prim .add]))]

theorem bound_entries_in_order_unbound : ∃ u v,
    (unbound.bindLevels ⟨3⟩ [(⟨0⟩, [⟨0⟩]), (⟨0⟩, [⟨1⟩, ⟨0⟩])]).2.arena.type?
      (unbound.bindLevels ⟨3⟩ [(⟨0⟩, [⟨0⟩]), (⟨0⟩, [⟨1⟩, ⟨0⟩])]).1 = some (.function [u, v]) ∧
    u.callee = .ok (.prim .arrayMap, [.int64, .env, .int64]) ∧
    v.callee = .ok (.prim .add, [.int64, .env, .int64]) := by
  have hf : unbound.arena.type? ⟨3⟩ = some (.function [.prim .arrayMap, .prim .add]) := by cbv
  obtain ⟨us, entries, hus, hentries, hbound⟩ := (bound_entries_in_order hf (by simp)).2
    [(⟨0⟩, [⟨0⟩]), (⟨0⟩, [⟨1⟩, ⟨0⟩])] (of_decide_eq_true (by cbv))
  have h₀ : unbound.arena.type? ⟨0⟩ = some .int64 := by cbv
  have h₁ : unbound.arena.type? ⟨1⟩ = some .env := by cbv
  obtain rfl : entries = [.int64, .env, .int64] := by
    simpa [List.forall₂_cons_left_iff, h₀, h₁, eq_comm] using hentries
  obtain ⟨u, hu, v, hv, rfl⟩ : ∃ u, u.callee = .ok (.prim .arrayMap, [.int64, .env, .int64]) ∧
      ∃ v, v.callee = .ok (.prim .add, [.int64, .env, .int64]) ∧ us = [u, v] := by
    simpa [List.forall₂_cons_left_iff, Target.callee, Except.map] using hbound.callee
  exact ⟨u, v, hus, hu, hv⟩

/-- Of two arguments the first is not annotated, and the second takes its place. -/
theorem bound_entry_shifted : unbound.Reachable ∧ unbound.arena.type? ⟨2⟩ = none ∧
    unbound.arena.type? ⟨0⟩ = some .int64 ∧ ∃ u v,
      (unbound.bindArgs ⟨0⟩ ⟨3⟩ [⟨2⟩, ⟨0⟩]).2.arena.type?
        (unbound.bindArgs ⟨0⟩ ⟨3⟩ [⟨2⟩, ⟨0⟩]).1 = some (.function [u, v]) ∧
      u.callee = .ok (.prim .arrayMap, [.int64]) ∧ v.callee = .ok (.prim .add, [.int64]) := by
  have hcalled : unbound.Called := Called.start.performAll (of_decide_eq_true (by cbv))
  exact ⟨hcalled.reachable, by cbv, by cbv, .bound (.prim .arrayMap) [.int64],
    .bound (.prim .add) [.int64], by cbv, rfl, rfl⟩

end Store

end Midend
