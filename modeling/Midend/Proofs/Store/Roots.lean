import Mathlib
import Midend.Proofs.Store.Exact

/-!
# Keeping roots

Making some graphs the only roots acquires them and then takes out what they do not reach. The
graphs that were live before may be more than their own roots reached.
-/

namespace Midend

namespace Arena

variable {a : Arena} {seen stack xs : List GraphId}

theorem newGraphs_eq_eraseDups (seen xs : List GraphId) :
    newGraphs seen xs = (xs.filter (· ∉ seen)).eraseDups := by
  induction xs generalizing seen with
  | nil => rfl
  | cons x xs ih =>
    by_cases hx : x ∈ seen
    · rw [newGraphs, if_pos hx, ih, List.filter_cons_of_neg (by simpa using hx)]
    · rw [newGraphs, if_neg hx, ih, List.filter_cons_of_pos (by simpa using hx),
        List.eraseDups_cons, List.filter_filter]
      congr 2
      apply List.filter_congr
      intro y _
      rw [Bool.eq_iff_iff]
      simp [and_comm]

theorem nodup_append_newGraphs (h : seen.Nodup) : (seen ++ newGraphs seen xs).Nodup := by
  induction xs generalizing seen with
  | nil => simpa [newGraphs] using h
  | cons x xs ih =>
    by_cases hx : x ∈ seen
    · rw [newGraphs, if_pos hx]
      exact ih h
    · rw [newGraphs, if_neg hx, List.append_cons]
      exact ih (by simpa using h.concat hx)

theorem prefix_reachableFrom (seen stack : List GraphId) :
    seen <+: a.reachableFrom seen stack := by
  fun_induction reachableFrom a seen stack with
  | case1 seen => exact List.prefix_refl seen
  | case2 seen g rest fresh ih => exact (List.prefix_append seen fresh).trans ih

theorem nodup_reachableFrom (h : seen.Nodup) : (a.reachableFrom seen stack).Nodup := by
  fun_induction reachableFrom a seen stack with
  | case1 seen => exact h
  | case2 seen g rest fresh ih => exact ih (nodup_append_newGraphs h)

/-- The search finds no graph twice. -/
theorem nodup_reachable (a : Arena) (roots : List GraphId) : (a.reachable roots).Nodup := by
  have hstart : ([] ++ newGraphs [] roots).Nodup := nodup_append_newGraphs List.nodup_nil
  exact nodup_reachableFrom hstart

/-- The search lists the graphs that it starts from before all others. -/
theorem eraseDups_prefix_reachable (a : Arena) (roots : List GraphId) :
    roots.eraseDups <+: a.reachable roots := by
  have hstart : newGraphs [] roots = roots.eraseDups := by
    simp [newGraphs_eq_eraseDups]
  rw [← hstart]
  exact prefix_reachableFrom _ _

/-- Whether a set has the graphs of a list, and with each graph the graphs that it names. -/
def ClosedOver (a : Arena) (gs : List GraphId) (S : Set GraphId) : Prop :=
  (∀ g ∈ gs, g ∈ S) ∧ ∀ g ∈ S, ∀ h, a.Names g h → h ∈ S

/-- What the search finds is the least such set. -/
theorem isLeast_reachable (a : Arena) (gs : List GraphId) :
    IsLeast {S | a.ClosedOver gs S} {g | g ∈ a.reachable gs} := by
  refine ⟨⟨fun g hg => mem_reachable.mpr ⟨g, hg, Leads.refl a g⟩, fun g hg h hn => ?_⟩, ?_⟩
  · obtain ⟨r, hr, hl⟩ := mem_reachable.mp hg
    exact mem_reachable.mpr ⟨r, hr, hl.tail hn⟩
  · intro S hS g hg
    obtain ⟨r, hr, hl⟩ := mem_reachable.mp hg
    induction hl with
    | refl => exact hS.1 r hr
    | tail hl hn ih => exact hS.2 _ (ih (mem_reachable.mpr ⟨r, hr, hl⟩)) _ hn

end Arena

theorem OrderedSet.toList_insertAll (gs : List GraphId) (s : OrderedSet GraphId) :
    (s.insertAll gs).toList = s.toList ++ Arena.newGraphs s.toList gs := by
  induction gs generalizing s with
  | nil => simp [insertAll, Arena.newGraphs]
  | cons g gs ih =>
    have hstep : s.insertAll (g :: gs) = (s.insert g).insertAll gs := rfl
    rw [hstep, ih]
    by_cases hg : g ∈ s.toList
    · rw [insert_of_mem hg, Arena.newGraphs, if_pos hg]
    · rw [toList_insert_of_not_mem hg, Arena.newGraphs, if_neg hg, ← List.append_cons]

namespace Store

variable {s : Store} {gs : List GraphId}

theorem toList_roots_keepRoots (s : Store) (gs : List GraphId) :
    (s.keepRoots gs).roots.toList = gs.eraseDups := by
  have hroots : (s.keepRoots gs).roots = OrderedSet.ofList gs := rfl
  rw [hroots, OrderedSet.ofList, OrderedSet.toList_insertAll, Arena.newGraphs_eq_eraseDups]
  simp [OrderedSet.empty]

/-- Repetitions among the graphs that a search starts from change nothing. -/
theorem mem_reachable_eraseDups {a : Arena} {g : GraphId} :
    g ∈ a.reachable gs.eraseDups ↔ g ∈ a.reachable gs := by
  simp only [Arena.mem_reachable, List.mem_eraseDups]

/-- Whatever was live before, keeping some roots leaves the graphs that they reach. -/
theorem mem_graphs_keepRoots_iff (h : s.ReachedAcyclic) (hgs : ∀ g ∈ gs, g ∈ s.arena.graphIds)
    (g : GraphId) : g ∈ (s.keepRoots gs).live.graphs ↔ g ∈ s.arena.reachable gs := by
  have hsettled : (s.keepRoots gs).Settled False :=
    h.settled.keepRoots (Or.inr h.acyclic) hgs
  have hex : (s.keepRoots gs).Exact := exact_prune hsettled
  rw [hex g, toList_roots_keepRoots, mem_reachable_eraseDups]
  rfl

/-- Whatever a store without cycles holds live, keeping some graphs makes them the roots, each once,
and leaves live the least set that has them and what its members name, with the parameters of these
graphs and what is under their return nodes. No node changes. -/
theorem keepRoots_exact (h : s.ReachedAcyclic) (hgs : ∀ g ∈ gs, g ∈ s.arena.graphIds) :
    (s.keepRoots gs).roots.toList = gs.eraseDups ∧
    IsLeast {S | s.arena.ClosedOver gs S} {g | g ∈ (s.keepRoots gs).live.graphs} ∧
    (∀ g, g ∈ (s.keepRoots gs).live.graphs ↔ g ∈ s.arena.reachable gs) ∧
    (s.arena.reachable gs).Nodup ∧
    (∀ root, gs = [root] → (s.arena.reachable gs).head? = some root) ∧
    (∀ n, n ∈ (s.keepRoots gs).live.nodes ↔ ∃ g ∈ (s.keepRoots gs).live.graphs,
      n ∈ s.arena.parameters g ∨ ∃ r, s.arena.ret? g = some r ∧ s.arena.Under r n) ∧
    (s.keepRoots gs).arena = s.arena := by
  have hgraphs := mem_graphs_keepRoots_iff h hgs
  have hsettled : (s.keepRoots gs).Settled False :=
    h.settled.keepRoots (Or.inr h.acyclic) hgs
  have hleast : IsLeast {S | s.arena.ClosedOver gs S}
      {g | g ∈ (s.keepRoots gs).live.graphs} := by
    have hsame : {g | g ∈ (s.keepRoots gs).live.graphs} = {g | g ∈ s.arena.reachable gs} :=
      Set.ext hgraphs
    rw [hsame]
    exact s.arena.isLeast_reachable gs
  have hfirst : ∀ root, gs = [root] → (s.arena.reachable gs).head? = some root := by
    intro root hroot
    obtain ⟨rest, hrest⟩ := s.arena.eraseDups_prefix_reachable gs
    rw [← hrest, hroot]
    rfl
  exact ⟨toList_roots_keepRoots s gs, hleast, hgraphs, s.arena.nodup_reachable gs, hfirst,
    fun n => hsettled.mem_nodes_iff h.acyclic, rfl⟩

/-- A store in which a graph that calls itself outlives its only caller's call. -/
def outlived : Store := (calledAlike.perform (.setOutput ⟨1⟩ ⟨5⟩)).1

theorem reachedAcyclic_outlived : outlived.ReachedAcyclic := by
  have hcalled : calledAlike.CalledAcyclic :=
    CalledAcyclic.start.performAll (of_decide_eq_true (by cbv)) (of_decide_eq_true (by cbv))
  exact (hcalled.call _ (of_decide_eq_true (by cbv)) (of_decide_eq_true (by cbv))).reachedAcyclic

/-- Keeping the caller, named twice, takes the other graph out at last. -/
theorem keepRoots_exact_outlived :
    ⟨0⟩ ∈ outlived.live.graphs ∧ (outlived.keepRoots [⟨1⟩, ⟨1⟩]).roots.toList = [⟨1⟩] ∧
      ∀ g, g ∈ (outlived.keepRoots [⟨1⟩, ⟨1⟩]).live.graphs ↔ g = ⟨1⟩ := by
  have hids : ∀ g ∈ [(⟨1⟩ : GraphId), ⟨1⟩], g ∈ outlived.arena.graphIds :=
    of_decide_eq_true (by cbv)
  have hreach : outlived.arena.reachable [⟨1⟩, ⟨1⟩] = [⟨1⟩] := by cbv
  have hgraphs : outlived.live.graphs.toList = [⟨1⟩, ⟨0⟩] := by cbv
  obtain ⟨hroots, -, hlive, -⟩ := keepRoots_exact reachedAcyclic_outlived hids
  have hdups : [(⟨1⟩ : GraphId), ⟨1⟩].eraseDups = [⟨1⟩] := by decide
  rw [hdups] at hroots
  refine ⟨?_, hroots, fun g => ?_⟩
  · rw [OrderedSet.mem_def, hgraphs]
    decide
  · rw [hlive g, hreach, List.mem_singleton]

end Store

end Midend
