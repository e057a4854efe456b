import Midend.Proofs.Live.Agrees

/-!
# What an acquisition and a release can do

An acquisition makes no graph live that the agenda does not lead to over inputs, named graphs and
anchors, and takes no node out. A release that reports no dropped constant takes none out that names
a graph.
-/

namespace Midend

namespace Live

variable {a : Arena} {l : Live} {agenda : List Wanted} {P : Wanted → Prop}

theorem closed_enterNodes (hheld : ∀ n g, P (.node n) → a.heldGraph? n = some g → P (.graph g))
    (hin : ∀ n, P (.node n) → ∀ m ∈ a.inputs n, P (.node m)) (held : List GraphId)
    (stack : List NodeId) (hstack : ∀ n ∈ stack, P (.node n)) (hall : ∀ g ∈ held, P (.graph g)) :
    ∀ g ∈ (l.enterNodes a held stack).2, P (.graph g) := by
  fun_induction Live.enterNodes a l held stack with
  | case1 l held => exact hall
  | case2 l held n rest hn ih => exact ih (fun m hm => hstack m (List.mem_cons_of_mem n hm)) hall
  | case3 l held n rest hn ih =>
    have hP := hstack n List.mem_cons_self
    refine ih (fun m hm => ?_) fun g hg => ?_
    · rcases List.mem_append.mp hm with hm | hm
      · exact hin n hP m (List.mem_reverse.mp hm)
      · exact hstack m (List.mem_cons_of_mem n hm)
    · rcases List.mem_append.mp hg with hg | hg
      · exact hall g hg
      · exact hheld n g hP (Option.mem_toList.mp hg)

/-- A graph becomes live only if every set that holds the agenda and is closed under inputs, named
graphs and anchors holds it. -/
theorem closed_acquire (hheld : ∀ n g, P (.node n) → a.heldGraph? n = some g → P (.graph g))
    (hin : ∀ n, P (.node n) → ∀ m ∈ a.inputs n, P (.node m))
    (hanch : ∀ g, P (.graph g) → ∀ n ∈ a.anchors g, P (.node n))
    (hagenda : ∀ w ∈ agenda, P w) :
    ∀ g ∈ (l.acquire a agenda).graphs, g ∈ l.graphs ∨ P (.graph g) := by
  fun_induction Live.acquire a l agenda with
  | case1 l => exact fun g hg => Or.inl hg
  | case2 l n rest r =>
    rename_i ih
    intro g hg
    have hnext : ∀ w ∈ r.2.map Wanted.graph ++ rest, P w := by
      intro w hw
      rcases List.mem_append.mp hw with hw | hw
      · obtain ⟨g, hg, rfl⟩ := List.mem_map.mp hw
        refine closed_enterNodes hheld hin [] [n] (fun m hm => ?_) (by simp) g hg
        exact List.mem_singleton.mp hm ▸ hagenda _ List.mem_cons_self
      · exact hagenda w (List.mem_cons_of_mem _ hw)
    have hgraphs : r.1.graphs = l.graphs := graphs_enterNodes a l [] [n]
    exact hgraphs ▸ ih hnext g hg
  | case3 l g rest hg ih => exact ih fun w hw => hagenda w (List.mem_cons_of_mem _ hw)
  | case4 l g rest hg ih =>
    have hP := hagenda _ List.mem_cons_self
    intro g' hg'
    have hnext : ∀ w ∈ (a.anchors g).map Wanted.node ++ rest, P w := by
      intro w hw
      rcases List.mem_append.mp hw with hw | hw
      · obtain ⟨n, hn, rfl⟩ := List.mem_map.mp hw
        exact hanch g hP n hn
      · exact hagenda w (List.mem_cons_of_mem _ hw)
    rcases ih hnext g' hg' with hg' | hg'
    · rcases OrderedSet.mem_insert.mp hg' with rfl | hg'
      · exact Or.inr hP
      · exact Or.inl hg'
    · exact Or.inr hg'

theorem release_dropped {stack : List NodeId} {dropped : Bool} (hd : dropped = true) :
    (l.release a dropped stack).2 = true := by
  fun_induction Live.release a l dropped stack with
  | case1 l dropped => exact hd
  | case2 l dropped n rest hr r =>
    rename_i ih
    exact ih (by rw [hd, Bool.true_or])
  | case3 l dropped n rest hr ih => exact ih hd

/-- A release that reports no dropped constant keeps every constant that names a graph. -/
theorem mem_nodes_release {stack : List NodeId} {dropped : Bool} {n : NodeId}
    (hkeep : (l.release a dropped stack).2 = false) (hn : n ∈ l.nodes)
    (hheld : (a.heldGraph? n).isSome = true) : n ∈ (l.release a dropped stack).1.nodes := by
  fun_induction Live.release a l dropped stack with
  | case1 l dropped => exact hn
  | case2 l dropped m rest hr r =>
    rename_i ih
    refine ih hkeep ?_
    rw [nodes_leaveNode, OrderedSet.mem_eraseFill]
    refine ⟨?_, hn⟩
    rintro rfl
    rw [release_dropped (by rw [hheld, Bool.or_true])] at hkeep
    cases hkeep
  | case3 l dropped m rest hr ih => exact ih hkeep hn

theorem mem_nodes_enterNodes {n : NodeId} (held : List GraphId) (stack : List NodeId)
    (hn : n ∈ l.nodes) : n ∈ (l.enterNodes a held stack).1.nodes := by
  fun_induction Live.enterNodes a l held stack with
  | case1 l held => exact hn
  | case2 l held m rest hm ih => exact ih hn
  | case3 l held m rest hm ih =>
    exact ih (by rw [nodes_enterNode]; exact OrderedSet.mem_insert.mpr (Or.inr hn))

theorem mem_nodes_acquire {n : NodeId} (hn : n ∈ l.nodes) : n ∈ (l.acquire a agenda).nodes := by
  fun_induction Live.acquire a l agenda with
  | case1 l => exact hn
  | case2 l m rest r =>
    rename_i ih
    exact ih (mem_nodes_enterNodes [] [m] hn)
  | case3 l g rest hg ih => exact ih hn
  | case4 l g rest hg ih => exact ih hn

end Live

end Midend
