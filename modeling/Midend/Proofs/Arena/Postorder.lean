import Midend.Merge.Groups
import Midend.Proofs.Arena.DepthFirst
import Midend.Proofs.Arena.Named

/-!
# Inputs first

Where the inputs form no cycle the post-order walk lists each node after its inputs, since none of
them leads back to the node. So grouping finds the classes of all inputs of a node before it comes to
the node.
-/

namespace Midend.Arena

variable {a : Arena} {n m r : NodeId} {done done' ns ms : List NodeId}

/-- Whether each listed node has its inputs before it, in the list or among those done already. -/
def InputsFirst (a : Arena) : List NodeId → List NodeId → Prop
  | _, [] => True
  | done, n :: ns => (∀ m ∈ a.inputs n, m ∈ done) ∧ InputsFirst a (n :: done) ns

theorem InputsFirst.mono (h : a.InputsFirst done ns) (hsub : done ⊆ done') :
    a.InputsFirst done' ns := by
  induction ns generalizing done done' with
  | nil => trivial
  | cons n ns ih =>
    exact ⟨fun m hm => hsub (h.1 m hm), ih h.2 (List.cons_subset_cons n hsub)⟩

theorem InputsFirst.append (h : a.InputsFirst done ns) (h' : a.InputsFirst (ns ++ done) ms) :
    a.InputsFirst done (ns ++ ms) := by
  induction ns generalizing done with
  | nil => exact h'
  | cons n ns ih =>
    refine ⟨h.1, ih h.2 (h'.mono fun x hx => ?_)⟩
    simp only [List.cons_append, List.mem_cons, List.mem_append] at hx ⊢
    exact or_left_comm.mp hx

/-- A list in which each node stands after its inputs. -/
theorem inputsFirst_of_split (h : ∀ before n after, ns = before ++ n :: after →
    ∀ m ∈ a.inputs n, m ∈ before ∨ m ∈ done) : a.InputsFirst done ns := by
  induction ns generalizing done with
  | nil => trivial
  | cons n ns ih =>
    have hhead : ∀ m ∈ a.inputs n, m ∈ done := fun m hm =>
      (h [] n ns rfl m hm).resolve_left List.not_mem_nil
    refine ⟨hhead, ih fun before k after heq m hm => ?_⟩
    rcases h (n :: before) k after (congrArg (n :: ·) heq) m hm with hm | hm
    · rcases List.mem_cons.mp hm with rfl | hm
      · exact Or.inr List.mem_cons_self
      · exact Or.inl hm
    · exact Or.inr (List.mem_cons_of_mem n hm)

theorem AcyclicUnder.inputsFirst_postorder (h : a.AcyclicUnder r) :
    a.InputsFirst [] (a.postorder r) := by
  refine inputsFirst_of_split fun before n after hsplit m hm => Or.inl ?_
  have hn : n ∈ a.postorder r := hsplit ▸ by simp
  have hback : ¬ a.Under m n := fun hu =>
    h n (mem_postorder_iff.mp hn) (Relation.TransGen.head' hm hu)
  exact mem_of_pair_sublist (hsplit ▸ a.nodup_postorder r) (hsplit ▸ input_before hn hm hback)

/-! ### The order in which nodes are grouped -/

theorem mem_groupOrder {root : GraphId} : n ∈ a.groupOrder root ↔ a.Returned [root] n := by
  unfold groupOrder Returned
  rw [List.mem_flatMap]
  refine exists_congr fun g => and_congr_right fun _ => ?_
  cases hr : a.ret? g with
  | none => simp
  | some r => simp [mem_postorder_iff]

theorem InputsFirst.flatMap {order : GraphId → List NodeId} {gs : List GraphId}
    (h : ∀ g ∈ gs, a.InputsFirst [] (order g)) (done : List NodeId) :
    a.InputsFirst done (gs.flatMap order) := by
  induction gs generalizing done with
  | nil => trivial
  | cons g gs ih =>
    rw [List.flatMap_cons]
    exact InputsFirst.append ((h g List.mem_cons_self).mono (List.nil_subset done))
      (ih (fun k hk => h k (List.mem_cons_of_mem g hk)) _)

/-- Where nothing that the root returns lies on a cycle, all of it is listed inputs first. -/
theorem inputsFirst_groupOrder {root : GraphId}
    (h : ∀ n, a.Returned [root] n → ¬ Relation.TransGen a.Uses n n) :
    a.InputsFirst [] (a.groupOrder root) := by
  refine InputsFirst.flatMap (fun g hg => ?_) _
  cases hr : a.ret? g with
  | none => trivial
  | some r => exact AcyclicUnder.inputsFirst_postorder fun n hu => h n ⟨g, hg, r, hr, hu⟩

theorem Acyclic.inputsFirst_groupOrder (h : a.Acyclic) (root : GraphId) :
    a.InputsFirst [] (a.groupOrder root) := Arena.inputsFirst_groupOrder fun n _ => h n

end Midend.Arena
