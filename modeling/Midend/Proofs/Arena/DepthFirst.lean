import Mathlib.Data.List.Nodup
import Midend.Proofs.Arena.Under

/-!
# Depth first

A recursive search visits the nodes of a list from left to right: a node that was not met before is
entered, then its inputs are visited, then it is left. The two walks make the same search with a
stack of visits to come, which may hold a node several times and long after it was met; one lists
the nodes as the search enters them, the other as it leaves them.
-/

namespace Midend

/-- The nodes that a search enters, in this order, and the nodes that it leaves, in that order. -/
structure Traversal where
  entered : List NodeId
  left : List NodeId

/-- A loop in its course: what is still on the stack, the nodes seen, and the nodes listed. -/
structure Loop (α : Type) where
  stack : List α
  seen : List NodeId
  listed : List NodeId

namespace Loop

variable {α : Type} {step : Loop α → Option (Loop α)} {s s' t : Loop α}

/-- Whether steps lead from `s` to `t`. -/
def Runs (step : Loop α → Option (Loop α)) (s t : Loop α) : Prop :=
  Relation.ReflTransGen (fun s s' => step s = some s') s t

/-- Whether the loop that starts in `s` ends in `t`. -/
def Ends (step : Loop α → Option (Loop α)) (s t : Loop α) : Prop := Runs step s t ∧ step t = none

theorem Runs.refl (step : Loop α → Option (Loop α)) (s : Loop α) : Runs step s s :=
  Relation.ReflTransGen.refl

theorem Runs.head (h : step s = some s') (h' : Runs step s' t) : Runs step s t :=
  Relation.ReflTransGen.head h h'

theorem Runs.trans (h : Runs step s s') (h' : Runs step s' t) : Runs step s t :=
  Relation.ReflTransGen.trans h h'

end Loop

namespace Arena

variable {a : Arena} {m n r : NodeId} {met seen ns drop : List NodeId}

/-- The search from the nodes of a list, those in `met` not being entered again. -/
def traverse (a : Arena) (met : List NodeId) : List NodeId → Traversal
  | [] => ⟨[], []⟩
  | n :: ns =>
    if n ∈ met then traverse a met ns
    else
      let below := traverse a (n :: met) (a.inputs n)
      let after := traverse a (below.entered.reverse ++ n :: met) ns
      ⟨n :: below.entered ++ after.entered, below.left ++ n :: after.left⟩
termination_by ns => (unseen a.nodeIds met, ns.length)
decreasing_by
  · exact Prod.Lex.right _ (Nat.lt_succ_self _)
  · next hn =>
    by_cases hmem : n ∈ a.nodeIds
    · exact Prod.Lex.left _ _ (unseen_cons_lt hmem hn)
    · rw [a.inputs_eq_nil hmem]
      exact Prod.Lex.right' _ (unseen_le _ (List.subset_cons_self n met)) (Nat.succ_pos _)
  · have hmore : met ⊆ below.entered.reverse ++ n :: met := fun x hx =>
      List.mem_append_right _ (List.mem_cons_of_mem n hx)
    exact Prod.Lex.right' _ (unseen_le _ hmore) (Nat.lt_succ_self _)

/-- What is entered is left. -/
theorem left_perm_entered (met ns : List NodeId) :
    (a.traverse met ns).left.Perm (a.traverse met ns).entered := by
  fun_induction traverse a met ns with
  | case1 met => exact List.Perm.refl []
  | case2 met n ns hn ih => exact ih
  | case3 met n ns hn below after ih_below ih_after =>
    exact List.perm_middle.trans ((ih_below.append ih_after).cons n)

/-- A step of the loop behind `postorder`. A node that is taken from the stack for the first time is
put back, to be listed after those of its inputs that were not seen yet. -/
def postorderStep (a : Arena) : Loop Visit → Option (Loop Visit)
  | ⟨[], _, _⟩ => none
  | ⟨.leave n :: rest, seen, listed⟩ => some ⟨rest, seen, listed ++ [n]⟩
  | ⟨.enter n :: rest, seen, listed⟩ =>
    if n ∈ seen then some ⟨rest, seen, listed⟩
    else some ⟨((a.inputs n).filter (· ∉ n :: seen)).map .enter ++ .leave n :: rest, n :: seen,
      listed⟩

/-- A step of the loop behind `preorder`. -/
def preorderStep (a : Arena) : Loop NodeId → Option (Loop NodeId)
  | ⟨[], _, _⟩ => none
  | ⟨n :: rest, seen, listed⟩ =>
    if n ∈ seen then some ⟨rest, seen, listed⟩
    else some ⟨(a.inputs n).filter (· ∉ n :: seen) ++ rest, n :: seen, listed ++ [n]⟩

/-! ### The walks list what the search meets -/

theorem postorderFrom_enter_all (met ns : List NodeId) (rest : List Visit) :
    a.postorderFrom met (ns.map .enter ++ rest) = (a.traverse met ns).left ++
      a.postorderFrom ((a.traverse met ns).entered.reverse ++ met) rest := by
  fun_induction traverse a met ns generalizing rest with
  | case1 met => rfl
  | case2 met n ns hn ih => rw [List.map_cons, List.cons_append, postorderFrom, if_pos hn, ih]
  | case3 met n ns hn below after ih_below ih_after =>
    rw [List.map_cons, List.cons_append, postorderFrom, if_neg hn, ih_below, postorderFrom, ih_after]
    simp [below, after]

theorem preorderFrom_append (met ns rest : List NodeId) :
    a.preorderFrom met (ns ++ rest) = (a.traverse met ns).entered ++
      a.preorderFrom ((a.traverse met ns).entered.reverse ++ met) rest := by
  fun_induction traverse a met ns generalizing rest with
  | case1 met => rfl
  | case2 met n ns hn ih => rw [List.cons_append, preorderFrom, if_pos hn, ih]
  | case3 met n ns hn below after ih_below ih_after =>
    rw [List.cons_append, preorderFrom, if_neg hn, ih_below, ih_after]
    simp [below, after]

theorem postorder_eq_left (a : Arena) (r : NodeId) : a.postorder r = (a.traverse [] [r]).left := by
  have h := a.postorderFrom_enter_all [] [r] []
  rwa [postorderFrom, List.append_nil, List.append_nil] at h

/-- The start is listed last. -/
theorem postorder_eq_append (a : Arena) (r : NodeId) :
    a.postorder r = (a.traverse [r] (a.inputs r)).left ++ [r] := by
  rw [postorder, postorderFrom, if_neg List.not_mem_nil, postorderFrom_enter_all, postorderFrom,
    postorderFrom]

theorem preorderFrom_eq_entered (met ns : List NodeId) :
    a.preorderFrom met ns = (a.traverse met ns).entered := by
  have h := a.preorderFrom_append met ns []
  rwa [preorderFrom, List.append_nil, List.append_nil] at h

theorem preorder_eq_entered (a : Arena) (r : NodeId) :
    a.preorder r = (a.traverse [] [r]).entered := preorderFrom_eq_entered [] [r]

/-! ### Each node under the start once -/

theorem nodup_traverse (h : met.Nodup) : ((a.traverse met ns).entered.reverse ++ met).Nodup := by
  fun_induction traverse a met ns with
  | case1 met => exact h
  | case2 met n ns hn ih => exact ih h
  | case3 met n ns hn below after ih_below ih_after =>
    have hafter := ih_after (ih_below (List.nodup_cons.mpr ⟨hn, h⟩))
    simpa [below, after] using hafter

/-- Every node of the list was met before or is entered. -/
theorem mem_traverse_of_mem (hn : n ∈ ns) : n ∈ met ∨ n ∈ (a.traverse met ns).entered := by
  fun_induction traverse a met ns with
  | case1 met => cases hn
  | case2 met k ns hk ih =>
    rcases List.mem_cons.mp hn with rfl | hn
    · exact Or.inl hk
    · exact ih hn
  | case3 met k ns hk below after ih_below ih_after =>
    rcases List.mem_cons.mp hn with rfl | hn
    · exact Or.inr List.mem_cons_self
    · rcases ih_after hn with h | h
      · rcases List.mem_append.mp h with h | h
        · have hbelow := List.mem_cons_of_mem k (List.mem_reverse.mp h)
          exact Or.inr (List.mem_append_left _ hbelow)
        · rcases List.mem_cons.mp h with rfl | h
          · exact Or.inr List.mem_cons_self
          · exact Or.inl h
      · exact Or.inr (List.mem_append_right _ h)

/-- Every node that is entered lies under a node of the list. -/
theorem under_of_mem_traverse (h : m ∈ (a.traverse met ns).entered) : ∃ n ∈ ns, a.Under n m :=
  under_of_mem_preorderFrom (preorderFrom_eq_entered met ns ▸ h)

theorem nodup_preorder (a : Arena) (r : NodeId) : (a.preorder r).Nodup := by
  have h : ((a.traverse [] [r]).entered.reverse ++ []).Nodup := nodup_traverse List.nodup_nil
  rw [List.append_nil, List.nodup_reverse] at h
  rwa [preorder_eq_entered]

theorem postorder_perm_preorder (a : Arena) (r : NodeId) :
    (a.postorder r).Perm (a.preorder r) := by
  rw [postorder_eq_left, preorder_eq_entered]
  exact left_perm_entered [] [r]

theorem nodup_postorder (a : Arena) (r : NodeId) : (a.postorder r).Nodup :=
  (a.postorder_perm_preorder r).nodup_iff.mpr (a.nodup_preorder r)

theorem mem_postorder_iff : m ∈ a.postorder r ↔ a.Under r m :=
  (a.postorder_perm_preorder r).mem_iff.trans mem_preorder

/-! ### Inputs before their users -/

/-- An input of a node that is left was met before the search, leads back to the node, or is left
before it. -/
theorem input_left_before (hn : n ∈ (a.traverse met ns).left) (hm : m ∈ a.inputs n) :
    m ∈ met ∨ a.Under m n ∨ [m, n].Sublist (a.traverse met ns).left := by
  fun_induction traverse a met ns with
  | case1 met => cases hn
  | case2 met k ns hk ih => exact ih hn
  | case3 met k ns hk below after ih_below ih_after =>
    have hleft : ∀ x, x ∈ below.entered → [x].Sublist below.left := fun x hx =>
      List.singleton_sublist.mpr ((left_perm_entered _ _).mem_iff.mpr hx)
    rcases List.mem_append.mp hn with hn | hn
    · rcases ih_below hn with h | h | h
      · rcases List.mem_cons.mp h with rfl | h
        · -- the node in course of being visited has `n` under it
          obtain ⟨j, hj, hu⟩ := under_of_mem_traverse ((left_perm_entered _ _).mem_iff.mp hn)
          exact Or.inr (Or.inl (Under.of_inputs hj hu))
        · exact Or.inl h
      · exact Or.inr (Or.inl h)
      · exact Or.inr (Or.inr (h.trans (List.sublist_append_left _ _)))
    · rcases List.mem_cons.mp hn with rfl | hn
      · have hmet : m ∈ n :: met ∨ m ∈ below.entered := mem_traverse_of_mem hm
        rcases hmet with h | h
        · rcases List.mem_cons.mp h with rfl | h
          · exact Or.inr (Or.inl (Under.refl a m))
          · exact Or.inl h
        · exact Or.inr (Or.inr ((hleft m h).append ((List.nil_sublist _).cons_cons n)))
      · have hafter : [n].Sublist after.left := List.singleton_sublist.mpr hn
        rcases ih_after hn with h | h | h
        · rcases List.mem_append.mp h with h | h
          · have hbelow := hleft m (List.mem_reverse.mp h)
            exact Or.inr (Or.inr (hbelow.append (hafter.cons k)))
          · rcases List.mem_cons.mp h with rfl | h
            · exact Or.inr (Or.inr ((hafter.cons_cons m).trans (List.sublist_append_right _ _)))
            · exact Or.inl h
        · exact Or.inr (Or.inl h)
        · exact Or.inr (Or.inr ((h.cons k).trans (List.sublist_append_right _ _)))

theorem input_before (hn : n ∈ a.postorder r) (hm : m ∈ a.inputs n) (hback : ¬ a.Under m n) :
    [m, n].Sublist (a.postorder r) := by
  rw [postorder_eq_left] at hn ⊢
  rcases input_left_before hn hm with h | h | h
  · cases h
  · exact absurd h hback
  · exact h

theorem mem_of_pair_sublist {before after : List NodeId} (hnodup : (before ++ n :: after).Nodup)
    (h : [m, n].Sublist (before ++ n :: after)) : m ∈ before := by
  have hn : n ∉ after := (List.nodup_cons.mp (List.nodup_append.mp hnodup).2.1).1
  have hsecond : ∀ {ks : List NodeId}, ks.Sublist after → n ∉ ks := fun hks hk => hn (hks.mem hk)
  obtain ⟨front, back, hpair, hfront, hback⟩ := List.sublist_append_iff.mp h
  cases front with
  | nil =>
    rw [List.nil_append] at hpair
    subst hpair
    cases hback with
    | cons _ hback => exact absurd (by simp) (hsecond hback)
    | cons_cons _ hback => exact absurd (by simp) (hsecond hback)
  | cons x front =>
    obtain ⟨rfl, -⟩ := List.cons.inj hpair
    exact hfront.mem List.mem_cons_self

/-! ### The loops with their stacks -/

/-- With the nodes of a list on top of the stack, some left out that are seen, the loop lists what
the traversal leaves and comes back to the rest of the stack. -/
theorem runs_postorderStep (rest : List Visit) (listed : List NodeId) : drop ⊆ seen →
    Loop.Runs a.postorderStep ⟨(ns.filter (· ∉ drop)).map .enter ++ rest, seen, listed⟩
      ⟨rest, (a.traverse seen ns).entered.reverse ++ seen, listed ++ (a.traverse seen ns).left⟩ := by
  fun_induction traverse a seen ns generalizing drop rest listed with
  | case1 seen =>
    intro _
    simpa using Loop.Runs.refl a.postorderStep _
  | case2 seen n ns hn ih =>
    intro hdrop
    by_cases hd : n ∈ drop
    · rw [List.filter_cons_of_neg (by simpa using hd)]
      exact ih rest listed hdrop
    · rw [List.filter_cons_of_pos (by simpa using hd)]
      exact Loop.Runs.head (if_pos hn) (ih rest listed hdrop)
  | case3 seen n ns hn below after ih_below =>
    rename_i ih_after
    intro hdrop
    have hdrop' : drop ⊆ below.entered.reverse ++ n :: seen := fun x hx =>
      List.mem_append_right _ (List.mem_cons_of_mem n (hdrop hx))
    have hafter := ih_after rest (listed ++ below.left ++ [n]) hdrop'
    rw [List.filter_cons_of_pos (by simpa using fun hd => hn (hdrop hd))]
    refine Loop.Runs.head (if_neg hn) ((ih_below _ listed (List.Subset.refl _)).trans ?_)
    exact Loop.Runs.head rfl (by simpa [below, after] using hafter)

theorem runs_preorderStep (rest listed : List NodeId) : drop ⊆ seen →
    Loop.Runs a.preorderStep ⟨ns.filter (· ∉ drop) ++ rest, seen, listed⟩
      ⟨rest, (a.traverse seen ns).entered.reverse ++ seen,
        listed ++ (a.traverse seen ns).entered⟩ := by
  fun_induction traverse a seen ns generalizing drop rest listed with
  | case1 seen =>
    intro _
    simpa using Loop.Runs.refl a.preorderStep _
  | case2 seen n ns hn ih =>
    intro hdrop
    by_cases hd : n ∈ drop
    · rw [List.filter_cons_of_neg (by simpa using hd)]
      exact ih rest listed hdrop
    · rw [List.filter_cons_of_pos (by simpa using hd)]
      exact Loop.Runs.head (if_pos hn) (ih rest listed hdrop)
  | case3 seen n ns hn below after ih_below =>
    rename_i ih_after
    intro hdrop
    have hdrop' : drop ⊆ below.entered.reverse ++ n :: seen := fun x hx =>
      List.mem_append_right _ (List.mem_cons_of_mem n (hdrop hx))
    have hafter := ih_after rest (listed ++ [n] ++ below.entered) hdrop'
    rw [List.filter_cons_of_pos (by simpa using fun hd => hn (hdrop hd))]
    refine Loop.Runs.head (if_neg hn) ((ih_below _ (listed ++ [n]) (List.Subset.refl _)).trans ?_)
    simpa [below, after] using hafter

theorem ends_postorderStep (a : Arena) (r : NodeId) :
    ∃ seen, Loop.Ends a.postorderStep ⟨[.enter r], [], []⟩ ⟨[], seen, a.postorder r⟩ := by
  have h : Loop.Runs a.postorderStep ⟨[.enter r], [], []⟩ _ :=
    @runs_postorderStep a [] [r] [] [] [] (List.Subset.refl [])
  rw [postorder_eq_left]
  exact ⟨_, h, rfl⟩

theorem ends_preorderStep (a : Arena) (r : NodeId) :
    ∃ seen, Loop.Ends a.preorderStep ⟨[r], [], []⟩ ⟨[], seen, a.preorder r⟩ := by
  have h : Loop.Runs a.preorderStep ⟨[r], [], []⟩ _ :=
    @runs_preorderStep a [] [r] [] [] [] (List.Subset.refl [])
  rw [preorder_eq_entered]
  exact ⟨_, h, rfl⟩

/-- On every arena both loops end, with the orders in which the traversal leaves and enters the nodes.
Each lists the nodes under the start, each once. An input that does not lead back to its user is left
before the user. -/
theorem orders_depthFirst (a : Arena) (r : NodeId) :
    (∃ seen, Loop.Ends a.postorderStep ⟨[.enter r], [], []⟩ ⟨[], seen, a.postorder r⟩) ∧
    (∃ seen, Loop.Ends a.preorderStep ⟨[r], [], []⟩ ⟨[], seen, a.preorder r⟩) ∧
    a.postorder r = (a.traverse [] [r]).left ∧ a.preorder r = (a.traverse [] [r]).entered ∧
    (a.postorder r).Nodup ∧ (∀ m, m ∈ a.postorder r ↔ a.Under r m) ∧
    (a.preorder r).Nodup ∧ (∀ m, m ∈ a.preorder r ↔ a.Under r m) ∧
    ∀ n ∈ a.postorder r, ∀ m ∈ a.inputs n, ¬ a.Under m n → [m, n].Sublist (a.postorder r) :=
  ⟨a.ends_postorderStep r, a.ends_preorderStep r, a.postorder_eq_left r, a.preorder_eq_entered r,
    a.nodup_postorder r, fun _ => mem_postorder_iff, a.nodup_preorder r, fun _ => mem_preorder,
    fun _ hn _ hm hback => input_before hn hm hback⟩

/-- Two applies that use each other, and one over them that uses one of them twice. -/
def tangled : Arena where
  nodes := #[⟨.parameter, some ⟨0⟩, none, none⟩, ⟨.apply [⟨2⟩, ⟨0⟩], some ⟨0⟩, none, none⟩,
    ⟨.apply [⟨0⟩, ⟨1⟩], some ⟨0⟩, none, none⟩,
    ⟨.apply [⟨1⟩, ⟨0⟩, ⟨2⟩, ⟨1⟩], some ⟨0⟩, none, none⟩]
  graphs := #[⟨"main", [⟨0⟩], none⟩]

/-- The parameter is left first, since it leads back to none of its users. -/
theorem orders_depthFirst_tangled :
    tangled.postorder ⟨3⟩ = [⟨0⟩, ⟨2⟩, ⟨1⟩, ⟨3⟩] ∧ tangled.preorder ⟨3⟩ = [⟨3⟩, ⟨1⟩, ⟨2⟩, ⟨0⟩] ∧
    tangled.Under ⟨1⟩ ⟨2⟩ ∧ tangled.Under ⟨2⟩ ⟨1⟩ ∧
    [⟨0⟩, ⟨2⟩].Sublist (tangled.postorder ⟨3⟩) ∧
    ∃ seen, Loop.Ends tangled.postorderStep ⟨[.enter ⟨3⟩], [], []⟩
      ⟨[], seen, [⟨0⟩, ⟨2⟩, ⟨1⟩, ⟨3⟩]⟩ := by
  have hpost : tangled.postorder ⟨3⟩ = [⟨0⟩, ⟨2⟩, ⟨1⟩, ⟨3⟩] := by cbv
  have hpre : tangled.preorder ⟨3⟩ = [⟨3⟩, ⟨1⟩, ⟨2⟩, ⟨0⟩] := by cbv
  have hin : tangled.inputs ⟨2⟩ = [⟨0⟩, ⟨1⟩] := by decide
  obtain ⟨hends, -, -, -, -, -, -, -, hbefore⟩ := orders_depthFirst tangled ⟨3⟩
  have hleaf : ¬ tangled.Under ⟨0⟩ ⟨2⟩ := fun hu =>
    absurd (eq_of_under_of_inputs_eq_nil hu (by decide)) (by decide)
  have htwo : (⟨2⟩ : NodeId) ∈ tangled.postorder ⟨3⟩ := by
    rw [hpost]
    decide
  rw [hpost] at hends
  exact ⟨hpost, hpre, under_of_mem_inputs (by decide), under_of_mem_inputs (by decide),
    hbefore ⟨2⟩ htwo ⟨0⟩ (by simp [hin]) hleaf, hends⟩

end Arena

end Midend
