import Midend.Proofs.Arena.Postorder

/-!
# First nodes

Which of the nodes under a node comes first in the post-order walk, among those of some kind.
Skipping what was seen before makes no difference to that, so where the inputs form no cycle the
first node is the first one found under the inputs, taken in order, or the node itself.
-/

namespace Midend

/-- The node that a visit enters. -/
def Visit.entered? : Visit → Option NodeId
  | .enter n => some n
  | .leave _ => none

namespace Arena

variable {a b : Arena} {P Q : NodeId → Bool} {n m x : NodeId} {met ns : List NodeId}

/-- The first node under `n`, inputs first, of the nodes that satisfy `P`. -/
def firstOf (a : Arena) (P : NodeId → Bool) (n : NodeId) : Option NodeId :=
  (a.postorder n).find? P

/-- Whether no node under `n` satisfies `P`. -/
def Barren (a : Arena) (P : NodeId → Bool) (n : NodeId) : Prop := ∀ m, a.Under n m → P m = false

theorem Barren.under (h : a.Barren P n) (hu : a.Under n m) : a.Barren P m :=
  fun k hk => h k (hu.trans hk)

theorem firstOf_eq_none_iff : a.firstOf P n = none ↔ a.Barren P n := by
  simp [firstOf, Barren, mem_postorder_iff]

/-! ### The recursion -/

/-- Whether the first node under `n` is the first that is found under an input, or else `n`. -/
def FindsFirst (a : Arena) (P : NodeId → Bool) (n : NodeId) : Prop :=
  a.firstOf P n = ((a.inputs n).findSome? (a.firstOf P)).or (if P n then some n else none)

theorem Acyclic.find?_left (hac : a.Acyclic)
    (hone : ∀ n ∈ ns, ∀ m, a.Under n m → a.FindsFirst P m)
    (hmet : ∀ x ∈ met, ∀ n ∈ ns, a.Under n x → a.Barren P x) :
    (a.traverse met ns).left.find? P = ns.findSome? (a.firstOf P) := by
  fun_induction traverse a met ns with
  | case1 met => rfl
  | case2 met n ns hn ih =>
    have hnone : a.firstOf P n = none :=
      firstOf_eq_none_iff.mpr (hmet n hn n List.mem_cons_self (Under.refl a n))
    rw [List.findSome?_cons, hnone]
    exact ih (fun m hm => hone m (List.mem_cons_of_mem n hm))
      fun x hx m hm => hmet x hx m (List.mem_cons_of_mem n hm)
  | case3 met n ns hn below after ih_below ih_after =>
    have hbelow : below.left.find? P = (a.inputs n).findSome? (a.firstOf P) := by
      refine ih_below (fun m hm k hk => hone n List.mem_cons_self k (Under.of_inputs hm hk))
        fun x hx m hm hu => ?_
      rcases List.mem_cons.mp hx with rfl | hx
      · exact absurd hu (hac.not_under hm)
      · exact hmet x hx n List.mem_cons_self (Under.of_inputs hm hu)
    have hfirst : a.firstOf P n = (below.left.find? P).or (if P n then some n else none) :=
      hbelow ▸ hone n List.mem_cons_self n (Under.refl a n)
    rw [List.append_cons, List.find?_append, List.find?_append, List.find?_singleton, ← hfirst,
      List.findSome?_cons]
    cases hn : a.firstOf P n with
    | some x => rfl
    | none =>
      -- nothing was found under `n`, so the nodes entered there are no matter
      have hbarren := firstOf_eq_none_iff.mp hn
      refine ih_after (fun m hm => hone m (List.mem_cons_of_mem n hm)) fun x hx m hm hu => ?_
      rcases List.mem_append.mp hx with hx | hx
      · obtain ⟨k, hk, hkx⟩ := under_of_mem_traverse (List.mem_reverse.mp hx)
        exact hbarren.under (Under.of_inputs hk hkx)
      · rcases List.mem_cons.mp hx with rfl | hx
        · exact hbarren
        · exact hmet x hx m (List.mem_cons_of_mem n hm) hu

theorem Acyclic.findsFirst (hac : a.Acyclic) (P : NodeId → Bool) (n : NodeId) :
    ∀ m, a.Under n m → a.FindsFirst P m := by
  induction n using hac.induction with
  | step n ih =>
    intro m hu
    rcases under_iff.mp hu with rfl | ⟨k, hk, hu⟩
    · have hmet : ∀ x ∈ [n], ∀ k ∈ a.inputs n, a.Under k x → a.Barren P x := fun x hx k hk hu =>
        absurd (List.mem_singleton.mp hx ▸ hu) (hac.not_under hk)
      have hleft := hac.find?_left ih hmet
      rw [FindsFirst, firstOf, postorder_eq_append, List.find?_append, hleft,
        List.find?_singleton]
    · exact ih k hk m hu

/-- The first node is the first that is found under an input, or else the node itself. -/
theorem Acyclic.firstOf_eq (hac : a.Acyclic) (P : NodeId → Bool) (n : NodeId) :
    a.firstOf P n = ((a.inputs n).findSome? (a.firstOf P)).or (if P n then some n else none) :=
  hac.findsFirst P n n (Under.refl a n)

/-! ### The way to the first node -/

/-- Whether `m` comes first in a list, of the nodes over a node that satisfies `P`. -/
def Leading (a : Arena) (P : NodeId → Bool) (ns : List NodeId) (m : NodeId) : Prop :=
  ∃ pre post, ns = pre ++ m :: post ∧ ∀ k ∈ pre, a.firstOf P k = none

/-- Whether the walk from `n` comes to `x` if it follows only the first input that it has to. -/
def FirstPath (a : Arena) (P : NodeId → Bool) : NodeId → NodeId → Prop :=
  Relation.ReflTransGen fun n m => a.Leading P (a.inputs n) m

theorem exists_leading (hx : ns.findSome? (a.firstOf P) = some x) :
    ∃ m, a.Leading P ns m ∧ a.firstOf P m = some x := by
  obtain ⟨pre, m, post, hns, hm, hpre⟩ := List.findSome?_eq_some_iff.mp hx
  exact ⟨m, ⟨pre, post, hns, hpre⟩, hm⟩

theorem Leading.mem (hm : a.Leading P ns m) : m ∈ ns := by
  obtain ⟨pre, post, rfl, -⟩ := hm
  exact List.mem_append_right pre List.mem_cons_self

theorem Acyclic.exists_firstPath (hac : a.Acyclic) (hx : a.firstOf P n = some x) :
    a.FirstPath P n x := by
  induction n using hac.induction with
  | step n ih =>
    rw [hac.firstOf_eq] at hx
    cases hin : (a.inputs n).findSome? (a.firstOf P) with
    | none =>
      rw [hin, Option.none_or] at hx
      obtain rfl := Option.some.inj (Option.ite_none_right_eq_some.mp hx).2
      exact .refl
    | some y =>
      rw [hin, Option.some_or] at hx
      obtain ⟨m, hm, hy⟩ := exists_leading hin
      exact .head hm (ih m hm.mem (hy.trans hx))

/-- What is found first at a leading node is found first in the list, also if what is looked for
only occurs over nodes that satisfy `P`. -/
theorem Leading.findSome?_eq (hm : a.Leading P ns m)
    (hQ : ∀ y, Q y = true → ¬ a.Barren P y) (hx : a.firstOf Q m = some x) :
    ns.findSome? (a.firstOf Q) = some x := by
  obtain ⟨pre, post, rfl, hpre⟩ := hm
  refine List.findSome?_eq_some_iff.mpr ⟨pre, m, post, rfl, hx, fun k hk => ?_⟩
  have hbarren := firstOf_eq_none_iff.mp (hpre k hk)
  exact firstOf_eq_none_iff.mpr fun y hy => Bool.eq_false_iff.mpr fun hQy =>
    hQ y hQy (hbarren.under hy)

theorem FirstPath.firstOf_eq (hac : a.Acyclic) (hpath : a.FirstPath P n m)
    (hQ : ∀ y, Q y = true → ¬ a.Barren P y) (hx : a.firstOf Q m = some x) :
    a.firstOf Q n = some x := by
  induction hpath using Relation.ReflTransGen.head_induction_on with
  | refl => exact hx
  | head hm _ ih => rw [hac.firstOf_eq, hm.findSome?_eq hQ ih, Option.some_or]

/-! ### The order in which graphs are reached -/

/-- What the walk gives for the node that it leaves next. -/
def leftNext {β : Type} (f : NodeId → Option β) : List Visit → List β
  | .leave n :: _ => (f n).toList
  | _ => []

theorem leftNext_eq_nil {β : Type} {f : NodeId → Option β} {visits : List Visit}
    (hf : ∀ n, .leave n ∈ visits → f n = none) : leftNext f visits = [] := by
  unfold leftNext
  split
  · next n _ => rw [hf n List.mem_cons_self, Option.toList_none]
  · rfl

/-- Nodes without inputs stand in the same order in both walks. -/
theorem filterMap_postorderFrom {β : Type} {f : NodeId → Option β}
    (hf : ∀ n, a.inputs n ≠ [] → f n = none) (seen : List NodeId) (visits : List Visit)
    (hleave : ∀ n, .leave n ∈ visits.tail → f n = none) :
    (a.postorderFrom seen visits).filterMap f = leftNext f visits ++
      (a.preorderFrom seen (visits.filterMap Visit.entered?)).filterMap f := by
  fun_induction postorderFrom a seen visits with
  | case1 => simp [preorderFrom, leftNext]
  | case2 seen n rest ih =>
    have hrest := ih fun m hm => hleave m (List.mem_of_mem_tail hm)
    have hnil : leftNext f rest = [] := leftNext_eq_nil hleave
    rw [hnil, List.nil_append] at hrest
    rw [List.filterMap_cons_none (rfl : (Visit.leave n).entered? = none), ← hrest]
    cases hn : f n <;> simp [leftNext, hn]
  | case3 seen n rest hn ih =>
    have hrest := ih fun m hm => hleave m (List.mem_of_mem_tail hm)
    have hnil : leftNext f rest = [] := leftNext_eq_nil hleave
    rw [hnil, List.nil_append] at hrest
    simp [hrest, leftNext, Visit.entered?, preorderFrom, hn]
  | case4 seen n rest hn ih =>
    have hentered : ((a.inputs n).map Visit.enter ++ .leave n :: rest).filterMap Visit.entered? =
        a.inputs n ++ rest.filterMap Visit.entered? := by
      rw [List.filterMap_append, List.filterMap_cons_none (rfl : (Visit.leave n).entered? = none)]
      simp [List.filterMap_map, Function.comp_def, Visit.entered?]
    rw [hentered] at ih
    rw [List.filterMap_cons_some (rfl : (Visit.enter n).entered? = _), preorderFrom, if_neg hn]
    cases hin : a.inputs n with
    | nil =>
      -- a node without inputs is left at once
      rw [hin] at ih
      have hrest := ih hleave
      cases hfn : f n <;> simpa [leftNext, hfn] using hrest
    | cons m ms =>
      have hfn : f n = none := hf n (by simp [hin])
      have htail : ∀ k, .leave k ∈ ((a.inputs n).map Visit.enter ++ .leave n :: rest).tail →
          f k = none := fun k hk => by
        have hk' := List.mem_of_mem_tail hk
        simp only [List.mem_append, List.mem_map, reduceCtorEq, and_false, exists_false, false_or,
          List.mem_cons, Visit.leave.injEq] at hk'
        rcases hk' with rfl | hk'
        · exact hfn
        · exact hleave k hk'
      have hrest := ih htail
      rw [hin] at hrest
      simpa [leftNext, hfn] using hrest

theorem newGraphs_eq (seen xs : List GraphId) :
    newGraphs seen xs = match xs.find? (· ∉ seen) with
      | none => []
      | some g => g :: newGraphs (seen ++ [g]) xs := by
  induction xs generalizing seen with
  | nil => rfl
  | cons x xs ih =>
    by_cases hx : x ∈ seen
    · rw [newGraphs, if_pos hx, ih, List.find?_cons_of_neg (by simpa using hx)]
      cases xs.find? (· ∉ seen) with
      | none => rfl
      | some g => simp [newGraphs, hx]
    · rw [List.find?_cons_of_pos (by simpa using hx)]
      simp [newGraphs, hx]

/-- Lists that have the same first graph outside any list have the same new graphs. -/
theorem newGraphs_congr {xs ys : List GraphId}
    (h : ∀ seen : List GraphId, xs.find? (· ∉ seen) = ys.find? (· ∉ seen)) (seen : List GraphId) :
    newGraphs seen xs = newGraphs seen ys := by
  generalize hgs : newGraphs seen xs = gs
  induction gs generalizing seen with
  | nil =>
    rw [newGraphs_eq] at hgs ⊢
    rw [h] at hgs
    cases hfind : ys.find? (· ∉ seen) with
    | none => rfl
    | some g =>
      rw [hfind] at hgs
      cases hgs
  | cons g gs ih =>
    rw [newGraphs_eq] at hgs ⊢
    rw [h] at hgs
    cases hfind : ys.find? (· ∉ seen) with
    | none =>
      rw [hfind] at hgs
      cases hgs
    | some g' =>
      rw [hfind] at hgs
      obtain ⟨rfl, hrest⟩ := List.cons.inj hgs
      rw [ih _ hrest]

/-- If the walks find the same first graphs outside any list, the same graphs are reached in the same
order. -/
theorem reachableFrom_congr
    (h : ∀ g seen, newGraphs seen (a.callees g) = newGraphs seen (b.callees g))
    (seen stack : List GraphId) : a.reachableFrom seen stack = b.reachableFrom seen stack := by
  fun_induction reachableFrom a seen stack with
  | case1 seen => rw [reachableFrom]
  | case2 seen g rest fresh ih => rw [ih, reachableFrom, ← h]

end Arena

end Midend
