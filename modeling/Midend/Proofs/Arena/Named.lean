import Midend.Arena.Reach
import Midend.Proofs.Arena.Under

/-!
# Which graphs are reached

A graph names the graphs held by the constants under its return node. The search for reachable
graphs finds exactly the graphs that some root leads to by naming.
-/

namespace Midend.Arena

variable {a : Arena} {g h : GraphId}

/-- Whether a constant under the return node of `g` names `h`. -/
def Names (a : Arena) (g h : GraphId) : Prop :=
  ∃ r n, a.ret? g = some r ∧ a.Under r n ∧ a.heldGraph? n = some h

/-- Whether `g` leads to `h` by naming. -/
def Leads (a : Arena) (g h : GraphId) : Prop := Relation.ReflTransGen a.Names g h

/-- Whether a graph that some root leads to has `n` under its return node. -/
def Returned (a : Arena) (roots : List GraphId) (n : NodeId) : Prop :=
  ∃ g ∈ a.reachable roots, ∃ r, a.ret? g = some r ∧ a.Under r n

theorem Returned.under {roots : List GraphId} {n m : NodeId} (h : a.Returned roots n)
    (hu : a.Under n m) : a.Returned roots m := by
  obtain ⟨g, hg, r, hr, hu'⟩ := h
  exact ⟨g, hg, r, hr, hu'.trans hu⟩

theorem Returned.input {roots : List GraphId} {n m : NodeId} (h : a.Returned roots n)
    (hm : m ∈ a.inputs n) : a.Returned roots m := h.under (under_of_mem_inputs hm)

theorem Leads.refl (a : Arena) (g : GraphId) : a.Leads g g := Relation.ReflTransGen.refl

theorem mem_callees : h ∈ a.callees g ↔ a.Names g h := by
  unfold callees Names
  cases hr : a.ret? g with
  | none => simp
  | some r => simp [mem_preorder]

theorem subset_reachableFrom (seen stack : List GraphId) : seen ⊆ a.reachableFrom seen stack := by
  fun_induction reachableFrom a seen stack with
  | case1 seen => exact List.Subset.refl seen
  | case2 seen g rest fresh =>
    next ih => exact fun x hx => ih (List.mem_append_left _ hx)

/-- Every graph found was seen before or is led to from the stack. -/
theorem leads_of_mem_reachableFrom {seen stack : List GraphId}
    (hh : h ∈ a.reachableFrom seen stack) : h ∈ seen ∨ ∃ g ∈ stack, a.Leads g h := by
  fun_induction reachableFrom a seen stack with
  | case1 seen => exact Or.inl hh
  | case2 seen g rest fresh =>
    rename_i ih
    have hnamed : ∀ x ∈ newGraphs seen (a.callees g), a.Names g x := fun x hx =>
      mem_callees.mp (mem_newGraphs.mp hx).1
    rcases ih hh with hs | ⟨x, hx, hl⟩
    · rcases List.mem_append.mp hs with hs | hs
      · exact Or.inl hs
      · exact Or.inr ⟨g, List.mem_cons_self, Relation.ReflTransGen.single (hnamed h hs)⟩
    · rcases List.mem_append.mp hx with hx | hx
      · have hgx := hnamed x (List.mem_reverse.mp hx)
        exact Or.inr ⟨g, List.mem_cons_self, Relation.ReflTransGen.head hgx hl⟩
      · exact Or.inr ⟨x, List.mem_cons_of_mem g hx, hl⟩

/-- What the graphs found name is found, if this holds of the graphs seen that are not on the
stack any more. -/
theorem reachableFrom_closed {seen stack : List GraphId}
    (hseen : ∀ g ∈ seen, g ∈ stack ∨ ∀ h, a.Names g h → h ∈ seen) :
    ∀ g ∈ a.reachableFrom seen stack, ∀ h, a.Names g h → h ∈ a.reachableFrom seen stack := by
  fun_induction reachableFrom a seen stack with
  | case1 seen =>
    intro g hg
    exact (hseen g hg).resolve_left List.not_mem_nil
  | case2 seen g rest fresh =>
    rename_i ih
    have hfresh : ∀ x, a.Names g x → x ∈ seen ++ newGraphs seen (a.callees g) := by
      intro x hx
      by_cases hs : x ∈ seen
      · exact List.mem_append_left _ hs
      · exact List.mem_append_right seen (mem_newGraphs.mpr ⟨mem_callees.mpr hx, hs⟩)
    apply ih
    intro x hx
    rcases List.mem_append.mp hx with hx | hx
    · rcases hseen x hx with hx | hx
      · rcases List.mem_cons.mp hx with rfl | hx
        · exact Or.inr hfresh
        · exact Or.inl (List.mem_append_right _ hx)
      · exact Or.inr fun y hy => List.mem_append_left _ (hx y hy)
    · exact Or.inl (List.mem_append_left rest (List.mem_reverse.mpr hx))

theorem mem_reachable {roots : List GraphId} :
    h ∈ a.reachable roots ↔ ∃ g ∈ roots, a.Leads g h := by
  have hstart : ∀ x, x ∈ newGraphs [] roots ↔ x ∈ roots := by
    intro x
    simp [mem_newGraphs]
  constructor
  · intro hh
    rcases leads_of_mem_reachableFrom hh with hh | ⟨g, hg, hl⟩
    · exact ⟨h, (hstart h).mp hh, Leads.refl a h⟩
    · exact ⟨g, (hstart g).mp (List.mem_reverse.mp hg), hl⟩
  · rintro ⟨g, hg, hl⟩
    have hseen : ∀ x ∈ newGraphs [] roots, x ∈ (newGraphs [] roots).reverse ∨
        ∀ y, a.Names x y → y ∈ newGraphs [] roots := fun x hx => Or.inl (List.mem_reverse.mpr hx)
    have hclosed := reachableFrom_closed hseen
    induction hl with
    | refl => exact subset_reachableFrom _ _ ((hstart g).mpr hg)
    | tail _ hn ih => exact hclosed _ ih _ hn

/-- The roots themselves are reached, and what is named under the return node of a reached graph. -/
theorem mem_reachable_root {root : GraphId} : root ∈ a.reachable [root] :=
  mem_reachable.mpr ⟨root, List.mem_singleton_self root, Leads.refl a root⟩

theorem Returned.mem_reachable {roots : List GraphId} {n : NodeId} (h : a.Returned roots n)
    (hheld : a.heldGraph? n = some g) : g ∈ a.reachable roots := by
  obtain ⟨g', hg', r, hr, hu⟩ := h
  obtain ⟨root, hroot, hl⟩ := Arena.mem_reachable.mp hg'
  exact Arena.mem_reachable.mpr ⟨root, hroot, hl.tail ⟨r, n, hr, hu, hheld⟩⟩

/-- Nodes and graphs that hold the roots, their return nodes, the inputs of the nodes and what the
nodes name hold everything that is returned. -/
theorem Returned.of_closed {roots : List GraphId} {n : NodeId} {G : GraphId → Prop}
    {P : NodeId → Prop} (h : a.Returned roots n) (hroots : ∀ g ∈ roots, G g)
    (hret : ∀ g r, G g → a.ret? g = some r → P r) (hin : ∀ n, P n → ∀ m ∈ a.inputs n, P m)
    (hheld : ∀ n g, P n → a.heldGraph? n = some g → G g) : P n := by
  obtain ⟨g, hg, r, hr, hu⟩ := h
  obtain ⟨root, hroot, hl⟩ := Arena.mem_reachable.mp hg
  have hgraph : ∀ g', a.Leads root g' → G g' := by
    intro g' hl
    induction hl with
    | refl => exact hroots root hroot
    | tail _ hn ih =>
      obtain ⟨q, k, hq, huk, hk⟩ := hn
      exact hheld k _ (huk.mem_of_closed hin (hret _ q ih hq)) hk
  exact hu.mem_of_closed hin (hret g r (hgraph g hl) hr)

end Midend.Arena
