import Mathlib
import Midend.Proofs.Arena.Postorder
import Midend.Proofs.Merge.Unfolding
import Midend.Proofs.OrderedMap

/-!
# Classes of nodes

Grouping gives each node a class, the hash of its shape over the classes of its inputs. Whatever the
hash, nodes that unfold to the same tree get the same class, and the members of a group are the nodes
of one class and one owner. That nodes of one class unfold to the same tree needs shapes that do not
collide.
-/

namespace Midend

namespace Grouping

variable {a : Arena} {r r' : Grouping} {n m user : NodeId} {ns : List NodeId} {c d : UInt64}
  {cs : List UInt64} {s : Shape} {u : Unfolding}

theorem inputClasses_eq_ok_iff (user : NodeId) : r.inputClasses user ns = .ok cs ↔
    List.Forall₂ (fun n c => r.classes.get? n = some c) ns cs := by
  induction ns generalizing cs with
  | nil =>
    rw [inputClasses, Except.ok.injEq, List.forall₂_nil_left_iff, eq_comm]
  | cons n ns ih =>
    cases hn : r.classes.get? n with
    | none => simp [inputClasses, hn, List.forall₂_cons_left_iff]
    | some c =>
      simp only [inputClasses, hn, List.forall₂_cons_left_iff, Option.some.injEq]
      cases hr : r.inputClasses user ns with
      | error f =>
        have hnone : ∀ ds, ¬ List.Forall₂ (fun n c => r.classes.get? n = some c) ns ds :=
          fun ds hds => by simpa [hr] using ih.mpr hds
        simp [Except.map, hnone]
      | ok ds =>
        simp only [Except.map, Except.ok.injEq]
        constructor
        · rintro rfl
          exact ⟨c, ds, rfl, ih.mp hr, rfl⟩
        · rintro ⟨c', ds', rfl, hds, rfl⟩
          rw [Except.ok.inj (hr.symm.trans (ih.mpr hds))]

theorem shape_eq_ok_iff : r.shape a n = .ok s ↔
    (∃ v, a.kind? n = some (.constant v) ∧ s = .constant v (a.typeKey? n)) ∨
    (∃ inputs cs, a.kind? n = some (.apply inputs) ∧ s = .apply cs ∧
      List.Forall₂ (fun m c => r.classes.get? m = some c) inputs cs) ∨
    ((a.kind? n = some .parameter ∨ a.kind? n = none) ∧ s = .parameter n) := by
  unfold shape
  split
  · next v hk => simp [hk, eq_comm]
  · next inputs hk =>
    simp only [hk, Option.some.injEq, reduceCtorEq, false_and, exists_false, or_false, false_or,
      NodeKind.apply.injEq, exists_and_left, exists_eq_left', ← inputClasses_eq_ok_iff n]
    cases r.inputClasses n inputs <;> simp [Except.map, eq_comm]
  · next hk => simp [hk, eq_comm]
  · next hk => simp [hk, eq_comm]

/-- A shape stays what it is when further nodes get classes. -/
theorem shape_mono (h : r.shape a n = .ok s)
    (hsub : ∀ m c, r.classes.get? m = some c → r'.classes.get? m = some c) :
    r'.shape a n = .ok s := by
  rw [shape_eq_ok_iff] at h ⊢
  refine h.imp_right (Or.imp_left ?_)
  rintro ⟨inputs, cs, hk, hs, hcs⟩
  exact ⟨inputs, cs, hk, hs, hcs.imp hsub⟩

theorem exists_classes (h : ∀ n ∈ ns, ∃ c, r.classes.get? n = some c) :
    ∃ cs, List.Forall₂ (fun n c => r.classes.get? n = some c) ns cs := by
  induction ns with
  | nil => exact ⟨[], .nil⟩
  | cons n ns ih =>
    obtain ⟨c, hc⟩ := h n List.mem_cons_self
    obtain ⟨cs, hcs⟩ := ih fun m hm => h m (List.mem_cons_of_mem n hm)
    exact ⟨c :: cs, .cons hc hcs⟩

theorem exists_shape (n : NodeId) (hin : ∀ m ∈ a.inputs n, ∃ c, r.classes.get? m = some c) :
    ∃ s, r.shape a n = .ok s := by
  simp only [shape_eq_ok_iff]
  cases hk : a.kind? n with
  | none => exact ⟨_, Or.inr (Or.inr ⟨Or.inr rfl, rfl⟩)⟩
  | some k =>
    cases k with
    | constant v => exact ⟨_, Or.inl ⟨v, rfl, rfl⟩⟩
    | parameter => exact ⟨_, Or.inr (Or.inr ⟨Or.inl rfl, rfl⟩)⟩
    | apply inputs =>
      rw [Arena.inputs_of_kind? hk] at hin
      obtain ⟨cs, hcs⟩ := exists_classes hin
      exact ⟨_, Or.inr (Or.inl ⟨inputs, cs, rfl, rfl, hcs⟩)⟩

variable [Hashable Shape]

/-- Each class is the hash of the shape that its nodes have, and each group holds the nodes of a class
and an owner. -/
structure Faithful (a : Arena) (r : Grouping) : Prop where
  shape : ∀ n c, r.classes.get? n = some c → ∃ s, r.shape a n = .ok s ∧ hash s = c
  grouped : ∀ n c, r.classes.get? n = some c →
    ∃ ms, r.groups.get? (c, a.owner? n) = some ms ∧ n ∈ ms
  members : ∀ c o ms, r.groups.get? (c, o) = some ms →
    ∀ m ∈ ms, r.classes.get? m = some c ∧ a.owner? m = o

theorem faithful_empty : Faithful a .empty :=
  ⟨fun n c h => by simp [Grouping.empty] at h, fun n c h => by simp [Grouping.empty] at h,
    fun c o ms h => by simp [Grouping.empty] at h⟩

theorem Faithful.enter (h : Faithful a r) (hn : r.classes.get? n = none)
    (hs : r.shape a n = .ok s) : Faithful a
      ⟨r.classes.insert n (hash s), r.groups.append (hash s, a.owner? n) [n]⟩ := by
  have hsub : ∀ m d, r.classes.get? m = some d →
      (r.classes.insert n (hash s)).get? m = some d := by
    intro m d hd
    rw [OrderedMap.get?_insert, if_neg]
    · exact hd
    · rintro rfl
      simp [hn] at hd
  refine ⟨fun m d hd => ?_, fun m d hd => ?_, fun d o ms hms m hm => ?_⟩
  · rw [OrderedMap.get?_insert] at hd
    split at hd
    · next heq =>
      obtain rfl := heq
      obtain rfl := Option.some.inj hd
      exact ⟨s, shape_mono hs hsub, rfl⟩
    · obtain ⟨s', hshape, hd⟩ := h.shape m d hd
      exact ⟨s', shape_mono hshape hsub, hd⟩
  · rw [OrderedMap.get?_append]
    rw [OrderedMap.get?_insert] at hd
    split at hd
    · next heq =>
      obtain rfl := heq
      obtain rfl := Option.some.inj hd
      exact ⟨_, if_pos rfl, List.mem_append_right _ List.mem_cons_self⟩
    · obtain ⟨ms, hms, hm⟩ := h.grouped m d hd
      split
      · next heq =>
        rw [heq] at hms
        exact ⟨_, rfl, List.mem_append_left _ (by simpa [hms] using hm)⟩
      · exact ⟨ms, hms, hm⟩
  · rw [OrderedMap.get?_append] at hms
    split at hms
    · next heq =>
      obtain ⟨rfl, rfl⟩ := Prod.mk.inj heq
      obtain rfl := Option.some.inj hms
      rcases List.mem_append.mp hm with hm | hm
      · cases hold : r.groups.get? (hash s, a.owner? n) with
        | none => simp [hold] at hm
        | some old =>
          obtain ⟨hc, ho⟩ := h.members _ _ _ hold m (by simpa [hold] using hm)
          exact ⟨hsub m _ hc, ho⟩
      · obtain rfl := List.mem_singleton.mp hm
        exact ⟨by simp [OrderedMap.get?_insert], rfl⟩
    · obtain ⟨hd, ho⟩ := h.members d o ms hms m hm
      exact ⟨hsub m d hd, ho⟩

/-- A node whose inputs have classes gets one, and the grouping stays faithful. -/
theorem Faithful.add (h : Faithful a r)
    (hin : ∀ m ∈ a.inputs n, ∃ c, r.classes.get? m = some c) :
    ∃ r', r.add a n = .ok r' ∧ Faithful a r' ∧ (∃ c, r'.classes.get? n = some c) ∧
      ∀ m, m ≠ n → r'.classes.get? m = r.classes.get? m := by
  cases hn : r.classes.get? n with
  | some c =>
    refine ⟨r, ?_, h, ⟨c, hn⟩, fun m _ => rfl⟩
    rw [Grouping.add, hn]
    rfl
  | none =>
    obtain ⟨s, hs⟩ := exists_shape n hin
    have hadd : r.add a n =
        .ok ⟨r.classes.insert n (hash s), r.groups.append (hash s, a.owner? n) [n]⟩ := by
      simp [Grouping.add, hn, hs, Except.map]
    exact ⟨_, hadd, h.enter hn hs, ⟨hash s, by simp [OrderedMap.get?_insert]⟩,
      fun m hm => by simp [OrderedMap.get?_insert, hm]⟩

/-- Where each node has its inputs before it, all nodes of a list get classes. -/
theorem Faithful.addAll {done : List NodeId} (h : Faithful a r) (hns : a.InputsFirst done ns)
    (hdone : ∀ m ∈ done, ∃ c, r.classes.get? m = some c) :
    ∃ r', r.addAll a ns = .ok r' ∧ Faithful a r' ∧
      ∀ m, (r'.classes.get? m).isSome = true ↔ (r.classes.get? m).isSome = true ∨ m ∈ ns := by
  induction ns generalizing r done with
  | nil => exact ⟨r, rfl, h, fun m => by simp⟩
  | cons n ns ih =>
    obtain ⟨r₁, hadd, h₁, hn, hold⟩ := h.add fun m hm => hdone m (hns.1 m hm)
    have hdone₁ : ∀ m ∈ n :: done, ∃ c, r₁.classes.get? m = some c := by
      intro m hm
      by_cases hmn : m = n
      · exact hmn ▸ hn
      · rw [hold m hmn]
        exact hdone m ((List.mem_cons.mp hm).resolve_left hmn)
    obtain ⟨r', hall, h', hmem⟩ := ih h₁ hns.2 hdone₁
    refine ⟨r', by simp only [Grouping.addAll, hadd, hall], h', fun m => ?_⟩
    rw [hmem, List.mem_cons]
    by_cases hmn : m = n
    · obtain ⟨c, hc⟩ := hn
      simp [hmn, hc]
    · simp [hmn, hold m hmn]

/-! ### Classes are unfoldings -/

/-- A node has the shape of its tree, and is in the class of that. -/
theorem Faithful.shape_eq (h : Faithful a r) (hu : a.Unfolds n u) (hn : r.classes.get? n = some c) :
    r.shape a n = .ok u.shape ∧ hash u.shape = c := by
  suffices hs : r.shape a n = .ok u.shape by
    obtain ⟨s, hs', hc⟩ := h.shape n c hn
    obtain rfl := Except.ok.inj (hs.symm.trans hs')
    exact ⟨hs, hc⟩
  induction hu generalizing c with
  | @constant n v hk => exact shape_eq_ok_iff.mpr (Or.inl ⟨v, hk, by rw [Unfolding.shape]⟩)
  | @parameter n hk =>
    exact shape_eq_ok_iff.mpr (Or.inr (Or.inr ⟨Or.inl hk, by rw [Unfolding.shape]⟩))
  | @apply n inputs us hk hlen hall ih =>
    obtain ⟨s, hs, -⟩ := h.shape n c hn
    obtain ⟨cs, rfl, hcs⟩ : ∃ cs, s = .apply cs ∧
        List.Forall₂ (fun m c => r.classes.get? m = some c) inputs cs := by
      simpa [shape_eq_ok_iff, hk] using hs
    have heq : cs = us.map fun u => hash u.shape := by
      refine List.ext_getElem (by simp [← hlen, hcs.length_eq]) fun i hi hi' => ?_
      rw [List.length_map] at hi'
      have hin : i < inputs.length := hlen ▸ hi'
      have hm := List.getElem?_eq_getElem hin
      have hu := List.getElem?_eq_getElem hi'
      have hclass : r.classes.get? inputs[i] = some cs[i] := hcs.get hin hi
      obtain ⟨s, hs, hc⟩ := h.shape _ _ hclass
      obtain rfl := Except.ok.inj (hs.symm.trans (ih i _ _ hm hu hclass))
      rw [List.getElem_map, hc]
    rw [Unfolding.shape, ← heq]
    exact hs

/-- Nodes that unfold to the same tree are of one class. -/
theorem Faithful.class_eq (h : Faithful a r) (hu : a.Unfolds n u) (hu' : a.Unfolds m u)
    (hn : r.classes.get? n = some c) (hm : r.classes.get? m = some d) : c = d :=
  (h.shape_eq hu hn).2.symm.trans (h.shape_eq hu' hm).2

end Grouping

namespace Arena

variable [Hashable Shape] {a : Arena} {n m : NodeId} {root : GraphId} {u w : Unfolding}

/-- Where nodes under a root have their inputs before them, all of them get classes. -/
theorem exists_faithful (h : a.InputsFirst [] (a.groupOrder root)) : ∃ r : Grouping,
    Grouping.empty.addAll a (a.groupOrder root) = .ok r ∧ r.Faithful a ∧
    ∀ n, (∃ c, r.classes.get? n = some c) ↔ a.Returned [root] n := by
  obtain ⟨r, hall, hr, hmem⟩ := Grouping.faithful_empty.addAll h
    fun m hm => absurd hm List.not_mem_nil
  refine ⟨r, hall, hr, fun n => ?_⟩
  rw [← mem_groupOrder, ← Option.isSome_iff_exists, hmem]
  simp [Grouping.empty]

theorem groups_of_addAll {r : Grouping} (h : Grouping.empty.addAll a (a.groupOrder root) = .ok r) :
    a.groups root = .ok (r.groups.entries.map fun (key, members) => (key.2, members)) := by
  rw [groups, h]
  rfl

/-! ### Shapes that do not collide -/

/-- Whether no two shapes that are hashed under a root have the same hash. -/
def NoCollision (a : Arena) (root : GraphId) : Prop :=
  ∀ n m u w, a.Returned [root] n → a.Returned [root] m → a.Unfolds n u → a.Unfolds m w →
    hash u.shape = hash w.shape → u.shape = w.shape

/-- Then the hash of its shape determines a tree. -/
theorem NoCollision.eq (h : a.NoCollision root) (hn : a.Returned [root] n)
    (hm : a.Returned [root] m) (hu : a.Unfolds n u) (hw : a.Unfolds m w)
    (heq : hash u.shape = hash w.shape) : u = w := by
  have hshape := h n m u w hn hm hu hw heq
  induction hu generalizing m w with
  | @constant n v hk => cases w <;> simp_all [Unfolding.shape]
  | @parameter n hk => cases w <;> simp_all [Unfolding.shape]
  | @apply n inputs us hk hlen hall ih =>
    cases w with
    | constant v key => simp [Unfolding.shape] at hshape
    | parameter k => simp [Unfolding.shape] at hshape
    | apply ws =>
      obtain ⟨inputs', hk', hlen', hall'⟩ := unfolds_apply_iff.mp hw
      simp only [Unfolding.shape, Shape.apply.injEq] at hshape
      have hlen'' : us.length = ws.length := by simpa using congrArg List.length hshape
      refine congrArg Unfolding.apply (List.ext_getElem hlen'' fun i hi hi' => ?_)
      have hin : i < inputs.length := hlen ▸ hi
      have hin' : i < inputs'.length := hlen' ▸ hi'
      have hx := List.getElem?_eq_getElem hin
      have hx' := List.getElem?_eq_getElem hin'
      have hu := List.getElem?_eq_getElem hi
      have hw := List.getElem?_eq_getElem hi'
      have hrx : a.Returned [root] inputs[i] :=
        hn.input (by rw [inputs_of_kind? hk]; exact List.getElem_mem hin)
      have hrx' : a.Returned [root] inputs'[i] :=
        hm.input (by rw [inputs_of_kind? hk']; exact List.getElem_mem hin')
      have hhash : hash us[i].shape = hash ws[i].shape := by
        simpa [hi, hi'] using congrArg (·[i]?) hshape
      have huw := hall' i _ _ hx' hw
      exact ih i _ _ hx hu hrx hrx' huw hhash (h _ _ _ _ hrx hrx' (hall i _ _ hx hu) huw hhash)

/-- So nodes of one class unfold to the same tree. -/
theorem NoCollision.unfolds (h : a.NoCollision root) {r : Grouping} (hr : r.Faithful a) {c : UInt64}
    (hn : a.Returned [root] n) (hm : a.Returned [root] m) (hu : a.Unfolds n u)
    (hex : ∃ w, a.Unfolds m w) (hcn : r.classes.get? n = some c) (hcm : r.classes.get? m = some c) :
    a.Unfolds m u := by
  obtain ⟨w, hw⟩ := hex
  have heq := (hr.shape_eq hu hcn).2.trans (hr.shape_eq hw hcm).2.symm
  exact h.eq hn hm hu hw heq ▸ hw

/-- Whether nodes that grouping gives one class have one shape. -/
def distinguishes (a : Arena) (root : GraphId) : Bool :=
  match Grouping.empty.addAll a (a.groupOrder root) with
  | .error _ => false
  | .ok r => r.classes.entries.all fun (n, c) => r.classes.entries.all fun (m, d) =>
      c ≠ d || (r.shape a n).toOption = (r.shape a m).toOption

theorem noCollision_of_distinguishes (hac : a.Acyclic) (h : a.distinguishes root = true) :
    a.NoCollision root := by
  obtain ⟨r, hall, hr, hclassed⟩ := exists_faithful (hac.inputsFirst_groupOrder root)
  simp only [distinguishes, hall, List.all_eq_true] at h
  intro n m u w hn hm hu hw heq
  obtain ⟨c, hc⟩ := (hclassed n).mpr hn
  obtain ⟨d, hd⟩ := (hclassed m).mpr hm
  obtain ⟨hshape, rfl⟩ := hr.shape_eq hu hc
  obtain ⟨hshape', rfl⟩ := hr.shape_eq hw hd
  simpa [heq, hshape, hshape', Except.toOption] using
    h _ (OrderedMap.mem_entries_of_get? hc) _ (OrderedMap.mem_entries_of_get? hd)

end Arena

end Midend
