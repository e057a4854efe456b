import Mathlib
import Midend.Proofs.Arena.First
import Midend.Proofs.Arena.Refitted
import Midend.Proofs.Merge.Steps

/-!
# Twins

Nodes of two arenas are twins if they unfold to the same tree and belong to the same graph. Walks
from twins find twins first, so merging changes nothing in the order in which a root reaches graphs.
-/

namespace Midend

namespace Arena

variable {a b c : Arena} {P Q : NodeId → Bool} {n m k x h : NodeId} {g root : GraphId}
  {u : Unfolding}

theorem Orderly.exists_unfolds (ha : a.Orderly) (hn : n ∈ a.nodeIds) : ∃ u, a.Unfolds n u :=
  ha.acyclic.exists_unfolds ha.wellFormed hn

/-! ### Twins -/

/-- Whether a node of `a` and a node of `b` compute the same and belong to the same graph. -/
def Twin (a b : Arena) (n m : NodeId) : Prop :=
  (∃ u, a.Unfolds n u ∧ b.Unfolds m u) ∧ a.owner? n = b.owner? m

theorem Twin.symm (h : a.Twin b n m) : b.Twin a m n := by
  obtain ⟨⟨u, hn, hm⟩, ho⟩ := h
  exact ⟨⟨u, hm, hn⟩, ho.symm⟩

theorem Twin.trans (h : a.Twin b n m) (h' : b.Twin c m k) : a.Twin c n k := by
  obtain ⟨⟨u, hn, hm⟩, ho⟩ := h
  obtain ⟨⟨w, hm', hk⟩, ho'⟩ := h'
  exact ⟨⟨u, hn, hm.unique hm' ▸ hk⟩, ho.trans ho'⟩

theorem Orderly.twin_self (ha : a.Orderly) (hn : n ∈ a.nodeIds) : a.Twin a n n := by
  obtain ⟨u, hu⟩ := ha.exists_unfolds hn
  exact ⟨⟨u, hu, hu⟩, rfl⟩

theorem Merged.twin (hab : a.Merged b) (ha : a.Orderly) (hn : n ∈ a.nodeIds) : a.Twin b n n := by
  obtain ⟨u, hu⟩ := ha.exists_unfolds hn
  exact ⟨⟨u, hu, hab.unfolds hu⟩, (hab.owner n).symm⟩

theorem Unfolds.value?_eq (hn : a.Unfolds n u) (hm : b.Unfolds m u) : a.value? n = b.value? m := by
  cases u with
  | constant v key =>
    rw [value?_of_kind? (unfolds_constant_iff.mp hn).1,
      value?_of_kind? (unfolds_constant_iff.mp hm).1]
  | parameter k =>
    have hkn := (unfolds_parameter_iff.mp hn).2
    have hkm := (unfolds_parameter_iff.mp hm).2
    simp [value?, hkn, hkm, NodeKind.value?]
  | apply us =>
    obtain ⟨_, hkn, -⟩ := unfolds_apply_iff.mp hn
    obtain ⟨_, hkm, -⟩ := unfolds_apply_iff.mp hm
    simp [value?, hkn, hkm, NodeKind.value?]

theorem Twin.value?_eq (h : a.Twin b n m) : a.value? n = b.value? m := by
  obtain ⟨⟨u, hn, hm⟩, -⟩ := h
  exact hn.value?_eq hm

theorem Unfolds.forall₂_inputs (hn : a.Unfolds n u) (hm : b.Unfolds m u) :
    List.Forall₂ (fun x y => ∃ w, a.Unfolds x w ∧ b.Unfolds y w) (a.inputs n) (b.inputs m) := by
  have hnil : ∀ {c : Arena} {k}, c.isApply k = false → c.inputs k = [] := fun hk =>
    List.eq_nil_iff_forall_not_mem.mpr fun j hj => by simp [isApply, kind?_of_mem_inputs hj] at hk
  cases u with
  | constant v key =>
    rw [hnil (by simp [isApply, (unfolds_constant_iff.mp hn).1]),
      hnil (by simp [isApply, (unfolds_constant_iff.mp hm).1])]
    exact .nil
  | parameter k =>
    rw [hnil (by simp [isApply, (unfolds_parameter_iff.mp hn).2]),
      hnil (by simp [isApply, (unfolds_parameter_iff.mp hm).2])]
    exact .nil
  | apply us =>
    obtain ⟨xs, hkn, hlen, hall⟩ := unfolds_apply_iff.mp hn
    obtain ⟨ys, hkm, hlen', hall'⟩ := unfolds_apply_iff.mp hm
    rw [inputs_of_kind? hkn, inputs_of_kind? hkm]
    refine List.forall₂_iff_get.mpr ⟨hlen.trans hlen'.symm, fun i hi hi' => ?_⟩
    have hu : us[i]? = some us[i] := List.getElem?_eq_getElem (hlen ▸ hi)
    exact ⟨_, hall i _ _ (List.getElem?_eq_getElem hi) hu,
      hall' i _ _ (List.getElem?_eq_getElem hi') hu⟩

/-- Twins use twins. -/
theorem Twin.inputs (h : a.Twin b n m) (ha : a.Orderly) (hb : b.Orderly) :
    List.Forall₂ (a.Twin b) (a.inputs n) (b.inputs m) := by
  obtain ⟨⟨u, hn, hm⟩, ho⟩ := h
  have hin := hn.forall₂_inputs hm
  refine List.forall₂_iff_get.mpr ⟨hin.length_eq, fun i hi hi' => ?_⟩
  obtain ⟨w, hx, hy⟩ := hin.get hi hi'
  refine ⟨⟨w, hx, hy⟩, ?_⟩
  rw [ha.owner_input (List.get_mem _ _), hb.owner_input (List.get_mem _ _), hx.value?_eq hy, ho]

/-! ### What twins find first -/

private theorem rel_findSome? {α β γ δ : Type} {R : α → β → Prop} {S : γ → δ → Prop}
    {f : α → Option γ} {g : β → Option δ} {xs : List α} {ys : List β} (h : List.Forall₂ R xs ys)
    (hfg : ∀ x ∈ xs, ∀ y, R x y → Option.Rel S (f x) (g y)) :
    Option.Rel S (xs.findSome? f) (ys.findSome? g) := by
  induction h with
  | nil => exact .none
  | @cons x y xs ys hxy _ ih =>
    have hone := hfg x List.mem_cons_self y hxy
    rw [List.findSome?_cons, List.findSome?_cons]
    generalize f x = o at hone ⊢
    generalize g y = o' at hone ⊢
    cases hone with
    | some hS => exact .some hS
    | none => exact ih fun x hx => hfg x (List.mem_cons_of_mem _ hx)

/-- What twins find first are twins, if what is looked for is the same for twins. -/
theorem Twin.rel_firstOf (h : a.Twin b n m) (ha : a.Orderly) (hb : b.Orderly)
    (hPQ : ∀ x y, a.Twin b x y → P x = Q y) :
    Option.Rel (a.Twin b) (a.firstOf P n) (b.firstOf Q m) := by
  induction n using ha.acyclic.induction generalizing m with
  | step n ih =>
    have hin := rel_findSome? (h.inputs ha hb) fun x hx y hxy => ih x hx hxy
    rw [ha.acyclic.firstOf_eq, hb.acyclic.firstOf_eq, hPQ n m h]
    generalize (a.inputs n).findSome? (a.firstOf P) = o at hin
    generalize (b.inputs m).findSome? (b.firstOf Q) = o' at hin
    cases hin with
    | some hxy => exact .some hxy
    | none =>
      rw [Option.none_or, Option.none_or]
      split
      · exact .some h
      · exact .none

theorem Twin.firstOf_eq_none_iff (h : a.Twin b n m) (ha : a.Orderly) (hb : b.Orderly)
    (hPQ : ∀ x y, a.Twin b x y → P x = Q y) : a.firstOf P n = none ↔ b.firstOf Q m = none := by
  have hrel := h.rel_firstOf ha hb hPQ
  generalize a.firstOf P n = o at hrel ⊢
  generalize b.firstOf Q m = o' at hrel ⊢
  cases hrel <;> simp

open Classical in
/-- Whether a node of `b` is a twin of the node `n` of `a`. -/
noncomputable def isTwin (a b : Arena) (n m : NodeId) : Bool := decide (a.Twin b n m)

theorem isTwin_iff : a.isTwin b n m = true ↔ a.Twin b n m := by simp [isTwin]

/-- Twins have the same twins. -/
theorem Twin.isTwin_eq (h : b.Twin c m k) : a.isTwin b n m = a.isTwin c n k := by
  rw [Bool.eq_iff_iff, isTwin_iff, isTwin_iff]
  exact ⟨fun hnm => hnm.trans h, fun hnk => hnk.trans h.symm⟩

theorem Twin.isTwin_left (h : a.Twin b n m) : a.isTwin c n = b.isTwin c m := by
  funext k
  rw [Bool.eq_iff_iff, isTwin_iff, isTwin_iff]
  exact ⟨fun hk => h.symm.trans hk, fun hk => h.trans hk⟩

/-- Nothing under a twin is a further twin. -/
theorem Twin.firstOf_eq (h : a.Twin b n m) (hac : b.Acyclic) :
    b.firstOf (a.isTwin b n) m = some m := by
  have hin : (b.inputs m).findSome? (b.firstOf (a.isTwin b n)) = none := by
    refine List.findSome?_eq_none_iff.mpr fun k hk => Arena.firstOf_eq_none_iff.mpr fun x hx => ?_
    refine Bool.eq_false_iff.mpr fun hnx => ?_
    obtain ⟨⟨u, hm, hx'⟩, -⟩ := h.symm.trans (isTwin_iff.mp hnx)
    obtain ⟨w, hw, hlt⟩ := hm.smaller (Relation.TransGen.head' hk hx)
    rw [hw.unique hx'] at hlt
    exact Nat.lt_irrefl _ hlt
  rw [hac.firstOf_eq, hin, Option.none_or, if_pos (isTwin_iff.mpr h)]

/-! ### Graphs are reached in the same order -/

theorem heldGraph?_eq_none_of_inputs (hn : a.inputs n ≠ []) : a.heldGraph? n = none := by
  cases hv : a.value? n with
  | none => simp [heldGraph?, hv]
  | some v => exact absurd (inputs_eq_nil_of_value? hv) hn

theorem callees_of_ret (hr : a.ret? g = some n) :
    a.callees g = (a.postorder n).filterMap a.heldGraph? := by
  have hwalk := filterMap_postorderFrom (fun _ => heldGraph?_eq_none_of_inputs (a := a)) []
    [.enter n] fun k hk => absurd hk List.not_mem_nil
  rw [callees, hr]
  exact hwalk.symm

theorem find?_callees_of_ret (hr : a.ret? g = some n) (p : GraphId → Bool) :
    (a.callees g).find? p = (a.firstOf (fun m => (a.heldGraph? m).any p) n).bind a.heldGraph? := by
  rw [callees_of_ret hr, List.find?_filterMap, firstOf]

theorem Merged.newGraphs_callees (hab : a.Merged b) (ha : a.Orderly) (hb : b.Orderly)
    (g : GraphId) (seen : List GraphId) :
    newGraphs seen (a.callees g) = newGraphs seen (b.callees g) := by
  cases hr : a.ret? g with
  | none => rw [callees, callees, hab.ret?, hr]
  | some r =>
    refine newGraphs_congr (fun seen => ?_) seen
    have hheld : ∀ x y, a.Twin b x y → a.heldGraph? x = b.heldGraph? y := fun x y hxy => by
      rw [heldGraph?, heldGraph?, hxy.value?_eq]
    have hrel := (hab.twin ha (ha.wellFormed.ret_mem hr)).rel_firstOf
      (P := fun m => (a.heldGraph? m).any (· ∉ seen))
      (Q := fun m => (b.heldGraph? m).any (· ∉ seen)) ha hb fun x y hxy => by rw [hheld x y hxy]
    rw [find?_callees_of_ret hr, find?_callees_of_ret (hab.ret?.trans hr)]
    generalize a.firstOf _ r = o at hrel ⊢
    generalize b.firstOf _ r = o' at hrel ⊢
    cases hrel with
    | some hxy => exact hheld _ _ hxy
    | none => rfl

theorem Merged.reachable_eq (hab : a.Merged b) (ha : a.Orderly) (hb : b.Orderly)
    (roots : List GraphId) : b.reachable roots = a.reachable roots :=
  (reachableFrom_congr (hab.newGraphs_callees ha hb) _ _).symm

/-! ### The first of its twins -/

/-- The return nodes of the graphs reached from `root`, in order. -/
def returnNodes (a : Arena) (root : GraphId) : List NodeId := (a.reachable [root]).filterMap a.ret?

theorem find?_groupOrder : (a.groupOrder root).find? P =
    (a.returnNodes root).findSome? (a.firstOf P) := by
  have horder : a.groupOrder root = (a.returnNodes root).flatMap a.postorder := by
    rw [groupOrder, returnNodes]
    generalize a.reachable [root] = gs
    induction gs with
    | nil => rfl
    | cons g gs ih => cases hg : a.ret? g <;> simp [hg, ih]
  rw [horder, List.find?_flatMap]
  rfl

theorem Merged.returnNodes_eq (hab : a.Merged b) (ha : a.Orderly) (hb : b.Orderly)
    (root : GraphId) : b.returnNodes root = a.returnNodes root := by
  rw [returnNodes, returnNodes, hab.reachable_eq ha hb]
  exact List.filterMap_congr fun g _ => hab.ret?

theorem Orderly.mem_nodeIds_of_returnNodes (ha : a.Orderly) (hn : n ∈ a.returnNodes root) :
    n ∈ a.nodeIds := by
  obtain ⟨g, -, hg⟩ := List.mem_filterMap.mp hn
  exact ha.wellFormed.ret_mem hg

/-- Whether a node comes first of its twins in the order of grouping. -/
def FirstTwin (a : Arena) (root : GraphId) (n : NodeId) : Prop :=
  (a.groupOrder root).find? (a.isTwin a n) = some n

theorem FirstPath.under (hpath : a.FirstPath P n m) : a.Under n m := by
  induction hpath with
  | refl => exact Under.refl a n
  | tail _ hm ih => exact ih.tail hm.mem

theorem FirstPath.mem_nodeIds (hpath : a.FirstPath P n m) (ha : a.Orderly) (hn : n ∈ a.nodeIds) :
    m ∈ a.nodeIds :=
  ha.wellFormed.mem_of_under hn hpath.under

/-- The nodes on the way to a node that comes first of its twins come first of theirs. -/
theorem FirstPath.firstTwin (ha : a.Orderly)
    (hlead : a.Leading (a.isTwin a h) (a.returnNodes root) n)
    (hx : a.FirstPath (a.isTwin a h) n x) (hh : a.FirstPath (a.isTwin a h) x h) :
    a.FirstTwin root x := by
  have hmem := hx.mem_nodeIds ha (ha.mem_nodeIds_of_returnNodes hlead.mem)
  have hself : a.isTwin a h h = true := isTwin_iff.mpr (ha.twin_self (hh.mem_nodeIds ha hmem))
  -- the twins of `x` are over twins of `h` as `x` is
  have hover : ∀ y, a.isTwin a x y = true → ¬ a.Barren (a.isTwin a h) y := by
    intro y hy hbarren
    have hnone := ((isTwin_iff.mp hy).firstOf_eq_none_iff ha ha fun z w hzw => hzw.isTwin_eq).mpr
      (firstOf_eq_none_iff.mpr hbarren)
    exact Bool.false_ne_true
      ((firstOf_eq_none_iff.mp hnone h hh.under).symm.trans hself)
  rw [FirstTwin, find?_groupOrder]
  exact hlead.findSome?_eq hover
    (hx.firstOf_eq ha.acyclic hover ((ha.twin_self hmem).firstOf_eq ha.acyclic))

/-- A leading input that stays in its slot leads to what is found first under it. -/
theorem Merged.firstOf_eq_of_leading (hab : a.Merged b) (ha : a.Orderly) (hb : b.Orderly)
    (hlead : a.Leading (a.isTwin a h) (a.inputs n) m)
    (hkept : ∀ e, a.slot? e = some m → b.slot? e = some m)
    (hm : b.firstOf (a.isTwin b h) m = some x) : b.firstOf (a.isTwin b h) n = some x := by
  have hin := (hab.twin ha (mem_nodeIds_of_mem_inputs hlead.mem)).inputs ha hb
  obtain ⟨pre, post, hsplit, hpre⟩ := hlead
  have hslot : b.slot? ⟨n, pre.length⟩ = some m := hkept _ (by simp [slot?, hsplit])
  obtain ⟨hlt, hget⟩ := List.getElem?_eq_some_iff.mp hslot
  have hbefore : ((b.inputs n).take pre.length).findSome? (b.firstOf (a.isTwin b h)) = none := by
    have htake := List.forall₂_take pre.length hin
    rw [hsplit, List.take_left' rfl] at htake
    have hrel := rel_findSome? htake fun y _ z hyz =>
      hyz.rel_firstOf ha hb fun y z hyz => hyz.isTwin_eq (a := a) (n := h)
    rw [List.findSome?_eq_none_iff.mpr hpre] at hrel
    generalize ((b.inputs n).take pre.length).findSome? _ = o at hrel ⊢
    cases hrel
    rfl
  have hfirst : (b.inputs n).findSome? (b.firstOf (a.isTwin b h)) = some x := by
    rw [← List.take_append_drop pre.length (b.inputs n), List.drop_eq_getElem_cons hlt, hget,
      List.findSome?_append, hbefore, Option.none_or, List.findSome?_cons, hm]
  rw [hb.acyclic.firstOf_eq, hfirst, Option.some_or]

/-- Merging that leaves the first twins in their slots leaves them the first twins. -/
theorem Merged.find?_groupOrder (hab : a.Merged b) (ha : a.Orderly) (hb : b.Orderly)
    (hkept : ∀ m, a.FirstTwin root m → ∀ e, a.slot? e = some m → b.slot? e = some m)
    (hh : a.FirstTwin root h) : (b.groupOrder root).find? (a.isTwin b h) = some h := by
  rw [FirstTwin, Arena.find?_groupOrder] at hh
  obtain ⟨r, hlead, hr⟩ := exists_leading hh
  have hpath := ha.acyclic.exists_firstPath hr
  have hrmem := ha.mem_nodeIds_of_returnNodes hlead.mem
  have hall : ∀ x, a.FirstPath (a.isTwin a h) x h → a.FirstPath (a.isTwin a h) r x →
      b.firstOf (a.isTwin b h) x = some h := by
    intro x hx
    induction hx using Relation.ReflTransGen.head_induction_on with
    | refl =>
      exact fun hx => (hab.twin ha (hx.mem_nodeIds ha hrmem)).firstOf_eq hb.acyclic
    | head hm hrest ih =>
      intro hx
      have hx' := Relation.ReflTransGen.tail hx hm
      exact hab.firstOf_eq_of_leading ha hb hm
        (hkept _ (FirstPath.firstTwin ha hlead hx' hrest)) (ih hx')
  obtain ⟨pre, post, hnodes, hpre⟩ := hlead
  rw [Arena.find?_groupOrder, hab.returnNodes_eq ha hb]
  refine List.findSome?_eq_some_iff.mpr ⟨pre, r, post, hnodes, hall r hpath .refl, fun k hk => ?_⟩
  have hkmem : k ∈ a.nodeIds :=
    ha.mem_nodeIds_of_returnNodes (hnodes ▸ List.mem_append_left _ hk)
  exact ((hab.twin ha hkmem).firstOf_eq_none_iff ha hb fun y z hyz => hyz.isTwin_eq).mp
    (hpre k hk)

end Arena

end Midend
