import Mathlib.Data.List.Basic
import Midend.Proofs.Demand.Routes

/-!
# The parts that are listed

Without cycles the list of parts of a node does not depend on where the walk came from: it is the
list of the parts of its elements, or of the environment below and then of the value on top, with
longer paths.
-/

namespace Midend.Live

open Arena (IsTuple IsLayer Within)

variable {a : Arena} {l : Live} {n m env value : NodeId} {parts : List NodeId} {k : Step}
  {e e' : Edge} {p q : Path} {x : Path × Edge}

/-- The parts of a node that stands at the empty path. -/
def partsOf (l : Live) (a : Arena) (n : NodeId) : List (Path × Edge) := l.partsFrom a [] [] n

/-- The part that `x` is once its path starts further up. -/
def lead (q : Path) (x : Path × Edge) : Path × Edge := (q ++ x.1, x.2)

@[simp] theorem lead_fst (q : Path) (x : Path × Edge) : (lead q x).1 = q ++ x.1 := rfl

@[simp] theorem lead_snd (q : Path) (x : Path × Edge) : (lead q x).2 = x.2 := rfl

@[simp] theorem lead_mk (q p : Path) (e : Edge) : lead q (p, e) = (q ++ p, e) := rfl

@[simp] theorem lead_nil : lead [] = id := rfl

@[simp] theorem lead_comp_lead (p q : Path) : lead p ∘ lead q = lead (p ++ q) := by
  funext x
  simp [lead]

theorem not_under_of_mem_inputs (hac : a.Acyclic) (hm : m ∈ a.inputs n) :
    ∀ x ∈ [n], ¬ a.Under m x := by
  intro x hx hu
  rw [List.mem_singleton.mp hx] at hu
  exact hac.not_under hm hu

/-- The list of parts does not depend on where the walk came from. -/
theorem partsFrom_eq (hac : a.Acyclic) {above : List NodeId} (q : Path)
    (habove : ∀ x ∈ above, ¬ a.Under n x) :
    l.partsFrom a above q n = (l.partsOf a n).map (lead q) := by
  induction n using hac.induction generalizing above q with
  | step n ih =>
    have hfree : n ∉ above := fun hn => habove n hn (Arena.Under.refl a n)
    have hchild : ∀ m ∈ a.inputs n, ∀ q, l.partsFrom a (n :: above) q m =
        (l.partsOf a m).map (lead q) := by
      intro m hm q
      refine ih m hm q fun x hx hu => ?_
      rcases List.mem_cons.mp hx with rfl | hx
      · exact hac.not_under hm hu
      · exact habove x hx (Arena.Under.of_inputs hm hu)
    have hchild' : ∀ m ∈ a.inputs n, ∀ q, l.partsFrom a [n] q m =
        (l.partsOf a m).map (lead q) := fun m hm q =>
      ih m hm q (not_under_of_mem_inputs hac hm)
    rw [partsOf, partsFrom, partsFrom]
    by_cases hc : 1 < l.useCount n ∨ n ∈ above ∨ n ∉ a.nodeIds
    · have hc' : 1 < l.useCount n ∨ n ∈ [] ∨ n ∉ a.nodeIds :=
        hc.imp_right fun h => h.imp_left fun hn => absurd hn hfree
      rw [dif_pos hc, dif_pos hc']
      rfl
    · have hc' : ¬ (1 < l.useCount n ∨ n ∈ [] ∨ n ∉ a.nodeIds) := fun h => hc <|
        h.imp_right fun h => h.imp_left fun hn => absurd hn List.not_mem_nil
      rw [dif_neg hc, dif_neg hc']
      split
      · next func parts happ hin =>
        rw [List.map_flatMap]
        refine List.flatMap_congr ?_
        rintro ⟨m, i⟩ hmi
        have hm : m ∈ a.inputs n := by
          rw [hin]
          exact List.mem_cons_of_mem func (List.mem_of_getElem? (List.mem_zipIdx_iff_getElem?.mp hmi))
        simp [hchild m hm, hchild' m hm]
      · next func env key value happ hin =>
        have henv : env ∈ a.inputs n := by simp [hin]
        have hvalue : value ∈ a.inputs n := by simp [hin]
        split
        · rfl
        · simp [hchild env henv, hchild' env henv, hchild value hvalue, hchild' value hvalue]
      · rfl

theorem partsOf_tuple (hac : a.Acyclic) (hn : l.Single n) (ht : a.IsTuple n parts) :
    l.partsOf a n = parts.zipIdx.flatMap fun (m, i) =>
      ([.index i], ⟨n, i + 1⟩) :: (l.partsOf a m).map (lead [.index i]) := by
  obtain ⟨happ, func, hin⟩ := ht
  have hmem : n ∈ a.nodeIds := Arena.mem_nodeIds_of_mem_inputs (m := func) (by simp [hin])
  have hc : ¬ (1 < l.useCount n ∨ n ∈ [] ∨ n ∉ a.nodeIds) := by
    simp [hmem, Nat.not_lt.mpr hn]
  rw [partsOf, partsFrom, dif_neg hc, happ, hin]
  refine List.flatMap_congr ?_
  rintro ⟨m, i⟩ hmi
  have hm : m ∈ a.inputs n := by
    rw [hin]
    exact List.mem_cons_of_mem func (List.mem_of_getElem? (List.mem_zipIdx_iff_getElem?.mp hmi))
  simp [partsFrom_eq hac _ (not_under_of_mem_inputs hac hm)]

theorem partsOf_layer (hac : a.Acyclic) (hn : l.Single n) (hl : a.IsLayer n k env value) :
    l.partsOf a n =
      l.partsOf a env ++ ([k], ⟨n, 3⟩) :: (l.partsOf a value).map (lead [k]) := by
  obtain ⟨happ, func, key, hin, hk⟩ := hl
  have hmem : n ∈ a.nodeIds := Arena.mem_nodeIds_of_mem_inputs (m := func) (by simp [hin])
  have hc : ¬ (1 < l.useCount n ∨ n ∈ [] ∨ n ∉ a.nodeIds) := by
    simp [hmem, Nat.not_lt.mpr hn]
  have henv : env ∈ a.inputs n := by simp [hin]
  have hvalue : value ∈ a.inputs n := by simp [hin]
  rw [partsOf, partsFrom, dif_neg hc, happ, hin]
  simp only [hk, partsFrom_eq hac _ (not_under_of_mem_inputs hac henv),
    partsFrom_eq hac _ (not_under_of_mem_inputs hac hvalue)]
  simp

/-- Whether a node may be taken apart: it has a single use, and makes a tuple or puts a value into an
environment. -/
def Taken (l : Live) (a : Arena) (n : NodeId) : Prop :=
  l.Single n ∧ ((∃ parts, a.IsTuple n parts) ∨ ∃ k env value, a.IsLayer n k env value)

/-- What is not taken apart has no parts, whatever is being taken apart. -/
theorem partsFrom_of_not_taken {above : List NodeId} {p : Path} (hn : ¬ l.Taken a n) :
    l.partsFrom a above p n = [] := by
  rw [partsFrom]
  split
  · rfl
  · next hc =>
    have hs : l.Single n := Nat.not_lt.mp fun hlt => hc (Or.inl hlt)
    split
    · next func parts happ hin => exact absurd ⟨hs, Or.inl ⟨parts, happ, func, hin⟩⟩ hn
    · next func env key value happ hin =>
      split
      · rfl
      · next k hk => exact absurd ⟨hs, Or.inr ⟨k, env, value, happ, func, key, hin, hk⟩⟩ hn
    · rfl

/-- Where a listed part stands. -/
inductive Listed (l : Live) (a : Arena) : NodeId → Path × Edge → Prop
  | element {n m : NodeId} {parts : List NodeId} {i : Nat} : l.Single n → a.IsTuple n parts →
      parts[i]? = some m → Listed l a n ([.index i], ⟨n, i + 1⟩)
  | inElement {n m : NodeId} {parts : List NodeId} {i : Nat} {x : Path × Edge} : l.Single n →
      a.IsTuple n parts → parts[i]? = some m → Listed l a m x → Listed l a n (lead [.index i] x)
  | entry {n env value : NodeId} {k : Step} : l.Single n → a.IsLayer n k env value →
      Listed l a n ([k], ⟨n, 3⟩)
  | inEntry {n env value : NodeId} {k : Step} {x : Path × Edge} : l.Single n →
      a.IsLayer n k env value → Listed l a value x → Listed l a n (lead [k] x)
  | inBase {n env value : NodeId} {k : Step} {x : Path × Edge} : l.Single n →
      a.IsLayer n k env value → Listed l a env x → Listed l a n x

theorem mem_partsOf (hac : a.Acyclic) : x ∈ l.partsOf a n ↔ l.Listed a n x := by
  constructor
  · induction n using hac.induction generalizing x with
    | step n ih =>
      intro hx
      by_cases hn : l.Taken a n
      · obtain ⟨hs, ⟨parts, ht⟩ | ⟨k, env, value, hl⟩⟩ := hn
        · rw [partsOf_tuple hac hs ht] at hx
          obtain ⟨⟨m, i⟩, hmi, hx⟩ := List.mem_flatMap.mp hx
          have hm := List.mem_zipIdx_iff_getElem?.mp hmi
          rcases List.mem_cons.mp hx with rfl | hx
          · exact .element hs ht hm
          · obtain ⟨y, hy, rfl⟩ := List.mem_map.mp hx
            have hin := Arena.mem_inputs_of_slot? (ht.slot?.trans hm)
            exact .inElement hs ht hm (ih m hin hy)
        · rw [partsOf_layer hac hs hl] at hx
          have henv := Arena.mem_inputs_of_slot? hl.slot?_env
          have hvalue := Arena.mem_inputs_of_slot? hl.slot?_value
          rcases List.mem_append.mp hx with hx | hx
          · exact .inBase hs hl (ih env henv hx)
          · rcases List.mem_cons.mp hx with rfl | hx
            · exact .entry hs hl
            · obtain ⟨y, hy, rfl⟩ := List.mem_map.mp hx
              exact .inEntry hs hl (ih value hvalue hy)
      · rw [partsOf, partsFrom_of_not_taken hn] at hx
        exact absurd hx List.not_mem_nil
  · intro hx
    induction hx with
    | @element n m parts i hn ht hm =>
      rw [partsOf_tuple hac hn ht]
      exact List.mem_flatMap.mpr ⟨(m, i), List.mem_zipIdx_iff_getElem?.mpr hm, List.mem_cons_self⟩
    | @inElement n m parts i x hn ht hm _ ih =>
      rw [partsOf_tuple hac hn ht]
      refine List.mem_flatMap.mpr ⟨(m, i), List.mem_zipIdx_iff_getElem?.mpr hm, ?_⟩
      exact List.mem_cons_of_mem _ (List.mem_map_of_mem ih)
    | entry hn hl =>
      rw [partsOf_layer hac hn hl]
      exact List.mem_append_right _ List.mem_cons_self
    | inEntry hn hl _ ih =>
      rw [partsOf_layer hac hn hl]
      exact List.mem_append_right _ (List.mem_cons_of_mem _ (List.mem_map_of_mem ih))
    | inBase hn hl _ ih =>
      rw [partsOf_layer hac hn hl]
      exact List.mem_append_left _ ih

theorem Listed.of_isTuple (h : l.Listed a n x) (ht : a.IsTuple n parts) :
    ∃ i m, parts[i]? = some m ∧ (x = ([.index i], ⟨n, i + 1⟩) ∨
      ∃ y, l.Listed a m y ∧ x = lead [.index i] y) := by
  cases h with
  | element _ ht' hm => exact ⟨_, _, ht.unique ht' ▸ hm, Or.inl rfl⟩
  | inElement _ ht' hm hy => exact ⟨_, _, ht.unique ht' ▸ hm, Or.inr ⟨_, hy, rfl⟩⟩
  | entry _ hl => exact absurd hl ht.not_isLayer
  | inEntry _ hl _ => exact absurd hl ht.not_isLayer
  | inBase _ hl _ => exact absurd hl ht.not_isLayer

theorem Listed.of_isLayer (h : l.Listed a n x) (hl : a.IsLayer n k env value) :
    x = ([k], ⟨n, 3⟩) ∨ (∃ y, l.Listed a value y ∧ x = lead [k] y) ∨ l.Listed a env x := by
  cases h with
  | element _ ht _ => exact absurd hl ht.not_isLayer
  | inElement _ ht _ _ => exact absurd hl ht.not_isLayer
  | entry _ hl' =>
    obtain ⟨rfl, -, -⟩ := hl.unique hl'
    exact Or.inl rfl
  | inEntry _ hl' hy =>
    obtain ⟨rfl, -, rfl⟩ := hl.unique hl'
    exact Or.inr (Or.inl ⟨_, hy, rfl⟩)
  | inBase _ hl' hy =>
    obtain ⟨-, rfl, -⟩ := hl.unique hl'
    exact Or.inr (Or.inr hy)

theorem Listed.path_ne_nil (h : l.Listed a n x) : x.1 ≠ [] := by
  induction h with
  | element _ _ _ => simp
  | inElement _ _ _ _ _ => simp
  | entry _ _ => simp
  | inEntry _ _ _ _ => simp
  | inBase _ _ _ ih => exact ih

/-- A listed slot is entered through nodes that are taken apart. -/
theorem Listed.within_taken (h : l.Listed a n x) (he : a.slot? e = some n) :
    a.Within (l.Taken a) e x.2 := by
  induction h generalizing e with
  | element hn ht _ => exact Relation.ReflTransGen.single ⟨he, hn, Or.inl ⟨_, ht⟩⟩
  | @inElement n m parts i x hn ht hm _ ih =>
    exact Relation.ReflTransGen.head ⟨he, hn, Or.inl ⟨_, ht⟩⟩
      (ih (e := ⟨n, i + 1⟩) (ht.slot?.trans hm))
  | entry hn hl => exact Relation.ReflTransGen.single ⟨he, hn, Or.inr ⟨_, _, _, hl⟩⟩
  | @inEntry n env value k x hn hl _ ih =>
    exact Relation.ReflTransGen.head ⟨he, hn, Or.inr ⟨_, _, _, hl⟩⟩ (ih (e := ⟨n, 3⟩) hl.slot?_value)
  | @inBase n env value k x hn hl _ ih =>
    exact Relation.ReflTransGen.head ⟨he, hn, Or.inr ⟨_, _, _, hl⟩⟩ (ih (e := ⟨n, 1⟩) hl.slot?_env)

/-- A listed slot is entered through nodes with a single use. -/
theorem Listed.within (h : l.Listed a n x) (he : a.slot? e = some n) :
    a.Within l.Single e x.2 :=
  (h.within_taken he).mono fun _ hn => hn.1

theorem Listed.exists_slot (h : l.Listed a n x) : ∃ m, a.slot? x.2 = some m := by
  induction h with
  | element _ ht hm => exact ⟨_, ht.slot?.trans hm⟩
  | inElement _ _ _ _ ih => exact ih
  | entry _ hl => exact ⟨_, hl.slot?_value⟩
  | inEntry _ _ _ ih => exact ih
  | inBase _ _ _ ih => exact ih

/-- A listed slot belongs to a tuple or to a layer. -/
theorem Listed.owner (h : l.Listed a n x) : (∃ parts, a.IsTuple x.2.owner parts) ∨
    ∃ k env value, a.IsLayer x.2.owner k env value := by
  induction h with
  | element _ ht _ => exact Or.inl ⟨_, ht⟩
  | inElement _ _ _ _ ih => exact ih
  | entry _ hl => exact Or.inr ⟨_, _, _, hl⟩
  | inEntry _ _ _ ih => exact ih
  | inBase _ _ _ ih => exact ih

theorem Listed.index_pos (h : l.Listed a n x) : 0 < x.2.index := by
  induction h with
  | element _ _ _ => exact Nat.succ_pos _
  | inElement _ _ _ _ ih => exact ih
  | entry _ _ => exact Nat.succ_pos _
  | inEntry _ _ _ ih => exact ih
  | inBase _ _ _ ih => exact ih

/-! ### The last part at a path -/

/-- Whether `x` is the last of a list at its path. -/
def LastAt (xs : List (Path × Edge)) (p : Path) (e : Edge) : Prop :=
  ∃ pre post, xs = pre ++ (p, e) :: post ∧ ∀ x ∈ post, x.1 ≠ p

theorem LastAt.append_left {xs ys : List (Path × Edge)} (h : LastAt xs p e)
    (hys : ∀ x ∈ ys, x.1 ≠ p) : LastAt (xs ++ ys) p e := by
  obtain ⟨pre, post, rfl, hpost⟩ := h
  refine ⟨pre, post ++ ys, by simp, fun x hx => ?_⟩
  exact (List.mem_append.mp hx).elim (hpost x) (hys x)

theorem LastAt.append_right {ys : List (Path × Edge)} (xs : List (Path × Edge))
    (h : LastAt ys p e) : LastAt (xs ++ ys) p e := by
  obtain ⟨pre, post, rfl, hpost⟩ := h
  exact ⟨xs ++ pre, post, by simp, hpost⟩

theorem LastAt.led {xs : List (Path × Edge)} (h : LastAt xs p e) (q : Path) :
    LastAt (xs.map (lead q)) (q ++ p) e := by
  obtain ⟨pre, post, rfl, hpost⟩ := h
  refine ⟨pre.map (Live.lead q), post.map (Live.lead q), by simp [Live.lead], fun x hx => ?_⟩
  obtain ⟨y, hy, rfl⟩ := List.mem_map.mp hx
  exact fun heq => hpost y hy (List.append_cancel_left heq)

/-- The slot at the head of a block, the parts in it behind. -/
theorem LastAt.block {xs : List (Path × Edge)} (k : Step) (hxs : ∀ x ∈ xs, x.1 ≠ []) :
    LastAt (([k], e) :: xs.map (lead [k])) [k] e := by
  refine ⟨[], xs.map (Live.lead [k]), rfl, fun x hx => ?_⟩
  obtain ⟨y, hy, rfl⟩ := List.mem_map.mp hx
  simpa using hxs y hy

/-- Of the parts listed at a path the last is the one that a reader ends up at, if all it passes has
a single use: an upper layer is listed after the layers below it. -/
theorem lastAt_of_opens (hac : a.Acyclic) (h : l.Opens a e p e') (hp : p ≠ [])
    (he : a.slot? e = some n) : LastAt (l.partsOf a n) p e' := by
  have hne : ∀ m, ∀ x ∈ l.partsOf a m, x.1 ≠ [] := fun m x hx =>
    ((mem_partsOf hac).mp hx).path_ne_nil
  induction h generalizing n with
  | here e => exact absurd rfl hp
  | @element e e' n' m parts i p hs hn ht hm hrest ih =>
    obtain rfl := Option.some.inj (hs.symm.trans he)
    have hblock : LastAt (([.index i], ⟨n', i + 1⟩) :: (l.partsOf a m).map (lead [.index i]))
        (.index i :: p) e' := by
      by_cases hp' : p = []
      · subst hp'
        cases hrest
        exact LastAt.block _ (hne m)
      · exact ((ih hp' (ht.slot?.trans hm)).led [.index i]).append_right [_]
    rw [partsOf_tuple hac hn ht]
    obtain ⟨hlt, rfl⟩ := List.getElem?_eq_some_iff.mp hm
    have hsplit : parts.zipIdx = parts.zipIdx.take i ++ (parts[i], i) :: parts.zipIdx.drop (i + 1) := by
      have hlt' : i < parts.zipIdx.length := by simpa using hlt
      have hget : parts.zipIdx[i] = (parts[i], i) := by simp
      rw [← hget, List.getElem_cons_drop, List.take_append_drop]
    rw [hsplit, List.flatMap_append, List.flatMap_cons]
    refine (hblock.append_left fun x hx => ?_).append_right _
    obtain ⟨⟨m', j⟩, hmj, hx⟩ := List.mem_flatMap.mp hx
    have hj : j ≠ i := by
      obtain ⟨d, hd, hget⟩ := List.mem_iff_getElem.mp hmj
      have : j = i + 1 + d := by simpa using (congrArg Prod.snd hget).symm
      omega
    rcases List.mem_cons.mp hx with rfl | hx
    · simp [hj]
    · obtain ⟨y, _, rfl⟩ := List.mem_map.mp hx
      simp [hj]
  | @entry e e' n' env value k p hs hn hl hrest ih =>
    obtain rfl := Option.some.inj (hs.symm.trans he)
    rw [partsOf_layer hac hn hl]
    refine LastAt.append_right _ ?_
    by_cases hp' : p = []
    · subst hp'
      cases hrest
      exact LastAt.block _ (hne value)
    · exact ((ih hp' hl.slot?_value).led [k]).append_right [_]
  | @under e e' n' env value k k' p hs hn hl hk hrest ih =>
    obtain rfl := Option.some.inj (hs.symm.trans he)
    rw [partsOf_layer hac hn hl]
    refine (ih (by simp) hl.slot?_env).append_left fun x hx => ?_
    rcases List.mem_cons.mp hx with rfl | hx
    · simp [Ne.symm hk]
    · obtain ⟨y, _, rfl⟩ := List.mem_map.mp hx
      simp [Ne.symm hk]

end Midend.Live
