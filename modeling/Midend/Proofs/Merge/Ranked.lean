import Mathlib
import Midend.Proofs.Merge.Twins

/-!
# The order of groups

Groups stand in the order of their first members, and a member is listed once. With nodes that keep
to their graph and shapes that do not collide, the inputs of all members of a group, not only of the
first, are of earlier groups, because equal nodes of one graph have inputs of the same groups.
-/

namespace Midend

namespace Grouping

variable {a : Arena} {r r' : Grouping} {n m : NodeId} {done ns ms : List NodeId} {c : UInt64}
  {key key' : UInt64 × Option GraphId} {root : GraphId}

/-- The key of the group of a node. -/
def key? (a : Arena) (r : Grouping) (n : NodeId) : Option (UInt64 × Option GraphId) :=
  (r.classes.get? n).map fun c => (c, a.owner? n)

theorem key?_eq_some_iff :
    r.key? a n = some key ↔ r.classes.get? n = some key.1 ∧ a.owner? n = key.2 := by
  obtain ⟨c, o⟩ := key
  simp [key?]

/-- The place of a group among all groups. -/
def rank (r : Grouping) (key : UInt64 × Option GraphId) : Nat := r.groups.keys.idxOf key

theorem key?_empty (a : Arena) (n : NodeId) : Grouping.empty.key? a n = none := by
  simp [key?, Grouping.empty]

/-! ### One node more -/

/-- A grouping with a node that had no class before. -/
def entered (a : Arena) (r : Grouping) (n : NodeId) (c : UInt64) : Grouping :=
  ⟨r.classes.insert n c, r.groups.append (c, a.owner? n) [n]⟩

theorem key?_entered :
    (r.entered a n c).key? a m = if m = n then some (c, a.owner? n) else r.key? a m := by
  simp only [key?, entered, OrderedMap.get?_insert]
  split
  · next h => simp [h]
  · rfl

theorem keys_entered_of_mem (h : (c, a.owner? n) ∈ r.groups.keys) :
    (r.entered a n c).groups.keys = r.groups.keys :=
  (OrderedMap.keys_insert r.groups _ _).trans (if_pos h)

theorem keys_entered_of_not_mem (h : (c, a.owner? n) ∉ r.groups.keys) :
    (r.entered a n c).groups.keys = r.groups.keys ++ [(c, a.owner? n)] :=
  (OrderedMap.keys_insert r.groups _ _).trans (if_neg h)

theorem rank_entered (h : key ∈ r.groups.keys) :
    (r.entered a n c).rank key = r.rank key := by
  unfold rank
  by_cases hc : (c, a.owner? n) ∈ r.groups.keys
  · rw [keys_entered_of_mem hc]
  · rw [keys_entered_of_not_mem hc, List.idxOf_append_of_mem h]

theorem get?_groups_entered : (r.entered a n c).groups.get? key =
    if key = (c, a.owner? n) then some ((r.groups.get? (c, a.owner? n)).getD [] ++ [n])
    else r.groups.get? key := by
  simp only [entered, OrderedMap.get?_append]

theorem key?_entered_self : (r.entered a n c).key? a n = some (c, a.owner? n) := by
  rw [key?_entered, if_pos rfl]

theorem ne_of_key? (hn : r.key? a n = none) (hm : r.key? a m = some key) : m ≠ n := by
  rintro rfl
  simp [hn] at hm

theorem key?_entered_of_key? (hn : r.key? a n = none) (hm : r.key? a m = some key) :
    (r.entered a n c).key? a m = some key := by
  rw [key?_entered, if_neg (ne_of_key? hn hm), hm]

private theorem find?_concat_of_mem {P : NodeId → Bool} (h : n ∈ done) :
    (done ++ [n]).find? P = done.find? P := by
  rw [List.find?_append]
  cases hf : done.find? P with
  | some x => rfl
  | none => simpa using List.find?_eq_none.mp hf n h

/-! ### Groups of listed nodes -/

variable [Hashable Shape]

/-- What holds of the groups of the nodes `done`: each lists its nodes once and starts with the
first of them. -/
structure Listed (a : Arena) (r : Grouping) (done : List NodeId) : Prop where
  faithful : r.Faithful a
  classed : ∀ n, (∃ key, r.key? a n = some key) ↔ n ∈ done
  inhabited : ∀ key ∈ r.groups.keys, ∃ n, r.key? a n = some key
  nodup : ∀ key ms, r.groups.get? key = some ms → ms.Nodup
  head : ∀ key ms, r.groups.get? key = some ms →
    ms.head? = done.find? fun n => r.key? a n = some key

/-- What holds besides if shapes do not collide: each group comes after the groups of the inputs of
its nodes. -/
structure Ranked (a : Arena) (r : Grouping) (done : List NodeId) : Prop extends Listed a r done where
  rank_lt : ∀ n m key key', r.key? a n = some key → m ∈ a.inputs n → r.key? a m = some key' →
    r.rank key' < r.rank key

theorem listed_empty : Listed a .empty [] :=
  ⟨faithful_empty, fun n => by simp [key?_empty], fun key h => absurd h List.not_mem_nil,
    fun key ms h => by simp [Grouping.empty] at h, fun key ms h => by simp [Grouping.empty] at h⟩

theorem ranked_empty : Ranked a .empty [] :=
  ⟨listed_empty, fun n m key key' h => by simp [key?_empty] at h⟩

theorem Faithful.mem_group (h : r.Faithful a) (hn : r.key? a n = some key) :
    ∃ ms, r.groups.get? key = some ms ∧ n ∈ ms := by
  obtain ⟨hc, ho⟩ := key?_eq_some_iff.mp hn
  obtain ⟨ms, hms, hn⟩ := h.grouped n key.1 hc
  rw [ho] at hms
  exact ⟨ms, hms, hn⟩

theorem Faithful.mem_keys (h : r.Faithful a) (hn : r.key? a n = some key) :
    key ∈ r.groups.keys := by
  obtain ⟨ms, hms, -⟩ := h.mem_group hn
  exact OrderedMap.mem_keys_of_get? hms

theorem Faithful.key_of_mem (h : r.Faithful a) (hms : r.groups.get? key = some ms) (hn : n ∈ ms) :
    r.key? a n = some key :=
  key?_eq_some_iff.mpr (h.members key.1 key.2 ms hms n hn)

/-- The inputs of a node with a class have classes. -/
theorem Faithful.key_of_input (h : r.Faithful a) (hn : r.key? a n = some key)
    (hm : m ∈ a.inputs n) : ∃ key', r.key? a m = some key' := by
  obtain ⟨s, hs, -⟩ := h.shape n key.1 (key?_eq_some_iff.mp hn).1
  have hkind := Arena.kind?_of_mem_inputs hm
  obtain ⟨cs, -, hcs⟩ : ∃ cs, s = .apply cs ∧
      List.Forall₂ (fun m c => r.classes.get? m = some c) (a.inputs n) cs := by
    simpa [shape_eq_ok_iff, hkind] using hs
  obtain ⟨i, hi, rfl⟩ := List.mem_iff_getElem.mp hm
  have hc : r.classes.get? (a.inputs n)[i] = some _ := hcs.get hi (hcs.length_eq ▸ hi)
  exact ⟨(_, _), key?_eq_some_iff.mpr ⟨hc, rfl⟩⟩

theorem Faithful.key_eq_of_twin (h : r.Faithful a) (hnm : a.Twin a n m)
    (hn : r.key? a n = some key) (hm : r.key? a m = some key') : key = key' := by
  obtain ⟨⟨u, hun, hum⟩, ho⟩ := hnm
  obtain ⟨hcn, hon⟩ := key?_eq_some_iff.mp hn
  obtain ⟨hcm, hom⟩ := key?_eq_some_iff.mp hm
  exact Prod.ext (h.class_eq hun hum hcn hcm) (hon.symm.trans (ho.trans hom))

section

variable (hno : a.NoCollision root) (ha : a.Orderly)
include hno ha

/-- Without collisions the nodes of a group are the twins of any of them. -/
theorem Faithful.twin_iff (h : r.Faithful a) (hn : a.Returned [root] n) (hm : a.Returned [root] m)
    (hkn : r.key? a n = some key) (hkm : r.key? a m = some key') :
    a.Twin a n m ↔ key = key' := by
  refine ⟨fun hnm => h.key_eq_of_twin hnm hkn hkm, ?_⟩
  rintro rfl
  obtain ⟨hcn, hon⟩ := key?_eq_some_iff.mp hkn
  obtain ⟨hcm, hom⟩ := key?_eq_some_iff.mp hkm
  obtain ⟨u, hu⟩ := ha.exists_unfolds (hn.mem_nodeIds ha.wellFormed)
  have hex := ha.exists_unfolds (hm.mem_nodeIds ha.wellFormed)
  exact ⟨⟨u, hu, hno.unfolds h hn hm hu hex hcn hcm⟩, hon.trans hom.symm⟩

/-- Nodes of one group have inputs of the same groups. -/
theorem Faithful.same_inputs (h : r.Faithful a) (hn : a.Returned [root] n)
    (hm : a.Returned [root] m) (hkn : r.key? a n = some key) (hkm : r.key? a m = some key)
    {k : NodeId} (hk : k ∈ a.inputs n) (hkey : r.key? a k = some key') :
    ∃ j ∈ a.inputs m, r.key? a j = some key' := by
  have hin := ((h.twin_iff hno ha hn hm hkn hkm).mpr rfl).inputs ha ha
  obtain ⟨i, hi, rfl⟩ := List.mem_iff_getElem.mp hk
  have hmem := List.getElem_mem (hin.length_eq ▸ hi : i < (a.inputs m).length)
  obtain ⟨key'', hkey''⟩ := h.key_of_input hkm hmem
  obtain rfl := h.key_eq_of_twin (hin.get hi (hin.length_eq ▸ hi)) hkey hkey''
  exact ⟨_, hmem, hkey''⟩

end

theorem add_eq_entered (hn : r.classes.get? n = none) (hok : r.add a n = .ok r') :
    ∃ c, r' = r.entered a n c := by
  rw [add, hn] at hok
  cases hs : r.shape a n with
  | error f => simp [hs, Except.map] at hok
  | ok s =>
    rw [hs] at hok
    exact ⟨_, (Except.ok.inj hok).symm⟩

theorem Listed.inhabited_entered (h : r.Listed a done) (hn : r.key? a n = none)
    (hkey : key ∈ (r.entered a n c).groups.keys) :
    ∃ m, (r.entered a n c).key? a m = some key := by
  by_cases hc : (c, a.owner? n) ∈ r.groups.keys
  · obtain ⟨m, hm⟩ := h.inhabited key (keys_entered_of_mem hc ▸ hkey)
    exact ⟨m, key?_entered_of_key? hn hm⟩
  · rw [keys_entered_of_not_mem hc, List.mem_append, List.mem_singleton] at hkey
    rcases hkey with hkey | rfl
    · obtain ⟨m, hm⟩ := h.inhabited key hkey
      exact ⟨m, key?_entered_of_key? hn hm⟩
    · exact ⟨n, key?_entered_self⟩

theorem Listed.nodup_entered (h : r.Listed a done) (hn : r.key? a n = none)
    (hms : (r.entered a n c).groups.get? key = some ms) : ms.Nodup := by
  rw [get?_groups_entered] at hms
  split at hms
  · obtain rfl := Option.some.inj hms
    cases hold : r.groups.get? (c, a.owner? n) with
    | none => exact List.nodup_singleton n
    | some ms =>
      rw [Option.getD_some, List.nodup_append]
      exact ⟨h.nodup _ ms hold, List.nodup_singleton n, fun m hm k hk => by
        rw [List.mem_singleton.mp hk]
        exact ne_of_key? hn (h.faithful.key_of_mem hold hm)⟩
  · exact h.nodup key ms hms

theorem Listed.head_entered (h : r.Listed a done) (hn : r.key? a n = none)
    (hms : (r.entered a n c).groups.get? key = some ms) :
    ms.head? = (done ++ [n]).find? fun m => (r.entered a n c).key? a m = some key := by
  have hfind : done.find? (fun m => (r.entered a n c).key? a m = some key) =
      done.find? fun m => r.key? a m = some key := by
    refine List.find?_congr fun m hm => ?_
    obtain ⟨k, hk⟩ := (h.classed m).mpr hm
    rw [hk, key?_entered_of_key? hn hk]
  rw [List.find?_append, hfind]
  rw [get?_groups_entered] at hms
  split at hms
  · next heq =>
    subst heq
    obtain rfl := Option.some.inj hms
    rw [List.head?_append]
    cases hold : r.groups.get? (c, a.owner? n) with
    | none =>
      have hnone : done.find? (fun m => r.key? a m = some (c, a.owner? n)) = none := by
        refine List.find?_eq_none.mpr fun m _ hm => ?_
        obtain ⟨ms, hms, -⟩ := h.faithful.mem_group (of_decide_eq_true hm)
        simp [hold] at hms
      simp [hnone, key?_entered_self]
    | some ms => simp [h.head _ ms hold, key?_entered_self]
  · next hkey =>
    rw [h.head key ms hms]
    simp [key?_entered_self, Ne.symm hkey]

theorem Listed.enter (h : r.Listed a done) (hn : r.key? a n = none)
    (hr' : (r.entered a n c).Faithful a) : (r.entered a n c).Listed a (done ++ [n]) := by
  refine ⟨hr', fun m => ?_, fun _ => h.inhabited_entered hn, fun _ _ => h.nodup_entered hn,
    fun _ _ => h.head_entered hn⟩
  rw [key?_entered, List.mem_append, List.mem_singleton, ← h.classed]
  split
  · next heq => simp [heq]
  · next hne => simp [hne]

theorem Listed.add (h : r.Listed a done) (hin : ∀ m ∈ a.inputs n, m ∈ done)
    (hok : r.add a n = .ok r') : r'.Listed a (done ++ [n]) := by
  cases hn : r.classes.get? n with
  | some c =>
    obtain rfl : r = r' := by simpa [Grouping.add, hn] using hok
    have hmem : n ∈ done := (h.classed n).mp ⟨(c, _), key?_eq_some_iff.mpr ⟨hn, rfl⟩⟩
    refine ⟨h.faithful, fun m => ?_, h.inhabited, h.nodup, fun key ms hms => ?_⟩
    · rw [h.classed, List.mem_append, List.mem_singleton]
      exact ⟨Or.inl, fun hm => hm.elim id fun hmn => hmn ▸ hmem⟩
    · rw [h.head key ms hms, find?_concat_of_mem hmem]
  | none =>
    obtain ⟨r₁, hadd, hr₁, -⟩ := h.faithful.add (n := n) fun m hm => by
      obtain ⟨key, hkey⟩ := (h.classed m).mpr (hin m hm)
      exact ⟨key.1, (key?_eq_some_iff.mp hkey).1⟩
    obtain rfl := Except.ok.inj (hadd.symm.trans hok)
    obtain ⟨c, rfl⟩ := add_eq_entered hn hok
    exact h.enter (by simp [key?, hn]) hr₁

theorem Listed.addAll (h : r.Listed a done) (hns : a.InputsFirst done ns)
    (hok : r.addAll a ns = .ok r') : r'.Listed a (done ++ ns) := by
  induction ns generalizing r done with
  | nil =>
    obtain rfl := Except.ok.inj hok
    rwa [List.append_nil]
  | cons n ns ih =>
    unfold Grouping.addAll at hok
    split at hok
    · next r₁ hadd =>
      have hnext : a.InputsFirst (done ++ [n]) ns := hns.2.mono fun x hx => by
        simpa [or_comm] using hx
      simpa using ih (h.add hns.1 hadd) hnext hok
    · cases hok

/-! ### The order of groups -/

section

variable (hno : a.NoCollision root) (ha : a.Orderly)
include hno ha

/-- The groups of what a new node uses come before its own. -/
theorem Ranked.rank_entered_lt (h : r.Ranked a done) (hn : r.key? a n = none)
    (hr' : (r.entered a n c).Faithful a) (hret : ∀ m ∈ done ++ [n], a.Returned [root] m)
    (hm : m ∈ a.inputs n) (hkey : r.key? a m = some key) :
    (r.entered a n c).rank key < (r.entered a n c).rank (c, a.owner? n) := by
  rw [rank_entered (h.faithful.mem_keys hkey)]
  by_cases hc : (c, a.owner? n) ∈ r.groups.keys
  · -- the inputs of a member that was there before say where the group stands
    rw [rank_entered hc]
    obtain ⟨p, hp⟩ := h.inhabited _ hc
    have hpdone : p ∈ done := (h.classed p).mp ⟨_, hp⟩
    obtain ⟨j, hj, hjkey⟩ := hr'.same_inputs hno ha (hret n (by simp)) (hret p (by simp [hpdone]))
      key?_entered_self (key?_entered_of_key? hn hp) hm (key?_entered_of_key? hn hkey)
    obtain ⟨key', hkey'⟩ := h.faithful.key_of_input hp hj
    obtain rfl : key' = key :=
      Option.some.inj ((key?_entered_of_key? hn hkey').symm.trans hjkey)
    exact h.rank_lt p j _ key' hp hj hkey'
  · -- a new group comes last
    have hlast : (r.entered a n c).rank (c, a.owner? n) = r.groups.keys.length := by
      rw [rank, keys_entered_of_not_mem hc, List.idxOf_append_of_notMem hc,
        List.idxOf_cons_self, Nat.add_zero]
    rw [hlast]
    exact List.idxOf_lt_length_of_mem (h.faithful.mem_keys hkey)

theorem Ranked.enter (h : r.Ranked a done) (hin : ∀ m ∈ a.inputs n, m ∈ done)
    (hn : r.key? a n = none) (hr' : (r.entered a n c).Faithful a)
    (hret : ∀ m ∈ done ++ [n], a.Returned [root] m) :
    (r.entered a n c).Ranked a (done ++ [n]) := by
  refine ⟨h.toListed.enter hn hr', fun x y key key' hx hy hkey => ?_⟩
  have hold : ∀ {k}, r.key? a y = some k → k = key' := fun hk =>
    Option.some.inj ((key?_entered_of_key? hn hk).symm.trans hkey)
  by_cases hxn : x = n
  · subst hxn
    obtain ⟨k, hk⟩ := (h.classed y).mpr (hin y hy)
    obtain rfl := hold hk
    obtain rfl : (c, a.owner? x) = key := Option.some.inj (key?_entered_self.symm.trans hx)
    exact h.rank_entered_lt hno ha hn hr' hret hy hk
  · rw [key?_entered, if_neg hxn] at hx
    obtain ⟨k, hk⟩ := h.faithful.key_of_input hx hy
    obtain rfl := hold hk
    rw [rank_entered (h.faithful.mem_keys hx), rank_entered (h.faithful.mem_keys hk)]
    exact h.rank_lt x y key k hx hy hk

theorem Ranked.add (h : r.Ranked a done) (hin : ∀ m ∈ a.inputs n, m ∈ done)
    (hret : ∀ m ∈ done ++ [n], a.Returned [root] m) (hok : r.add a n = .ok r') :
    r'.Ranked a (done ++ [n]) := by
  have hlisted := h.toListed.add hin hok
  cases hn : r.classes.get? n with
  | some c =>
    obtain rfl : r = r' := by simpa [Grouping.add, hn] using hok
    exact ⟨hlisted, h.rank_lt⟩
  | none =>
    obtain ⟨c, rfl⟩ := add_eq_entered hn hok
    exact h.enter hno ha hin (by simp [key?, hn]) hlisted.faithful hret

theorem Ranked.addAll (h : r.Ranked a done) (hns : a.InputsFirst done ns)
    (hret : ∀ m ∈ done ++ ns, a.Returned [root] m) (hok : r.addAll a ns = .ok r') :
    r'.Ranked a (done ++ ns) := by
  induction ns generalizing r done with
  | nil =>
    obtain rfl := Except.ok.inj hok
    rwa [List.append_nil]
  | cons n ns ih =>
    unfold Grouping.addAll at hok
    split at hok
    · next r₁ hadd =>
      have hnext : a.InputsFirst (done ++ [n]) ns := hns.2.mono fun x hx => by
        simpa [or_comm] using hx
      have hone := h.add hno ha hns.1 (fun m hm => hret m (by grind)) hadd
      simpa using ih hone hnext (fun m hm => hret m (by grind)) hok
    · cases hok

end

/-! ### First members and later ones -/

/-- Whether `other` is a later member of the group that `main` is the first of. -/
def StandsFor (r : Grouping) (main other : NodeId) : Prop :=
  ∃ key others, r.groups.get? key = some (main :: others) ∧ other ∈ others

section

variable {main other : NodeId}

theorem StandsFor.same_key (h : r.StandsFor main other) (hr : r.Faithful a) :
    ∃ key, r.key? a main = some key ∧ r.key? a other = some key := by
  obtain ⟨key, others, hms, hother⟩ := h
  exact ⟨key, hr.key_of_mem hms List.mem_cons_self,
    hr.key_of_mem hms (List.mem_cons_of_mem main hother)⟩

theorem StandsFor.twin (h : r.StandsFor main other) (hr : r.Faithful a)
    (hsame : ∃ u, a.Unfolds other u ∧ a.Unfolds main u) : a.Twin a main other := by
  obtain ⟨key, hmain, hother⟩ := h.same_key hr
  obtain ⟨u, huo, hum⟩ := hsame
  exact ⟨⟨u, hum, huo⟩, (key?_eq_some_iff.mp hmain).2.trans (key?_eq_some_iff.mp hother).2.symm⟩

theorem StandsFor.ne (h : r.StandsFor main other) (hr : r.Listed a done) : main ≠ other := by
  obtain ⟨key, others, hms, hother⟩ := h
  exact (ne_of_mem_of_not_mem hother (List.nodup_cons.mp (hr.nodup key _ hms)).1).symm

/-- Nothing stands for the first member of a group. -/
theorem Listed.not_standsFor_head (hr : r.Listed a done)
    (hms : r.groups.get? key = some (n :: ms)) : ¬ r.StandsFor main n := by
  rintro ⟨key', others, hms', hn⟩
  have hkey := hr.faithful.key_of_mem hms List.mem_cons_self
  have hkey' := hr.faithful.key_of_mem hms' (List.mem_cons_of_mem main hn)
  obtain rfl : key = key' := Option.some.inj (hkey.symm.trans hkey')
  obtain ⟨rfl, -⟩ := List.cons.inj (Option.some.inj (hms.symm.trans hms'))
  exact (List.nodup_cons.mp (hr.nodup key _ hms')).1 hn

theorem Listed.returned (hr : r.Listed a (a.groupOrder root))
    (hn : r.key? a n = some key) : a.Returned [root] n :=
  Arena.mem_groupOrder.mp ((hr.classed n).mp ⟨key, hn⟩)

/-- Nothing stands for a return node that computes the same: what is under the return node and of the
same graph unfolds to a smaller tree. -/
theorem StandsFor.not_ret (h : r.StandsFor main other) (hr : r.Listed a (a.groupOrder root))
    (ha : a.Orderly) (hsame : a.Twin a main other) (g : GraphId) : a.ret? g ≠ some other := by
  intro hret
  obtain ⟨key, hmain, -⟩ := h.same_key hr.faithful
  obtain ⟨⟨u, hum, huo⟩, ho⟩ := hsame
  have howner : a.owner? main = some g := ho.trans (ha.wellFormed.ret_owner hret)
  obtain ⟨g', -, r', hret', hu⟩ := hr.returned hmain
  have hg : g = g' := by
    rcases ha.owned.under (ha.wellFormed.ret_owner hret') hu with ho | ho
    · exact Option.some.inj (howner.symm.trans ho)
    · simp [howner] at ho
  obtain rfl : other = r' := Option.some.inj (hret.symm.trans (hg ▸ hret'))
  have hstrict := (Relation.reflTransGen_iff_eq_or_transGen.mp hu).resolve_left (h.ne hr)
  obtain ⟨w, hw, hlt⟩ := huo.smaller hstrict
  rw [hum.unique hw] at hlt
  exact Nat.lt_irrefl _ hlt

/-- The members of a group are of one rank, and ranks grow from group to group. -/
theorem Listed.pairwise (hr : r.Listed a done) :
    (r.groups.entries.map Prod.snd).Pairwise fun ms ms' =>
      ∀ n ∈ ms, ∀ m ∈ ms', ∀ key key', r.key? a n = some key → r.key? a m = some key' →
        r.rank key < r.rank key' := by
  rw [List.pairwise_map]
  have hkeys : r.groups.entries.Pairwise fun p q => r.rank p.1 < r.rank q.1 := by
    refine List.pairwise_iff_getElem.mpr fun i j hi hj hij => ?_
    have hidx : ∀ i (hi : i < r.groups.entries.length), r.rank r.groups.entries[i].1 = i := by
      intro i hi
      have hik : i < r.groups.keys.length := by simpa [OrderedMap.keys] using hi
      have hget : r.groups.entries[i].1 = r.groups.keys[i] := by simp [OrderedMap.keys]
      rw [rank, hget]
      exact r.groups.nodup.idxOf_getElem i hik
    rw [hidx i hi, hidx j hj]
    exact hij
  refine hkeys.imp_of_mem fun {p q} hp hq hlt n hn m hm key key' hkey hkey' => ?_
  have hpn := hr.faithful.key_of_mem (OrderedMap.mem_entries_iff.mp hp) hn
  have hqm := hr.faithful.key_of_mem (OrderedMap.mem_entries_iff.mp hq) hm
  obtain rfl := Option.some.inj (hkey.symm.trans hpn)
  obtain rfl := Option.some.inj (hkey'.symm.trans hqm)
  exact hlt

end

/-! ### Groups before and after -/

section

variable {b : Arena} {main : NodeId} {others : List NodeId}

/-- Without collisions the first members of groups are the nodes that come first of their twins. -/
theorem Listed.firstTwin_iff (hr : r.Listed a (a.groupOrder root)) (hno : a.NoCollision root)
    (ha : a.Orderly) (hn : r.key? a n = some key) :
    a.FirstTwin root n ↔ ∃ others, r.groups.get? key = some (n :: others) := by
  have hfind : (a.groupOrder root).find? (a.isTwin a n) =
      (a.groupOrder root).find? fun m => r.key? a m = some key := by
    refine List.find?_congr fun m hm => ?_
    obtain ⟨key', hkey'⟩ := (hr.classed m).mpr hm
    rw [Bool.eq_iff_iff, Arena.isTwin_iff, decide_eq_true_iff, hkey',
      hr.faithful.twin_iff hno ha (hr.returned hn) (hr.returned hkey') hn hkey',
      Option.some.injEq, eq_comm]
  obtain ⟨ms, hms, -⟩ := hr.faithful.mem_group hn
  rw [Arena.FirstTwin, hfind, ← hr.head key ms hms, hms, List.head?_eq_some_iff]
  simp

/-- A group has all twins of its members. -/
theorem Faithful.mem_of_twin (hr : r.Faithful a) (hms : r.groups.get? key = some ms) (hn : n ∈ ms)
    (h : a.Twin a n m) (hm : r.key? a m = some key') : m ∈ ms := by
  obtain rfl := hr.key_eq_of_twin h (hr.key_of_mem hms hn) hm
  obtain ⟨ms', hms', hmem⟩ := hr.mem_group hm
  obtain rfl := Option.some.inj (hms.symm.trans hms')
  exact hmem

/-- The groups after merging have the same first members as before, and no further members, if the
slots that hold first members are kept. -/
theorem Listed.exists_group (hr : r.Listed a (a.groupOrder root))
    (hr' : r'.Listed b (b.groupOrder root)) (hnoa : a.NoCollision root) (hnob : b.NoCollision root)
    (ha : a.Orderly) (hb : b.Orderly) (hab : a.Merged b)
    (hreturned : ∀ n, b.Returned [root] n → a.Returned [root] n)
    (hkept : ∀ key n ms, r.groups.get? key = some (n :: ms) →
      ∀ e, a.slot? e = some n → b.slot? e = some n)
    (hgroup : r'.groups.get? key' = some (main :: others)) :
    ∃ key ms, r.groups.get? key = some (main :: ms) ∧ ∀ m ∈ others, m ∈ ms := by
  have hkey' : ∀ m ∈ main :: others, r'.key? b m = some key' := fun m hm =>
    hr'.faithful.key_of_mem hgroup hm
  have hclassed : ∀ m ∈ main :: others, ∃ key, r.key? a m = some key := fun m hm =>
    (hr.classed m).mpr (Arena.mem_groupOrder.mpr
      (hreturned m (hr'.returned (hkey' m hm))))
  have htwin : ∀ m ∈ main :: others, a.Twin b m m := fun m hm => by
    obtain ⟨key, hkey⟩ := hclassed m hm
    exact hab.twin ha ((hr.returned hkey).mem_nodeIds ha.wellFormed)
  have hmain := htwin main List.mem_cons_self
  obtain ⟨key, hkey⟩ := hclassed main List.mem_cons_self
  obtain ⟨ms, hms, hmem⟩ := hr.faithful.mem_group hkey
  obtain ⟨x, xs, rfl⟩ := List.exists_cons_of_ne_nil (List.ne_nil_of_mem hmem)
  -- the first member of the old group is still the first of its twins
  have hx := hr.faithful.key_of_mem hms List.mem_cons_self
  have hxmain : a.Twin b x main := ((hr.faithful.twin_iff hnoa ha (hr.returned hx)
    (hr.returned hkey) hx hkey).mpr rfl).trans hmain
  have hfirst := hab.find?_groupOrder ha hb (fun m hm e he => by
    obtain ⟨key, hkey⟩ := (hr.classed m).mpr (List.mem_of_find?_eq_some hm)
    obtain ⟨ms, hms⟩ := (hr.firstTwin_iff hnoa ha hkey).mp hm
    exact hkept key m ms hms e he) ((hr.firstTwin_iff hnoa ha hx).mpr ⟨xs, hms⟩)
  have hfirst' := (hr'.firstTwin_iff hnob hb (hkey' main List.mem_cons_self)).mpr ⟨others, hgroup⟩
  rw [Arena.FirstTwin, ← hxmain.isTwin_left, hfirst] at hfirst'
  obtain rfl := Option.some.inj hfirst'
  refine ⟨key, xs, hms, fun m hm => ?_⟩
  have hm' := List.mem_cons_of_mem x hm
  have hx' := hkey' x List.mem_cons_self
  have hxm : b.Twin b x m := (hr'.faithful.twin_iff hnob hb (hr'.returned hx')
    (hr'.returned (hkey' m hm')) hx' (hkey' m hm')).mpr rfl
  obtain ⟨key'', hkey''⟩ := hclassed m hm'
  have hmem' := hr.faithful.mem_of_twin hms List.mem_cons_self
    ((hmain.trans hxm).trans (htwin m hm').symm) hkey''
  have hne : x ≠ m := StandsFor.ne ⟨key', others, hgroup, hm⟩ hr'
  exact (List.mem_cons.mp hmem').resolve_left hne.symm

end

end Grouping

namespace Arena

variable [Hashable Shape] {a : Arena} {root : GraphId} {r : Grouping}

/-- The groups under a root start in the order in which its nodes are listed. -/
theorem Orderly.exists_listed (ha : a.Orderly) (root : GraphId) : ∃ r : Grouping,
      Grouping.empty.addAll a (a.groupOrder root) = .ok r ∧ r.Listed a (a.groupOrder root) := by
  have hns := ha.acyclic.inputsFirst_groupOrder root
  obtain ⟨r, hall, -, -⟩ := exists_faithful hns
  exact ⟨r, hall, by simpa using Grouping.listed_empty.addAll hns hall⟩

theorem NoCollision.ranked (hno : a.NoCollision root) (ha : a.Orderly)
    (h : Grouping.empty.addAll a (a.groupOrder root) = .ok r) :
    r.Ranked a (a.groupOrder root) := by
  simpa using Grouping.ranked_empty.addAll hno ha (ha.acyclic.inputsFirst_groupOrder root)
    (fun m hm => mem_groupOrder.mp (by simpa using hm)) h

end Arena

end Midend
