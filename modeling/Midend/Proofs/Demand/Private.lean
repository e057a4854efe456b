import Mathlib
import Midend.Proofs.Demand.Parts
import Midend.Proofs.Store.Calls

/-!
# Structure with a single owner

Inputs may form cycles, and still the walk over an output ends by itself: a node that is taken apart
has a single use, so the walk enters it from one slot only, and the slot it starts from belongs to a
node that is never taken apart.
-/

namespace Midend

namespace Live

open Arena (IsTuple IsLayer Inside Within)

variable {a : Arena} {l : Live} {lax : Prop} {n : NodeId} {d e f : Edge} {p : Path} {x : Path × Edge}
  {xs ys : List (Path × Edge)}

/-! ### The walk without a guard -/

/-- The walk over `n`, which stands at the path, with nothing that keeps it from taking a node apart
inside itself: it ends and answers the list. -/
inductive Walk (l : Live) (a : Arena) : Path → NodeId → List (Path × Edge) → Prop
  | whole {p : Path} {n : NodeId} : ¬ l.Taken a n → Walk l a p n []
  | tuple {p : Path} {n : NodeId} {parts : List NodeId} {xs : NodeId × Nat → List (Path × Edge)} :
      l.Single n → a.IsTuple n parts →
      (∀ c ∈ parts.zipIdx, Walk l a (p ++ [.index c.2]) c.1 (xs c)) →
      Walk l a p n (parts.zipIdx.flatMap fun c => (p ++ [.index c.2], ⟨n, c.2 + 1⟩) :: xs c)
  | layer {p : Path} {n env value : NodeId} {k : Step} {xs ys : List (Path × Edge)} :
      l.Single n → a.IsLayer n k env value → Walk l a p env xs → Walk l a (p ++ [k]) value ys →
      Walk l a p n (xs ++ (p ++ [k], ⟨n, 3⟩) :: ys)

theorem Walk.unique (h : l.Walk a p n xs) (h' : l.Walk a p n ys) : xs = ys := by
  induction h generalizing ys with
  | whole hn =>
    cases h' with
    | whole _ => rfl
    | tuple hs ht _ => exact absurd ⟨hs, Or.inl ⟨_, ht⟩⟩ hn
    | layer hs hl _ _ => exact absurd ⟨hs, Or.inr ⟨_, _, _, hl⟩⟩ hn
  | tuple hs ht _ ih =>
    cases h' with
    | whole hn => exact absurd ⟨hs, Or.inl ⟨_, ht⟩⟩ hn
    | tuple _ ht' hys =>
      obtain rfl := ht.unique ht'
      exact List.flatMap_congr fun c hc => by rw [ih c hc (hys c hc)]
    | layer _ hl _ _ => exact absurd hl ht.not_isLayer
  | layer hs hl _ _ ih ih' =>
    cases h' with
    | whole hn => exact absurd ⟨hs, Or.inr ⟨_, _, _, hl⟩⟩ hn
    | tuple _ ht _ => exact absurd hl ht.not_isLayer
    | layer _ hl' hxs hys =>
      obtain ⟨rfl, rfl, rfl⟩ := hl.unique hl'
      rw [ih hxs, ih' hys]

/-- What stands in the slot of an element. -/
theorem slot?_of_mem_zipIdx {parts : List NodeId} {c : NodeId × Nat} (ht : a.IsTuple n parts)
    (hc : c ∈ parts.zipIdx) : a.slot? ⟨n, c.2 + 1⟩ = some c.1 :=
  ht.slot?.trans (List.mem_zipIdx_iff_getElem?.mp hc)

/-- From a slot the walk goes on through nodes that are taken apart. -/
theorem Walk.entered (h : l.Walk a p n xs) (hf : a.slot? f = some n) (hx : x ∈ xs) :
    Relation.TransGen (a.Inside (l.Taken a)) f x.2 := by
  induction h generalizing f with
  | whole _ => cases hx
  | tuple hs ht _ ih =>
    have ht' : l.Taken a _ := ⟨hs, Or.inl ⟨_, ht⟩⟩
    obtain ⟨c, hc, hx⟩ := List.mem_flatMap.mp hx
    rcases List.mem_cons.mp hx with rfl | hx
    · exact .single ⟨hf, ht'⟩
    · exact .head ⟨hf, ht'⟩ (ih c hc (slot?_of_mem_zipIdx ht hc) hx)
  | layer hs hl _ _ ih ih' =>
    have ht' : l.Taken a _ := ⟨hs, Or.inr ⟨_, _, _, hl⟩⟩
    rcases List.mem_append.mp hx with hx | hx
    · exact .head ⟨hf, ht'⟩ (ih hl.slot?_env hx)
    · rcases List.mem_cons.mp hx with rfl | hx
      · exact .single ⟨hf, ht'⟩
      · exact .head ⟨hf, ht'⟩ (ih' hl.slot?_value hx)

/-! ### From a slot of a node that is not taken apart -/

section Entered

variable (h : Agrees a l (.upTo lax) []) (he : e.owner ∈ l.nodes) (hout : ¬ l.Taken a e.owner)
include h he

/-- A node that is taken apart is entered from one slot only. -/
theorem Agrees.eq_of_inside (hd : a.Within (l.Taken a) e d) (hf : a.Within (l.Taken a) e f)
    (hn : l.Taken a n) (hdn : a.slot? d = some n) (hfn : a.slot? f = some n) : d = f := by
  have huse : ∀ {n e}, e ∈ l.usesOf n ↔ e.owner ∈ l.nodes ∧ a.slot? e = some n :=
    h.mem_usesOf fun _ _ hf => hf
  exact eq_of_useCount_le_one hn.1 (huse.mpr ⟨h.mem_of_under he hd.under, hdn⟩)
    (huse.mpr ⟨h.mem_of_under he hf.under, hfn⟩)

include hout

/-- No slot on the way is met again below itself: the way back would enter each node on the way from
the slot it was entered from, up to the node that is not taken apart. -/
theorem Agrees.not_again (hd : a.Within (l.Taken a) e d) :
    ¬ Relation.TransGen (a.Inside (l.Taken a)) d d := by
  induction hd with
  | refl =>
    intro hloop
    obtain ⟨c, -, hlast⟩ := Relation.TransGen.tail'_iff.mp hloop
    exact hout hlast.2
  | @tail c d hc hi ih =>
    intro hloop
    obtain ⟨c', hback, hlast⟩ := Relation.TransGen.tail'_iff.mp hloop
    obtain rfl : c = c' := h.eq_of_inside he hc ((hc.tail hi).trans hback) hi.2 hi.1 hlast.1
    exact ih (Relation.TransGen.head' hi hback)

/-- Of the slots of a node that is taken apart none leads into another. -/
theorem Agrees.index_eq_of_taken {i j : Nat} (hf : a.Within (l.Taken a) e f) (hn : l.Taken a n)
    (hfn : a.slot? f = some n) (hij : a.Within (l.Taken a) ⟨n, i⟩ ⟨n, j⟩) : i = j := by
  rcases Relation.ReflTransGen.cases_tail hij with heq | ⟨c, hback, hlast⟩
  · exact (Edge.mk.inj heq).2.symm
  · have hinto : a.Inside (l.Taken a) f ⟨n, i⟩ := ⟨hfn, hn⟩
    obtain rfl : f = c := h.eq_of_inside he hf ((hf.tail hinto).trans hback) hn hfn hlast.1
    exact absurd (Relation.TransGen.head' hinto hback) (h.not_again he hout hf)

/-- What two slots of a node both lead into is reached from one slot. -/
theorem Agrees.index_eq_of_meet {i j : Nat} (hf : a.Within (l.Taken a) e f) (hn : l.Taken a n)
    (hfn : a.slot? f = some n) (hi : a.Within (l.Taken a) ⟨n, i⟩ d)
    (hj : a.Within (l.Taken a) ⟨n, j⟩ d) : i = j := by
  have hlive : n ∈ l.nodes := h.mem_of_input (h.mem_of_under he hf.under)
    (Arena.mem_inputs_of_slot? hfn)
  rcases h.within_or (e := ⟨n, i⟩) (f := ⟨n, j⟩) hlive hlive (fun _ hn => hn.1) hi hj with hw | hw
  · exact (h.index_eq_of_taken he hout hf hn hfn hw).symm
  · exact h.index_eq_of_taken he hout hf hn hfn hw

/-- The guard against taking a node apart inside itself is never needed. -/
theorem Agrees.walk_partsFrom {above : List NodeId} {f : Edge} {p : Path} {n : NodeId}
    (hf : a.Within (l.Taken a) e f) (hfn : a.slot? f = some n)
    (habove : ∀ m ∈ above, ∃ d, d.owner = m ∧ a.Within (l.Taken a) d f) :
    l.Walk a p n (l.partsFrom a above p n) := by
  have hfree : l.Taken a n → n ∉ above := by
    intro hn hmem
    obtain ⟨d, rfl, hback⟩ := habove n hmem
    exact h.not_again he hout hf (Relation.TransGen.head' ⟨hfn, hn⟩ hback)
  by_cases hn : l.Taken a n
  · have hnew : ∀ i, ∀ m ∈ n :: above, ∃ d, d.owner = m ∧ a.Within (l.Taken a) d ⟨n, i⟩ := by
      intro i m hm
      rcases List.mem_cons.mp hm with rfl | hm
      · exact ⟨⟨m, i⟩, rfl, Relation.ReflTransGen.refl⟩
      · obtain ⟨d, hd, hdf⟩ := habove m hm
        exact ⟨d, hd, hdf.tail ⟨hfn, hn⟩⟩
    have hmem : n ∈ a.nodeIds := h.mem_nodeIds (h.mem_of_input (h.mem_of_under he hf.under)
      (Arena.mem_inputs_of_slot? hfn))
    have hopen : ¬ (1 < l.useCount n ∨ n ∈ above ∨ n ∉ a.nodeIds) := by
      rintro (hmany | hmet | hforeign)
      · exact absurd hn.1 (Nat.not_le.mpr hmany)
      · exact hfree hn hmet
      · exact hforeign hmem
    have hsmall := unseen_cons_lt hmem (hfree hn)
    rw [partsFrom, dif_neg hopen]
    obtain ⟨hs, ⟨parts, ht⟩ | ⟨k, env, value, hl⟩⟩ := hn
    · obtain ⟨happ, func, hin⟩ := id ht
      rw [happ, hin]
      refine .tuple hs ht fun c hc => ?_
      exact Agrees.walk_partsFrom (hf.tail ⟨hfn, hs, Or.inl ⟨parts, ht⟩⟩)
        (slot?_of_mem_zipIdx ht hc) (hnew _)
    · obtain ⟨happ, func, key, hin, hk⟩ := id hl
      rw [happ, hin]
      simp only [hk]
      have hinto : ∀ i, a.Within (l.Taken a) e ⟨n, i⟩ := fun i =>
        hf.tail ⟨hfn, hs, Or.inr ⟨k, env, value, hl⟩⟩
      exact .layer hs hl (Agrees.walk_partsFrom (hinto 1) hl.slot?_env (hnew 1))
        (Agrees.walk_partsFrom (hinto 3) hl.slot?_value (hnew 3))
  · rw [partsFrom_of_not_taken hn]
    exact .whole hn
termination_by unseen a.nodeIds above

/-- No slot is listed twice. -/
theorem Walk.nodup (hw : l.Walk a p n xs) (hf : a.Within (l.Taken a) e f)
    (hfn : a.slot? f = some n) : (xs.map Prod.snd).Nodup := by
  -- the slots of a part and of what is in it
  have hblock : ∀ {d m q ys}, a.Within (l.Taken a) e d → a.slot? d = some m → l.Walk a q m ys →
      (ys.map Prod.snd).Nodup → (d :: ys.map Prod.snd).Nodup := by
    intro d m q ys hd hm hwalk hys
    refine List.nodup_cons.mpr ⟨fun hmem => ?_, hys⟩
    obtain ⟨y, hy, rfl⟩ := List.mem_map.mp hmem
    exact h.not_again he hout hd (hwalk.entered hm hy)
  induction hw generalizing f with
  | whole _ => exact List.nodup_nil
  | @tuple p n parts xs hs ht hwalk ih =>
    have hn : l.Taken a n := ⟨hs, Or.inl ⟨_, ht⟩⟩
    have hinto : ∀ i, a.Within (l.Taken a) e ⟨n, i⟩ := fun i => hf.tail ⟨hfn, hn⟩
    have hbelow : ∀ c ∈ parts.zipIdx, ∀ d ∈ (⟨n, c.2 + 1⟩ : Edge) :: (xs c).map Prod.snd,
        a.Within (l.Taken a) ⟨n, c.2 + 1⟩ d := by
      intro c hc d hd
      rcases List.mem_cons.mp hd with rfl | hd
      · exact Relation.ReflTransGen.refl
      · obtain ⟨x, hx, rfl⟩ := List.mem_map.mp hd
        exact ((hwalk c hc).entered (slot?_of_mem_zipIdx ht hc) hx).to_reflTransGen
    rw [List.map_flatMap, List.nodup_flatMap]
    refine ⟨fun c hc => hblock (hinto _) (slot?_of_mem_zipIdx ht hc) (hwalk c hc)
      (ih c hc (hinto _) (slot?_of_mem_zipIdx ht hc)), ?_⟩
    have hpos : parts.zipIdx.Pairwise fun c c' => c.2 ≠ c'.2 := by
      refine List.pairwise_map.mp ?_
      rw [List.zipIdx_map_snd]
      exact List.nodup_range'
    refine hpos.imp_of_mem fun {c c'} hc hc' hne => ?_
    intro d hd hd'
    have heq := h.index_eq_of_meet he hout hf hn hfn (hbelow c hc d hd) (hbelow c' hc' d hd')
    exact hne (Nat.succ.inj heq)
  | @layer p n env value k xs ys hs hl hwalk hwalk' ih ih' =>
    have hn : l.Taken a n := ⟨hs, Or.inr ⟨_, _, _, hl⟩⟩
    have hinto : ∀ i, a.Within (l.Taken a) e ⟨n, i⟩ := fun i => hf.tail ⟨hfn, hn⟩
    rw [List.map_append, List.map_cons, List.nodup_append]
    refine ⟨ih (hinto 1) hl.slot?_env, hblock (hinto 3) hl.slot?_value hwalk'
      (ih' (hinto 3) hl.slot?_value), fun d hd d' hd' heq => ?_⟩
    subst heq
    obtain ⟨x, hx, rfl⟩ := List.mem_map.mp hd
    have hlow := (hwalk.entered hl.slot?_env hx).to_reflTransGen
    have hhigh : a.Within (l.Taken a) ⟨n, 3⟩ x.2 := by
      rcases List.mem_cons.mp hd' with heq | hd'
      · rw [heq]
        exact Relation.ReflTransGen.refl
      · obtain ⟨y, hy, heq⟩ := List.mem_map.mp hd'
        rw [← heq]
        exact (hwalk'.entered hl.slot?_value hy).to_reflTransGen
    have heq := h.index_eq_of_meet he hout hf hn hfn hlow hhigh
    omega

end Entered

/-! ### The chain of sole uses -/

/-- Whether the owner of `d` makes a tuple or puts a value into an environment, and the slot `e` is
its only use. -/
def HeldBy (l : Live) (a : Arena) (d e : Edge) : Prop :=
  (a.applied? d.owner = some .makeTuple ∨ a.applied? d.owner = some .envSet) ∧
    (l.usesOf d.owner).toList = [e]

theorem HeldBy.useCount (h : l.HeldBy a d e) : l.useCount d.owner = 1 := congrArg List.length h.2

theorem Agrees.heldBy (h : Agrees a l (.upTo lax) []) (he : e.owner ∈ l.nodes)
    (hi : a.Inside (l.Taken a) e d) : l.HeldBy a d e := by
  have hmem : e ∈ l.usesOf d.owner := (h.mem_usesOf fun _ _ hf => hf).mpr ⟨he, hi.1⟩
  refine ⟨hi.2.2.imp (fun ⟨_, ht⟩ => ht.1) (fun ⟨_, _, _, hl⟩ => hl.1), ?_⟩
  have hlen : (l.usesOf d.owner).toList.length ≤ 1 := hi.2.1
  rw [OrderedSet.mem_def] at hmem
  match hu : (l.usesOf d.owner).toList with
  | [] => simp [hu] at hmem
  | [y] =>
    rw [hu, List.mem_singleton] at hmem
    rw [hmem]
  | y :: z :: rest => simp [hu] at hlen

/-- Sole uses lead from a slot on the way back to the start, and all that reaches the owner of the
slot from elsewhere reaches the owner of the start. -/
theorem Agrees.exists_chain (h : Agrees a l (.upTo lax) []) (he : e.owner ∈ l.nodes)
    (hd : a.Within (l.Taken a) e d) : ∃ es, (d :: es).IsChain (l.HeldBy a) ∧
      (d :: es).getLast? = some e ∧ ∀ m ∈ l.nodes, a.Under m d.owner →
        m ∈ (d :: es).map Edge.owner ∨ a.Under m e.owner := by
  induction hd with
  | refl => exact ⟨[], List.isChain_singleton _, rfl, fun m _ hu => Or.inr hu⟩
  | @tail c d hc hi ih =>
    obtain ⟨es, hchain, hlast, hreach⟩ := ih
    have hheld := h.heldBy (h.mem_of_under he (Within.under hc)) hi
    refine ⟨c :: es, List.isChain_cons_cons.mpr ⟨hheld, hchain⟩, by simpa using hlast,
      fun m hm hu => ?_⟩
    rcases Relation.ReflTransGen.cases_tail hu with heq | ⟨k, hmk, hk⟩
    · exact Or.inl (heq ▸ List.mem_cons_self)
    · -- a node that uses the owner uses it in the slot it was entered from
      obtain ⟨i, hslot⟩ := Arena.exists_slot?_of_mem hk
      have huse : (⟨k, i⟩ : Edge) ∈ l.usesOf d.owner :=
        (h.mem_usesOf fun _ _ hf => hf).mpr ⟨h.mem_of_under hm hmk, hslot⟩
      rw [OrderedSet.mem_def, hheld.2, List.mem_singleton] at huse
      have hmc : a.Under m c.owner := by
        rw [← huse]
        exact hmk
      exact (hreach m hm hmc).imp_left (List.mem_cons_of_mem _)

end Live

namespace Store

variable {s : Store} {g : GraphId}

/-- Only what has a single owner is taken apart, cycles of inputs or not: where return nodes apply the
return operation, the parts of the output of a live graph are what the walk answers without a guard,
no slot is listed twice, and sole uses lead from the owner of each listed slot but the first, through
tuples and environments, to the output slot. What else reaches the owner reaches the return node. -/
theorem parts_private (hs : s.Reachable)
    (hret : ∀ g r, s.arena.ret? g = some r → s.arena.applied? r = some .ret)
    (hg : g ∈ s.live.graphs) :
    (s.arena.ret? g = none → s.live.parts s.arena g = []) ∧
    ∀ r, s.arena.ret? g = some r →
      (∃ out, s.arena.output? g = some out ∧ ∀ xs,
        s.live.Walk s.arena [] out xs ↔ s.live.parts s.arena g = ([], ⟨r, 1⟩) :: xs) ∧
      ((s.live.parts s.arena g).map Prod.snd).Nodup ∧
      ∀ x ∈ s.live.parts s.arena g, x.2 ≠ ⟨r, 1⟩ → s.live.useCount x.2.owner = 1 ∧
        ∃ es, (x.2 :: es).IsChain (s.live.HeldBy s.arena) ∧ es.getLast? = some ⟨r, 1⟩ ∧
          ∀ m ∈ s.live.nodes, s.arena.Under m x.2.owner →
            m ∈ (x.2 :: es).map Edge.owner ∨ s.arena.Under m r := by
  have hagrees := hs.settled.agrees
  refine ⟨fun hnone => by simp [Live.parts, hnone], fun r hr => ?_⟩
  have happ := hret g r hr
  obtain ⟨out, hout⟩ := hs.settled.wellFormed.exists_output hr
  have houtput : s.arena.output? g = some out := by
    rw [Arena.output?, hr]
    exact hout
  have hlive : (⟨r, 1⟩ : Edge).owner ∈ s.live.nodes := hagrees.ret_mem hg hr
  have hfixed : ¬ s.live.Taken s.arena r := by
    rintro ⟨-, ⟨parts, ht⟩ | ⟨k, env, value, hl⟩⟩
    · exact absurd (happ.symm.trans ht.1) (by simp)
    · exact absurd (happ.symm.trans hl.1) (by simp)
  have hparts : s.live.parts s.arena g = ([], ⟨r, 1⟩) :: s.live.partsOf s.arena out := by
    rw [Live.parts, hr, houtput]
    rfl
  have hwalk : s.live.Walk s.arena [] out (s.live.partsOf s.arena out) :=
    hagrees.walk_partsFrom hlive hfixed Relation.ReflTransGen.refl hout
      fun m hm => absurd hm List.not_mem_nil
  refine ⟨⟨out, houtput, fun xs => ⟨fun hxs => ?_, fun hxs => ?_⟩⟩, ?_, fun x hx hne => ?_⟩
  · rw [hparts, hxs.unique hwalk]
  · obtain ⟨-, rfl⟩ := List.cons.inj (hparts.symm.trans hxs)
    exact hwalk
  · have hnodup := hwalk.nodup hagrees hlive hfixed Relation.ReflTransGen.refl hout
    rw [hparts, List.map_cons]
    refine List.nodup_cons.mpr ⟨fun hmem => ?_, hnodup⟩
    obtain ⟨x, hx, heq⟩ := List.mem_map.mp hmem
    have hloop := hwalk.entered hout hx
    rw [heq] at hloop
    exact hagrees.not_again hlive hfixed Relation.ReflTransGen.refl hloop
  · have hx' : x ∈ s.live.partsOf s.arena out := by
      rw [hparts] at hx
      exact (List.mem_cons.mp hx).resolve_left fun heq => hne (by rw [heq])
    have hinto := (hwalk.entered hout hx').to_reflTransGen
    obtain ⟨es, hchain, hlast, hreach⟩ := hagrees.exists_chain hlive hinto
    cases es with
    | nil => exact absurd (Option.some.inj hlast) hne
    | cons e es =>
      have hheld := (List.isChain_cons_cons.mp hchain).1
      exact ⟨hheld.useCount, e :: es, hchain, by simpa using hlast, hreach⟩

/-- A pair in a pair whose inner part adds up the return node itself: every node from the return node
down to the sum lies on a cycle. -/
def knotted : Store := Store.empty.performAll
  [.newGraph "main", .addParameter ⟨0⟩ (some .int64), .constant (.prim .makeTuple) none,
    .constant (.prim .add) none, .apply ⟨0⟩ [⟨2⟩, ⟨0⟩, ⟨0⟩] (some .int64),
    .apply ⟨0⟩ [⟨1⟩, ⟨0⟩, ⟨3⟩] none, .apply ⟨0⟩ [⟨1⟩, ⟨4⟩, ⟨0⟩] none, .setOutput ⟨0⟩ ⟨5⟩,
    .addRoot ⟨0⟩, .setEdge ⟨⟨3⟩, 2⟩ ⟨7⟩]

/-- Both pairs are taken apart, each part once. The sum reaches the inner pair over the return node
only. -/
theorem parts_private_knotted :
    (knotted.live.parts knotted.arena ⟨0⟩).map Prod.snd =
      [⟨⟨7⟩, 1⟩, ⟨⟨5⟩, 1⟩, ⟨⟨4⟩, 1⟩, ⟨⟨4⟩, 2⟩, ⟨⟨5⟩, 2⟩] ∧
    knotted.live.useCount ⟨4⟩ = 1 ∧ knotted.arena.Under ⟨3⟩ ⟨7⟩ ∧
    ∃ es, (⟨⟨4⟩, 2⟩ :: es).IsChain (knotted.live.HeldBy knotted.arena) ∧
      es.getLast? = some ⟨⟨7⟩, 1⟩ := by
  have hcalled : knotted.Called := Called.start.performAll (of_decide_eq_true (by cbv))
  have hgraphs : knotted.arena.graphIds = [⟨0⟩] := by cbv
  have hr : knotted.arena.ret? ⟨0⟩ = some ⟨7⟩ := by cbv
  have happ : knotted.arena.applied? ⟨7⟩ = some .ret := by cbv
  have hret : ∀ g r, knotted.arena.ret? g = some r → knotted.arena.applied? r = some .ret := by
    intro g r hgr
    have hg := Arena.mem_graphIds_of_ret? hgr
    rw [hgraphs, List.mem_singleton] at hg
    rw [hg, hr, Option.some.injEq] at hgr
    rw [← hgr, happ]
  have hlive : (⟨0⟩ : GraphId) ∈ knotted.live.graphs := of_decide_eq_true (by cbv)
  have hsum : knotted.arena.inputs ⟨3⟩ = [⟨2⟩, ⟨0⟩, ⟨7⟩] := by cbv
  have houtput : knotted.arena.output? ⟨0⟩ = some ⟨5⟩ := by cbv
  have hplain : ∀ n, knotted.arena.applied? n ≠ some .makeTuple →
      knotted.arena.applied? n ≠ some .envSet → ¬ knotted.live.Taken knotted.arena n := by
    rintro n hn hn' ⟨-, ⟨parts, ht⟩ | ⟨k, env, value, hl⟩⟩
    · exact hn ht.1
    · exact hn' hl.1
  have hargument : ¬ knotted.live.Taken knotted.arena ⟨0⟩ :=
    hplain ⟨0⟩ (of_decide_eq_true (by cbv)) (of_decide_eq_true (by cbv))
  have hadded : ¬ knotted.live.Taken knotted.arena ⟨3⟩ :=
    hplain ⟨3⟩ (of_decide_eq_true (by cbv)) (of_decide_eq_true (by cbv))
  have hinner : knotted.live.Walk knotted.arena [.index 0] ⟨4⟩
      [([.index 0, .index 0], ⟨⟨4⟩, 1⟩), ([.index 0, .index 1], ⟨⟨4⟩, 2⟩)] := by
    have hs : knotted.live.useCount ⟨4⟩ = 1 := by cbv
    have ht : knotted.arena.IsTuple ⟨4⟩ [⟨0⟩, ⟨3⟩] := ⟨by cbv, ⟨1⟩, by cbv⟩
    refine @Live.Walk.tuple _ _ _ _ _ (fun _ => []) hs.le ht fun c hc => ?_
    simp only [List.zipIdx_cons, List.zipIdx_nil, List.mem_cons, List.not_mem_nil, or_false] at hc
    rcases hc with rfl | rfl
    · exact .whole hargument
    · exact .whole hadded
  have hwalk : knotted.live.Walk knotted.arena [] ⟨5⟩
      [([.index 0], ⟨⟨5⟩, 1⟩), ([.index 0, .index 0], ⟨⟨4⟩, 1⟩), ([.index 0, .index 1], ⟨⟨4⟩, 2⟩),
        ([.index 1], ⟨⟨5⟩, 2⟩)] := by
    have hs : knotted.live.useCount ⟨5⟩ = 1 := by cbv
    have ht : knotted.arena.IsTuple ⟨5⟩ [⟨4⟩, ⟨0⟩] := ⟨by cbv, ⟨1⟩, by cbv⟩
    refine @Live.Walk.tuple _ _ _ _ _ (fun c => if c.1 = ⟨4⟩ then
      [([.index 0, .index 0], ⟨⟨4⟩, 1⟩), ([.index 0, .index 1], ⟨⟨4⟩, 2⟩)] else []) hs.le ht
      fun c hc => ?_
    simp only [List.zipIdx_cons, List.zipIdx_nil, List.mem_cons, List.not_mem_nil, or_false] at hc
    rcases hc with rfl | rfl
    · exact hinner
    · exact .whole hargument
  obtain ⟨⟨out, hout, hparts⟩, -, hall⟩ := (parts_private hcalled.reachable hret hlive).2 ⟨7⟩ hr
  obtain rfl := Option.some.inj (houtput.symm.trans hout)
  have hlist := (hparts _).mp hwalk
  obtain ⟨hone, es, hchain, hlast, -⟩ := hall ([.index 0, .index 1], ⟨⟨4⟩, 2⟩)
    (by simp [hlist]) (by decide)
  exact ⟨by rw [hlist]; rfl, hone, Arena.under_of_mem_inputs (by simp [hsum]), es, hchain, hlast⟩

end Store

end Midend
