import Mathlib
import Midend.Proofs.Arena.DepthFirst
import Midend.Proofs.Arena.Written
import Midend.Proofs.Store.Calls
import Midend.Proofs.Store.Closed
import Midend.Proofs.Store.Roots

/-!
# Listings define before use

A listing goes through the applies of a graph that its return node needs, in the order in which the
walk leaves them, so what an apply uses stands above it. A dump holds the listing of each graph that
the root leads to, once, the root's own first.
-/

namespace Midend

namespace Arena

variable {a : Arena} {typed : Bool} {g : GraphId} {m n r : NodeId} {ns before after : List NodeId}

/-- Whether a node is known after some lines of the listing of `g`: it is a parameter of the graph, it
belongs to another graph, or one of the lines defines it. -/
def KnownAfter (a : Arena) (g : GraphId) (lines : List String) (n : NodeId) : Prop :=
  n ∈ a.parameters g ∨ (∃ h, a.owner? n = some h ∧ h ≠ g) ∨ ∃ line ∈ lines, Defines line n

/-- Whether the lines of `g` with the return node `r` define the nodes `ns` in this order, each once
and before it is used, and then return. -/
structure Lists (a : Arena) (typed : Bool) (g : GraphId) (r : NodeId) (ns : List NodeId) :
    Prop where
  lines_eq : a.lines typed g =
    a.headLine g :: ns.map (a.applyLine typed) ++ [a.returnLine r, closingLine]
  mem_iff : ∀ n, n ∈ ns ↔ n ≠ r ∧ a.isApply n = true ∧ a.owner? n = some g ∧ a.Under r n
  defined_once : ∀ n, (a.lines typed g).countP (Defines · n) = if n ∈ ns then 1 else 0
  returned_once : (a.lines typed g).countP (IsReturnLine ·) = 1
  known : ∀ before n after, ns ++ [r] = before ++ n :: after → ∀ m ∈ a.inputs n, ∀ k,
    a.operand m = k.text → a.KnownAfter g (a.headLine g :: before.map (a.applyLine typed)) k

/-! ### The body of a listing -/

theorem mem_body : n ∈ a.body g r ↔ a.isApply n = true ∧ a.owner? n = some g ∧ a.Under r n := by
  simp only [body, List.mem_filter, mem_postorder_iff, Bool.and_eq_true, decide_eq_true_eq]
  exact ⟨fun ⟨hu, ho, happ⟩ => ⟨happ, ho, hu⟩, fun ⟨happ, ho, hu⟩ => ⟨hu, ho, happ⟩⟩

theorem nodup_body (a : Arena) (g : GraphId) (r : NodeId) : (a.body g r).Nodup :=
  (a.nodup_postorder r).filter _

/-- The return node comes last. -/
theorem body_eq_append (hr : a.isApply r = true) (ho : a.owner? r = some g) :
    ∃ ns, a.body g r = ns ++ [r] := by
  rw [body, postorder_eq_append, List.filter_append]
  simp [ho, hr]

theorem nodup_of_body_eq (hbody : a.body g r = ns ++ [r]) : r ∉ ns ∧ ns.Nodup := by
  have hnodup : (ns ++ [r]).Nodup := hbody ▸ nodup_body a g r
  exact List.nodup_cons.mp (List.nodup_append_comm.mp hnodup)

/-- An apply of the graph stands in the body before each of its users. -/
theorem Acyclic.mem_of_body_eq (hac : a.Acyclic) (hbody : a.body g r = before ++ n :: after)
    (hm : m ∈ a.inputs n) (happ : a.isApply m = true) (ho : a.owner? m = some g) : m ∈ before := by
  have hn : n ∈ a.body g r := hbody ▸ by simp
  obtain ⟨hnapp, hno, hu⟩ := mem_body.mp hn
  have hpair : [m, n].Sublist (a.postorder r) :=
    input_before (mem_postorder_iff.mpr hu) hm (hac.not_under hm)
  have hown : [m, n].Sublist (a.body g r) := by
    have hfilter := hpair.filter fun k => a.owner? k = some g && a.isApply k
    rwa [List.filter_eq_self.mpr (by simp [happ, ho, hnapp, hno])] at hfilter
  exact mem_of_pair_sublist (hbody ▸ nodup_body a g r) (hbody ▸ hown)

/-! ### The lines of a listing -/

theorem lines_eq_of_body_eq (hret : a.ret? g = some r) (hbody : a.body g r = ns ++ [r]) :
    a.lines typed g =
      a.headLine g :: ns.map (a.applyLine typed) ++ [a.returnLine r, closingLine] := by
  have hr : r ∉ ns := (nodup_of_body_eq hbody).1
  have hns : ns.map (fun n => if n = r then a.returnLine r else a.applyLine typed n) =
      ns.map (a.applyLine typed) :=
    List.map_congr_left fun n hn => if_neg (ne_of_mem_of_not_mem hn hr)
  simp [lines, hret, hbody, hns]

theorem countP_defines (hns : ns.Nodup) (n : NodeId) :
    (a.headLine g :: ns.map (a.applyLine typed) ++ [a.returnLine r, closingLine]).countP
      (Defines · n) = if n ∈ ns then 1 else 0 := by
  have hmap : (ns.map (a.applyLine typed)).countP (Defines · n) = ns.count n := by
    rw [List.countP_map, List.count]
    exact List.countP_congr fun m _ => by simp [defines_applyLine]
  simp [hmap, hns.count, not_defines_headLine, not_defines_returnLine, not_defines_closingLine]

theorem countP_isReturnLine (ns : List NodeId) :
    (a.headLine g :: ns.map (a.applyLine typed) ++ [a.returnLine r, closingLine]).countP
      (IsReturnLine ·) = 1 := by
  have hmap : (ns.map (a.applyLine typed)).countP (IsReturnLine ·) = 0 := by
    simp [List.countP_eq_zero, not_isReturnLine_applyLine]
  simp [hmap, not_isReturnLine_headLine, isReturnLine_returnLine, not_isReturnLine_closingLine]

/-! ### Operands -/

/-- What is written as a node is known if the applies of the graph are defined. -/
theorem knownAfter_of_operand (hwf : a.WellFormed) (hp : a.Placed) (hm : m ∈ a.nodeIds)
    {k : NodeId} (hk : a.operand m = k.text)
    (hbefore : a.isApply m = true → a.owner? m = some g → m ∈ before) :
    a.KnownAfter g (a.headLine g :: before.map (a.applyLine typed)) k := by
  obtain ⟨rfl, hv⟩ := operand_eq_text hk
  obtain ⟨d, hd⟩ := Option.isSome_iff_exists.mp (mem_nodeIds_iff_node?.mp hm)
  have howner : a.owner? m = d.owner := by simp [owner?, hd]
  have hkind : a.kind? m = some d.kind := by simp [kind?, hd]
  have hconst : ∀ v, d.kind ≠ .constant v := fun v hc => by
    simp [value?, hkind, hc, NodeKind.value?] at hv
  cases ho : d.owner with
  | none =>
    obtain ⟨v, hc⟩ := hp m d hd ho
    exact absurd hc (hconst v)
  | some h =>
    by_cases hg : h = g
    · subst hg
      cases hc : d.kind with
      | constant v => exact absurd hc (hconst v)
      | parameter =>
        have hpar : a.isParameter m = true := by simp [isParameter, hkind, hc]
        exact Or.inl (hwf.mem_parameters.mpr ⟨hpar, howner.trans ho⟩)
      | apply inputs =>
        have hin : m ∈ before := hbefore (by simp [isApply, hkind, hc]) (howner.trans ho)
        refine Or.inr (Or.inr ⟨a.applyLine typed m, ?_, defines_applyLine.mpr rfl⟩)
        exact List.mem_cons_of_mem _ (List.mem_map_of_mem hin)
    · exact Or.inr (Or.inl ⟨h, howner.trans ho, hg⟩)

theorem exists_lists (hac : a.Acyclic) (hwf : a.WellFormed) (hp : a.Placed)
    (hret : a.ret? g = some r) : ∃ ns, a.Lists typed g r ns := by
  obtain ⟨f, out, hin⟩ := hwf.ret_inputs hret
  have happ : a.isApply r = true := isApply_of_mem_inputs (m := f) (by simp [hin])
  obtain ⟨ns, hbody⟩ := body_eq_append happ (hwf.ret_owner hret)
  have hlines : a.lines typed g = _ := lines_eq_of_body_eq hret hbody
  obtain ⟨hr, hns⟩ := nodup_of_body_eq hbody
  refine ⟨ns, hlines, fun n => ?_, fun n => ?_, ?_, fun before n after hsplit m hm k hk => ?_⟩
  · rw [← mem_body, hbody, List.mem_append, List.mem_singleton]
    constructor
    · exact fun hn => ⟨fun h => hr (h ▸ hn), Or.inl hn⟩
    · exact fun ⟨hne, hn⟩ => hn.resolve_right hne
  · rw [hlines, countP_defines hns]
  · rw [hlines, countP_isReturnLine]
  · exact knownAfter_of_operand hwf hp (hwf.input_mem hm) hk
      (hac.mem_of_body_eq (hbody.trans hsplit) hm)

end Arena

namespace Store

variable {s : Store}

/-- In a store without cycles every listing defines before use: each apply of the graph under its
return node has one line that defines it, one line returns, and each operand is known after the lines
above it. A dump lists the graphs that the root leads to, each once and the root first. -/
theorem listing_defines_first (h : s.Reachable) (hac : s.arena.Acyclic) :
    (∀ typed g r, s.arena.ret? g = some r → ∃ ns, s.arena.Lists typed g r ns) ∧
    ∀ root, ∃ gs, s.arena.dump root =
        "\n".intercalate ((root :: gs).map (s.arena.listing false)) ∧
      (root :: gs).Nodup ∧ ∀ g, g ∈ root :: gs ↔ s.arena.Leads root g := by
  refine ⟨fun typed g r hret => ?_, fun root => ?_⟩
  · exact Arena.exists_lists hac h.settled.wellFormed h.placed hret
  · obtain ⟨gs, hgs⟩ := s.arena.eraseDups_prefix_reachable [root]
    have hreach : s.arena.reachable [root] = root :: gs := by
      rw [← hgs]
      rfl
    refine ⟨gs, by rw [Arena.dump, hreach], hreach ▸ s.arena.nodup_reachable [root], fun g => ?_⟩
    rw [← hreach, Arena.mem_reachable]
    simp

/-- Two graphs that call each other. The inner one uses a node of the outer one, which uses that node
twice itself. -/
def nested : Store := Store.empty.performAll
  [.newGraph "main", .newGraph "inner", .addParameter ⟨0⟩ none, .addParameter ⟨1⟩ none,
    .constant (.prim .add) none, .apply ⟨0⟩ [⟨2⟩, ⟨0⟩, ⟨0⟩] none,
    .apply ⟨1⟩ [⟨2⟩, ⟨3⟩, ⟨1⟩] none, .constant (.graph ⟨1⟩) none, .constant (.graph ⟨0⟩) none,
    .apply ⟨1⟩ [⟨6⟩, ⟨4⟩] none, .setOutput ⟨1⟩ ⟨7⟩, .apply ⟨0⟩ [⟨5⟩, ⟨3⟩] none,
    .apply ⟨0⟩ [⟨2⟩, ⟨3⟩, ⟨10⟩] none, .setOutput ⟨0⟩ ⟨11⟩, .addRoot ⟨0⟩]

theorem called_nested : nested.Called := Called.start.performAll (of_decide_eq_true (by cbv))

/-- The node of the outer graph stands in the inner one as it is, and neither graph twice. -/
theorem listing_defines_first_nested :
    nested.arena.Acyclic ∧ nested.arena.ret? ⟨1⟩ = some ⟨9⟩ ∧
    nested.arena.headLine ⟨1⟩ = "graph inner(%1) \x7b" ∧
    (∃ ns, nested.arena.Lists false ⟨1⟩ ⟨9⟩ ns ∧
      ns.map (nested.arena.applyLine false) = ["  %4 = add(%3, %1)", "  %7 = @main(%4)"]) ∧
    nested.arena.dump ⟨0⟩ =
      "\n".intercalate [nested.arena.listing false ⟨0⟩, nested.arena.listing false ⟨1⟩] := by
  have hac : nested.arena.Acyclic := of_decide_eq_true (by cbv)
  have hret : nested.arena.ret? ⟨1⟩ = some ⟨9⟩ := by cbv
  have hlines : nested.arena.lines false ⟨1⟩ = ["graph inner(%1) \x7b", "  %4 = add(%3, %1)",
      "  %7 = @main(%4)"] ++ ["  return %7", "\x7d"] := by cbv
  have hreach : nested.arena.reachable [⟨0⟩] = [⟨0⟩, ⟨1⟩] := by cbv
  obtain ⟨hlists, hdump⟩ := listing_defines_first called_nested.reachable hac
  obtain ⟨ns, hns⟩ := hlists false ⟨1⟩ ⟨9⟩ hret
  obtain ⟨gs, hgs, hnodup, hmem⟩ := hdump ⟨0⟩
  have hfront := (List.append_inj' (hns.lines_eq.symm.trans hlines) rfl).1
  have hperm : (⟨0⟩ :: gs).Perm [⟨0⟩, ⟨1⟩] :=
    (List.perm_ext_iff_of_nodup hnodup (by decide)).mpr fun g => by
      rw [hmem, ← hreach, Arena.mem_reachable]
      simp
  obtain rfl : gs = [⟨1⟩] := List.perm_singleton.mp ((List.perm_cons _).mp hperm)
  exact ⟨hac, hret, (List.cons.inj hfront).1, ⟨ns, hns, (List.cons.inj hfront).2⟩, hgs⟩

end Store

end Midend
