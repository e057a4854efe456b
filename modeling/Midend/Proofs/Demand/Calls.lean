import Midend.Demand.Origin
import Midend.Proofs.Arena.Write

/-!
# What calls return from

An apply names the graphs that are callees of the targets annotated to its function.
-/

namespace Midend.Arena

variable {a : Arena} {n : NodeId} {g : GraphId} {args : List NodeId} {ts : List Target}

/-- Whether the annotation of the function of `n` names `g`, directly or under bound arguments. -/
def CallNames (a : Arena) (n : NodeId) (g : GraphId) : Prop :=
  ∃ f ts t bound, a.slot? ⟨n, 0⟩ = some f ∧ (a.type? f).bind Ty.targets? = some ts ∧ t ∈ ts ∧
    Target.callee t = .ok (.graph g, bound)

/-- What the first of several targets adds to the calls found before. -/
theorem callsOf_cons {t : Target} {c c' : Calls} (h : a.callsOf n args (t :: ts) c = .ok c') :
    ∃ c₁, a.callsOf n args ts c₁ = .ok c' ∧
      ((∃ g bound, t.callee = .ok (.graph g, bound) ∧
        c₁ = { c with returns := if g ∈ c.returns then c.returns else c.returns ++ [g] }) ∨
      (∃ bound gs, t.callee = .ok (.prim .arrayMap, bound) ∧ a.mappedGraphs n args bound = .ok gs ∧
        c₁ = { c with maps := c.maps ++ gs }) ∨
      ∃ p bound, t.callee = .ok (.prim p, bound) ∧ p ≠ .arrayMap ∧ c₁ = c) := by
  unfold callsOf at h
  split at h
  · cases h
  · next g bound hc => exact ⟨_, h, Or.inl ⟨g, bound, hc, rfl⟩⟩
  · next bound hc =>
    split at h
    · cases h
    · next gs hgs => exact ⟨_, h, Or.inr (Or.inl ⟨bound, gs, hc, hgs, rfl⟩)⟩
  · next p bound hne hc => exact ⟨_, h, Or.inr (Or.inr ⟨p, bound, hc, hne, rfl⟩)⟩

theorem mem_returns_of_callsOf {c c' : Calls} (h : a.callsOf n args ts c = .ok c') :
    (g ∈ c.returns → g ∈ c'.returns) ∧
      ∀ t ∈ ts, ∀ bound, Target.callee t = .ok (.graph g, bound) → g ∈ c'.returns := by
  induction ts generalizing c with
  | nil =>
    obtain rfl := Except.ok.inj h
    exact ⟨id, fun t ht => absurd ht List.not_mem_nil⟩
  | cons t ts ih =>
    obtain ⟨c₁, hrest, hcases⟩ := callsOf_cons h
    obtain ⟨hkeep, hall⟩ := ih hrest
    refine ⟨fun hg => hkeep ?_, fun t' ht' bound hc => ?_⟩
    · rcases hcases with ⟨g', bound, -, rfl⟩ | ⟨bound, gs, -, -, rfl⟩ | ⟨p, bound, -, -, rfl⟩
      · by_cases hmem : g' ∈ c.returns
        · simpa [hmem] using hg
        · simp [hmem, hg]
      · exact hg
      · exact hg
    · rcases List.mem_cons.mp ht' with rfl | ht'
      · rcases hcases with ⟨g', bound', hc', rfl⟩ | ⟨_, _, hc', -⟩ | ⟨_, _, hc', -⟩
        · obtain ⟨rfl, -⟩ : g = g' ∧ bound = bound' := by simpa [hc] using hc'
          refine hkeep ?_
          by_cases hmem : g ∈ c.returns
          · simp [hmem]
          · simp [hmem]
        · simp [hc] at hc'
        · simp [hc] at hc'
      · exact hall t' ht' bound hc

/-- Where the calls of an apply are known they return from every graph that it names. -/
theorem mem_returns_of_callNames {c : Calls} (h : a.calls n = .ok c) (hg : a.CallNames n g) :
    g ∈ c.returns := by
  obtain ⟨f, ts, t, bound, hf, hts, ht, hcallee⟩ := hg
  unfold calls at h
  cases hin : a.inputs n with
  | nil => simp [slot?, hin] at hf
  | cons f' args =>
    obtain rfl : f' = f := by simpa [slot?, hin] using hf
    rw [hin] at h
    simp only [hts] at h
    exact (mem_returns_of_callsOf h).2 t ht bound hcallee

end Midend.Arena
