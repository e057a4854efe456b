import Midend.Ty
import Midend.Fault

/-!
# What a call runs

Bound arguments are peeled off a target until a graph or an operation is left; the arguments bound
first stand first, as they precede the arguments of the call.
-/

namespace Midend

/-- What a call runs in the end. -/
inductive Callee where
  | graph (g : GraphId)
  | prim (p : Prim)
  deriving DecidableEq

def Callee.graph? : Callee → Option GraphId
  | graph g => some g
  | prim _ => none

namespace Target

/-- The callee with the annotations of the bound arguments. -/
def callee : Target → Except Fault (Callee × List Ty)
  | graph g => .ok (.graph g, [])
  | prim p => .ok (.prim p, [])
  | typed p _ _ => .ok (.prim p, [])
  | unknown => .error .unknownTarget
  | bound f args => (f.callee).map fun (c, before) => (c, before ++ args)

/-- The target under all bound arguments. -/
def innermost : Target → Target
  | bound f _ => f.innermost
  | t => t

/-- A target has a callee unless it is unknown under the bound arguments. -/
theorem callee_eq_error_iff {f : Fault} :
    ∀ {t : Target}, t.callee = .error f ↔ t.innermost = .unknown ∧ f = .unknownTarget
  | graph g => by simp [callee, innermost]
  | prim p => by simp [callee, innermost]
  | typed p args out => by simp [callee, innermost]
  | unknown => by simp [callee, innermost, eq_comm]
  | bound g args => by
    have ih := callee_eq_error_iff (f := f) (t := g)
    cases hc : g.callee with
    | ok r =>
      simp only [hc, reduceCtorEq, false_iff] at ih
      simpa [callee, innermost, hc, Except.map] using ih
    | error f' => simpa [callee, innermost, hc, Except.map] using ih

end Target

end Midend
