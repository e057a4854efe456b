import Midend.Value

/-!
# Paths into structured values

A path leads from a value down to one of its parts, through positions of tuples and keys of
environments. The prefixes of a path are listed longest first, from the path itself down to the
empty one.
-/

namespace Midend

/-- One step down: to a position of a tuple or an entry of an environment. -/
inductive Step where
  | index (i : Nat)
  | key (name : String)
  deriving DecidableEq, Repr

/-- A route to a part; the empty path leads to the whole value. -/
abbrev Path := List Step

/-- The step that a literal selects: a position that is not negative, or a symbolic key. -/
def Step.ofValue? : Value → Option Step
  | .int i => if 0 ≤ i then some (.index i.toNat) else none
  | .key k => some (.key k)
  | _ => none

/-- Positions are written as numbers, keys after a dollar sign. -/
def Step.text : Step → String
  | .index i => toString i
  | .key k => "$" ++ k

namespace Path

/-- The steps in parentheses. -/
def text (p : Path) : String := "(" ++ ", ".intercalate (p.map Step.text) ++ ")"

/-- The prefixes of a path, longest first. -/
def prefixes (p : Path) : List Path := (List.range (p.length + 1)).reverse.map (p.take ·)

theorem mem_prefixes {p q : Path} : q ∈ prefixes p ↔ q <+: p := by
  simp only [prefixes, List.mem_map, List.mem_reverse, List.mem_range]
  constructor
  · rintro ⟨k, _, rfl⟩
    exact List.take_prefix k p
  · intro h
    exact ⟨q.length, Nat.lt_succ_of_le h.length_le, (List.prefix_iff_eq_take.mp h).symm⟩

end Path

end Midend
