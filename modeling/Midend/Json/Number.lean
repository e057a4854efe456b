import Midend.Json.Token

/-!
# Numbers of JSON texts

A number without fraction and exponent that fits 64 bits is a whole number; `-0` and every other
number is a floating point number. Its digits are gathered into a significand as long as that fits
64 bits; the digits beyond count only by their place. The significand is then scaled by a power of
ten in one step of floating point arithmetic, so the last bit may differ from the nearest number.
-/

namespace Midend.Json

/-- A number: whole between `-2 ^ 63` and below `2 ^ 64`, or by the bits of a floating point
number. -/
inductive Number where
  | whole (i : Int)
  | float (bits : UInt64)
  deriving DecidableEq, Repr

/-- Appends digits to a significand as long as it fits 64 bits. The answer is the significand, how
many digits it took, and how many are left. -/
def gather (significand : Nat) : List Nat → Nat × Nat × Nat
  | [] => (significand, 0, 0)
  | d :: ds =>
    if 10 * significand + d < Nat.pow 2 64 then
      let (s, taken, left) := gather (10 * significand + d) ds
      (s, taken + 1, left)
    else (significand, 0, ds.length + 1)

def natOfDigits (ds : List Nat) : Nat := ds.foldl (fun n d => 10 * n + d) 0

def tenPower (e : Nat) : Float := Float.ofScientific 1 false e

/-- Divides by `10 ^ e`, at most `10 ^ 308` at a time. -/
def scaleDown (f : Float) (e : Nat) : Float :=
  if e ≤ 308 then f / tenPower e
  else if f == 0 then f
  else scaleDown (f / tenPower 308) (e - 308)
termination_by e

/-- Multiplies by `10 ^ e`; `none` if the result is too big. -/
def scaleUp? (f : Float) (e : Nat) : Option Float :=
  if e ≤ 308 then
    let r := f * tenPower e
    if r.isInf then none else some r
  else if f == 0 then some f
  else none

/-- A significand times a power of ten; `none` if that is too big. -/
def floatOfParts (negative : Bool) (significand : Nat) (exponent : Int) : Option Number :=
  let f := Float.ofNat significand
  let scaled := if 0 ≤ exponent then scaleUp? f exponent.toNat
    else some (scaleDown f (-exponent).toNat)
  scaled.map fun r => .float (if negative then -r else r).toBits

/-- The number that a text stands for; `none` if it is too big. -/
def NumberText.number? (t : NumberText) : Option Number :=
  let whole := gather 0 t.whole
  let beyond := whole.2.2
  match t.fraction, t.exponent with
  | none, none =>
    if beyond ≠ 0 then floatOfParts t.negative whole.1 beyond
    else if t.negative then
      if whole.1 = 0 ∨ Nat.pow 2 63 < whole.1 then floatOfParts true whole.1 0
      else some (.whole (-whole.1))
    else some (.whole whole.1)
  | fraction, exponent =>
    let all := gather whole.1 (fraction.getD [])
    let shift : Int := match exponent with
      | none => 0
      | some (negative, ds) => if negative then -natOfDigits ds else natOfDigits ds
    floatOfParts t.negative all.1 (beyond - all.2.1 + shift)

end Midend.Json
