/-!
# Decimal texts of 64-bit floating point numbers

A finite number is written with the fewest decimal digits that read back as the same number, and of
those with the digits nearest to it. `FloatStyle` holds what a format decides for itself: where
positional notation ends, the sign of a positive exponent, and which way a tie goes.
-/

namespace Midend.Decimal

/-! ### The number behind the bits -/

/-- What 64 bits stand for; a finite number is `m * 2 ^ q` with its sign. -/
inductive Binary64 where
  | nan
  | infinite (negative : Bool)
  | finite (negative : Bool) (m : Nat) (q : Int)
  deriving DecidableEq, Repr

/-- Splits the bits into sign, exponent and fraction. -/
def Binary64.ofBits (bits : UInt64) : Binary64 :=
  let n := bits.toNat
  let negative := decide (Nat.pow 2 63 ≤ n)
  let exponent : Nat := n / Nat.pow 2 52 % Nat.pow 2 11
  let fraction := n % Nat.pow 2 52
  if exponent = 2047 then
    if fraction = 0 then .infinite negative else .nan
  else if exponent = 0 then .finite negative fraction (-1074)
  else .finite negative (fraction + Nat.pow 2 52) ((exponent : Int) - 1075)

/-! ### Fewest digits -/

/-- `m * 2 ^ q` counted in units of `2 ^ -1100 * 10 ^ -400`, a whole number for every exponent that
occurs. -/
def scaled (m : Nat) (q : Int) : Nat := m * Nat.pow 2 (q + 1100).toNat * Nat.pow 10 400

/-- `10 ^ g` counted in the same units. -/
def scaledTen (g : Int) : Nat := Nat.pow 2 1100 * Nat.pow 10 (g + 400).toNat

/-- The bounds of the numbers that round to `m * 2 ^ q`, in units: half the distance to either
neighbour, which below a power of two is half as large. -/
def roundingBounds (m : Nat) (q : Int) : Nat × Nat :=
  let below := if m = Nat.pow 2 52 ∧ q ≠ -1074 then scaled 1 (q - 2) else scaled 1 (q - 1)
  (scaled m q - below, scaled m q + scaled 1 (q - 1))

/-- Whether a number of units rounds to `m * 2 ^ q`; the bounds themselves do when `m` is even. -/
def roundsTo (m : Nat) (q : Int) (x : Nat) : Bool :=
  let (low, high) := roundingBounds m q
  if m % 2 = 0 then low ≤ x ∧ x ≤ high else low < x ∧ x < high

/-- The power of ten of the first digit of `m * 2 ^ q`, for a positive `m`. -/
def leadingPower (m : Nat) (q : Int) : Int :=
  ((Nat.toDigits 10 (scaled m q / Nat.pow 2 1100)).length : Int) - 401

/-- The multiple of `10 ^ g` nearest to `m * 2 ^ q` among its two neighbours that round to it. -/
def nearestOnGrid (tiesUp : Bool) (m : Nat) (q g : Int) : Option Nat :=
  let v := scaled m q
  let step := scaledTen g
  let down := v / step
  let up := down + 1
  match roundsTo m q (down * step), roundsTo m q (up * step) with
  | true, true =>
    let below := v - down * step
    let above := up * step - v
    if below < above then some down
    else if above < below then some up
    else if tiesUp || down % 2 = 1 then some up
    else some down
  | true, false => some down
  | false, true => some up
  | false, false => none

/-- Digits, the first of which stands for `10 ^ power`. -/
structure Digits where
  digits : List Char
  power : Int
  deriving DecidableEq, Repr

/-- The digits of `c * 10 ^ g`, without zeros at the end. -/
def Digits.ofMultiple (c : Nat) (g : Int) : Digits :=
  let all := Nat.toDigits 10 c
  ⟨(all.reverse.dropWhile (· = '0')).reverse, g + all.length - 1⟩

/-- The fewest digits that read back as `m * 2 ^ q`, for a positive `m`; seventeen are enough. -/
def shortest (tiesUp : Bool) (m : Nat) (q : Int) : Digits :=
  let power := leadingPower m q
  let found := (List.range 17).findSome? fun (n : Nat) =>
    (nearestOnGrid tiesUp m q (power - n)).map (Digits.ofMultiple · (power - n))
  found.getD ⟨['0'], 0⟩

/-! ### Texts -/

/-- What a format decides: the powers of the first digit that are written positionally, whether a
positive exponent carries a plus sign, and whether ties between equally short digits go up or to
the even digit. -/
structure FloatStyle where
  positionalFrom : Int
  positionalTo : Int
  plusSign : Bool
  tiesUp : Bool
  deriving DecidableEq, Repr

/-- Digits around a decimal point, with at least one on either side. -/
def Digits.positional (d : Digits) : List Char :=
  if d.power < 0 then
    '0' :: '.' :: List.replicate (-d.power - 1).toNat '0' ++ d.digits
  else
    let whole := d.power.toNat + 1
    let left := d.digits.take whole
    let right := d.digits.drop whole
    left ++ List.replicate (whole - left.length) '0' ++ '.' :: (if right = [] then ['0'] else right)

/-- One digit before the point and the power of ten as an exponent. -/
def Digits.scientific (plusSign : Bool) (d : Digits) : List Char :=
  let mantissa := match d.digits with
    | [] => []
    | [c] => [c]
    | c :: cs => c :: '.' :: cs
  let sign := if d.power < 0 then ['-'] else if plusSign then ['+'] else []
  mantissa ++ 'e' :: sign ++ Nat.toDigits 10 d.power.natAbs

/-- The text of a number in a style. -/
def FloatStyle.text (style : FloatStyle) (bits : UInt64) : String :=
  match Binary64.ofBits bits with
  | .nan => "NaN"
  | .infinite negative => if negative then "-inf" else "inf"
  | .finite negative m q =>
    let body :=
      if m = 0 then ['0', '.', '0']
      else
        let d := shortest style.tiesUp m q
        if style.positionalFrom ≤ d.power ∧ d.power ≤ style.positionalTo then d.positional
        else d.scientific style.plusSign
    String.ofList (if negative then '-' :: body else body)

end Midend.Decimal
