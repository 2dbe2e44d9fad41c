import Retrace.Number.Binary

/-!
# Shortest decimal text of a floating-point value

Of all decimals that read back as a value, the shortest is written, and of those with equally few
digits the one nearest to the value. A decimal reads back when it lies in the interval of numbers
that round to the value; the ends belong to it exactly when the significand is even.

* `Magnitude.readsBack`: the interval test, in natural numbers.
* `Magnitude.shortest`: the grids `10 ^ k` are tried from coarse to fine; on each, the value's two
  neighbours are the only candidates worth a test.
* `Decimal.positional`: the digits with a point where it belongs and no exponent.
-/

namespace Retrace

/-- A decimal magnitude `digits · 10 ^ exponent`. -/
structure Decimal where
  digits : Nat
  exponent : Int
  deriving DecidableEq, Repr

namespace Decimal

/-- The same decimal without trailing zero digits. -/
def trim (d : Decimal) : Decimal :=
  if 0 < d.digits ∧ d.digits % 10 = 0 then trim ⟨d.digits / 10, d.exponent + 1⟩ else d
termination_by d.digits
decreasing_by omega

/-- The decimal in positional notation, with a point only where digits follow it. -/
def positional (d : Decimal) : String :=
  let digits := Nat.toDigits 10 d.digits
  let shift := (-d.exponent).toNat
  if 0 ≤ d.exponent then
    String.ofList (digits ++ List.replicate d.exponent.toNat '0')
  else if shift < digits.length then
    let whole := digits.length - shift
    String.ofList (digits.take whole ++ '.' :: digits.drop whole)
  else
    String.ofList ('0' :: '.' :: List.replicate (shift - digits.length) '0' ++ digits)

end Decimal

/-- The number of decimal digits of a natural number. -/
def digitCount (n : Nat) : Nat := (Nat.toDigits 10 n).length

/-- The least `e` with `num / den < 10 ^ e`, for positive arguments. -/
def decimalMagnitude (num den : Nat) : Int :=
  if den ≤ num then digitCount (num / den)
  else 1 - (digitCount ((den + num - 1) / num - 1) : Int)

namespace Magnitude

/-- Four times the significand of the upper end of the interval that rounds to the magnitude. -/
def upperQuarters (x : Magnitude) : Nat := 4 * x.significand + 2

/-- Four times the significand of the lower end: below a power of two the values lie twice as dense.
-/
def lowerQuarters (f : FloatFormat) (x : Magnitude) : Nat :=
  if x.significand = f.hiddenBit ∧ f.minExponent < x.exponent then 4 * x.significand - 1
  else 4 * x.significand - 2

/-- The factors that put quarters of the magnitude's unit and multiples of `10 ^ k` on one scale. -/
def gridFactors (x : Magnitude) (k : Int) : Nat × Nat :=
  (Nat.pow 2 (x.exponent - 2).toNat * Nat.pow 10 (-k).toNat,
    Nat.pow 10 k.toNat * Nat.pow 2 (2 - x.exponent).toNat)

/-- Whether `c · 10 ^ k` rounds to the magnitude. -/
def readsBack (f : FloatFormat) (x : Magnitude) (c : Nat) (k : Int) : Bool :=
  let (quarter, grid) := x.gridFactors k
  let low := x.lowerQuarters f * quarter
  let high := x.upperQuarters * quarter
  if x.significand % 2 = 0 then low ≤ c * grid && c * grid ≤ high
  else low < c * grid && c * grid < high

/-- The multiple of `10 ^ k` next to the magnitude that reads back, the nearer of two. -/
def candidate? (f : FloatFormat) (x : Magnitude) (k : Int) : Option Nat :=
  let (quarter, grid) := x.gridFactors k
  let value := 4 * x.significand * quarter
  let below := value / grid
  match x.readsBack f below k && decide (0 < below), x.readsBack f (below + 1) k with
  | true, true =>
    if value - below * grid < (below + 1) * grid - value then some below
    else some (below + 1)
  | true, false => some below
  | false, true => some (below + 1)
  | false, false => none

/-- The first grid with a candidate, trying `fuel` grids from `10 ^ k` downwards. -/
def searchGrids (f : FloatFormat) (x : Magnitude) (k : Int) : Nat → Decimal
  | 0 => ⟨x.significand, x.exponent⟩
  | fuel + 1 =>
    match x.candidate? f k with
    | some c => Decimal.trim ⟨c, k⟩
    | none => searchGrids f x (k - 1) fuel

/-- The shortest decimal that reads back as the magnitude. -/
def shortest (f : FloatFormat) (x : Magnitude) : Decimal :=
  if x.significand = 0 then ⟨0, 0⟩
  else x.searchGrids f (decimalMagnitude x.num x.den) (f.precision + 2)

end Magnitude

/-- The text of a value in a format: shortest digits, never an exponent. -/
def FloatValue.text (f : FloatFormat) : FloatValue → String
  | .nan => "NaN"
  | .infinite negative => if negative then "-inf" else "inf"
  | .finite negative x => (if negative then "-" else "") ++ (x.shortest f).positional

end Retrace
