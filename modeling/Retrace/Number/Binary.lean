/-!
# Binary floating-point formats

A format fixes the width of the significand and of the exponent. Values are kept apart from the
words that hold them: a finite value is `± significand · 2 ^ exponent`, and every comparison and
rounding is exact arithmetic on natural numbers.

* `FloatFormat.decode`, `FloatFormat.encode`: between a word and the value it holds.
* `FloatFormat.nearest?`: a quotient of naturals rounded to nearest, ties to the even significand;
  `none` when it lies beyond the greatest finite value.
-/

namespace Retrace

/-- A binary interchange format: the significand's width (hidden bit included) and the exponent's.
-/
structure FloatFormat where
  precision : Nat
  exponentBits : Nat
  deriving DecidableEq, Repr

/-- A dyadic magnitude `significand · 2 ^ exponent`. -/
structure Magnitude where
  significand : Nat
  exponent : Int
  deriving DecidableEq, Repr

/-- What a floating-point word stands for. -/
inductive FloatValue where
  | nan
  | infinite (negative : Bool)
  | finite (negative : Bool) (magnitude : Magnitude)
  deriving DecidableEq, Repr

namespace Magnitude

/-- The numerator of a magnitude over `den`. -/
def num (x : Magnitude) : Nat := x.significand * Nat.pow 2 x.exponent.toNat

/-- The power of two below a magnitude's numerator. -/
def den (x : Magnitude) : Nat := Nat.pow 2 (-x.exponent).toNat

/-- A magnitude is whole when its denominator divides its numerator. -/
def isWhole (x : Magnitude) : Bool := x.num % x.den == 0

/-- The integer part of a magnitude. -/
def floor (x : Magnitude) : Nat := x.num / x.den

end Magnitude

/-- The quotient `num / den` rounded to the nearest natural number, a half to the even one. -/
def roundHalfEven (num den : Nat) : Nat :=
  let quotient := num / den
  let twice := 2 * (num % den)
  if den < twice || (twice == den && quotient % 2 == 1) then quotient + 1 else quotient

/-- The exponent of the greatest power of two that is at most `num / den`, for positive arguments.
-/
def floorLog2 (num den : Nat) : Int :=
  let estimate : Int := (num.log2 : Int) - (den.log2 : Int)
  if den * Nat.pow 2 estimate.toNat ≤ num * Nat.pow 2 (-estimate).toNat then estimate
  else estimate - 1

namespace FloatFormat

/-- Single precision: 32-bit words. -/
def single : FloatFormat := ⟨24, 8⟩

/-- Double precision: 64-bit words. -/
def double : FloatFormat := ⟨53, 11⟩

/-- What the exponent field exceeds the exponent of the leading bit by. -/
def bias (f : FloatFormat) : Nat := Nat.pow 2 (f.exponentBits - 1) - 1

/-- The exponent of the least significant bit of the smallest magnitudes. -/
def minExponent (f : FloatFormat) : Int := 2 - (f.bias : Int) - f.precision

/-- The exponent of the least significant bit of the greatest finite magnitudes. -/
def maxExponent (f : FloatFormat) : Int := (f.bias : Int) + 1 - f.precision

/-- The weight of a significand's leading bit. -/
def hiddenBit (f : FloatFormat) : Nat := Nat.pow 2 (f.precision - 1)

/-- The exponent field of infinities and of values that are not numbers. -/
def topField (f : FloatFormat) : Nat := Nat.pow 2 f.exponentBits - 1

/-- The weight of the sign bit. -/
def signBit (f : FloatFormat) : Nat := Nat.pow 2 (f.precision - 1 + f.exponentBits)

/-- The value a word holds. -/
def decode (f : FloatFormat) (word : Nat) : FloatValue :=
  let negative := word / f.signBit % 2 == 1
  let field := word / f.hiddenBit % Nat.pow 2 f.exponentBits
  let fraction := word % f.hiddenBit
  if field == f.topField then
    if fraction == 0 then .infinite negative else .nan
  else if field == 0 then
    .finite negative ⟨fraction, f.minExponent⟩
  else
    .finite negative ⟨f.hiddenBit + fraction, f.minExponent + (field - 1 : Nat)⟩

/-- The word of a value whose magnitude fits the format, as `nearest?` and `decode` give them. -/
def encode (f : FloatFormat) : FloatValue → Nat
  | .nan => f.topField * f.hiddenBit + f.hiddenBit / 2
  | .infinite negative => (if negative then f.signBit else 0) + f.topField * f.hiddenBit
  | .finite negative x =>
    (if negative then f.signBit else 0) +
      if x.significand < f.hiddenBit then x.significand
      else (x.exponent - f.minExponent).toNat * f.hiddenBit + x.significand

/-- The magnitude of the format nearest to `num / den`, a tie going to the even significand. -/
def nearest? (f : FloatFormat) (num den : Nat) : Option Magnitude :=
  if num = 0 then some ⟨0, f.minExponent⟩
  else
    let exponent := max f.minExponent (floorLog2 num den - (f.precision - 1 : Nat))
    let significand :=
      roundHalfEven (num * Nat.pow 2 (-exponent).toNat) (den * Nat.pow 2 exponent.toNat)
    let carried : Magnitude :=
      if significand = Nat.pow 2 f.precision then ⟨f.hiddenBit, exponent + 1⟩
      else ⟨significand, exponent⟩
    if f.maxExponent < carried.exponent then none else some carried

/-- The signed quotient in the format; beyond the greatest finite value it is infinite. -/
def round (f : FloatFormat) (negative : Bool) (num den : Nat) : FloatValue :=
  match f.nearest? num den with
  | some x => .finite negative x
  | none => .infinite negative

/-- A value of any format brought into this one. -/
def convert (f : FloatFormat) : FloatValue → FloatValue
  | .nan => .nan
  | .infinite negative => .infinite negative
  | .finite negative x => f.round negative x.num x.den

end FloatFormat

end Retrace
