import Retrace.Number.Binary64

/-!
# Numbers in JSON text

A number is kept as its digits. Reading one gives a natural number or a negative integer when it is
written without point and exponent and fits 64 bits, and a double otherwise. The double is not
always the nearest one: the digits that fit 64 bits are rounded, then scaled by a rounded power of
ten.
-/

namespace Retrace.Json

/-- A number as it is written: digits before and after the point, and a signed exponent. -/
structure Number where
  negative : Bool
  integer : List Nat
  fraction : List Nat
  exponent : Option (Bool × List Nat)
  deriving DecidableEq, Repr

/-- What a number in JSON text stands for. -/
inductive NumberValue where
  | natural (n : Nat)
  | negative (n : Int)
  | float (x : Binary64)
  deriving DecidableEq, Repr

/-- The number that decimal digits stand for. -/
def digitsValue (digits : List Nat) : Nat := digits.foldl (fun n d => 10 * n + d) 0

/-- Appends digits to a significand as long as it fits 64 bits; the digits left over come second. -/
def accumulate (significand : Nat) : List Nat → Nat × List Nat
  | [] => (significand, [])
  | d :: rest =>
    if significand * 10 + d < UInt64.size then accumulate (significand * 10 + d) rest
    else (significand, d :: rest)

/-- A power of ten, rounded to double precision. -/
def powerOfTen (k : Nat) : Magnitude := (FloatFormat.double.nearest? (Nat.pow 10 k) 1).getD ⟨0, 0⟩

/-- The rounded product of two magnitudes. -/
def times? (x y : Magnitude) : Option Magnitude :=
  FloatFormat.double.nearest? (x.num * y.num) (x.den * y.den)

/-- The rounded quotient of two magnitudes. -/
def over? (x y : Magnitude) : Option Magnitude :=
  FloatFormat.double.nearest? (x.num * y.den) (x.den * y.num)

/-- The greatest exponent of a power of ten that double precision can hold. -/
def maxPower : Nat := 308

/-- Divides by the greatest power of ten a number of times, or until nothing is left. -/
def stridesDown? (x : Magnitude) : Nat → Option Magnitude
  | 0 => some x
  | strides + 1 => do
    let y ← over? x (powerOfTen maxPower)
    if y.significand = 0 then some y else stridesDown? y strides

/-- Scales down by a power of ten, in strides of the greatest one. -/
def scaleDown? (x : Magnitude) (k : Nat) : Option Magnitude := do
  let strides := (k - 1) / maxPower
  let y ← stridesDown? x strides
  if y.significand = 0 then some y else over? y (powerOfTen (k - strides * maxPower))

/-- A significand scaled by a power of ten; nothing when the result is too great. -/
def scale? (significand : Nat) (exponent : Int) : Option Magnitude := do
  let x ← FloatFormat.double.nearest? significand 1
  if 0 ≤ exponent then
    if exponent ≤ maxPower then times? x (powerOfTen exponent.toNat)
    else if x.significand = 0 then some x else none
  else scaleDown? x (-exponent).toNat

namespace Number

/-- Whether a number is written without point and exponent. -/
def isInteger (n : Number) : Bool := n.fraction.isEmpty && n.exponent.isNone

/-- The greatest exponent that is read as a number of its own. -/
def maxExponent : Nat := 2147483647

/-- The magnitude of a number that is read as a double. -/
def magnitude? (n : Number) : Option Magnitude :=
  let (leading, dropped) := accumulate 0 n.integer
  let (significand, ignored) := accumulate leading n.fraction
  let shift : Int := (dropped.length : Int) - ((n.fraction.length - ignored.length : Nat) : Int)
  match n.exponent with
  | none => scale? significand shift
  | some (negative, digits) =>
    let e := digitsValue digits
    if e ≤ maxExponent then scale? significand (if negative then shift - e else shift + e)
    else if significand = 0 || negative then some ⟨0, FloatFormat.double.minExponent⟩ else none

/-- What a number stands for; nothing when it is beyond double precision. -/
def value? (n : Number) : Option NumberValue :=
  let whole := digitsValue n.integer
  if n.isInteger && !n.negative && decide (whole < UInt64.size) then some (.natural whole)
  else if n.isInteger && n.negative && decide (0 < whole ∧ Int64.minValue.toInt ≤ -whole) then
    some (.negative (-whole))
  else n.magnitude?.map fun m => .float (.ofValue (.finite n.negative m))

end Number

end Retrace.Json
