import Retrace.Number.Shortest

/-!
# Double-precision numbers

A `Binary64` is the 64-bit word itself, so two numbers are equal when their words are. The
conversions to and from integers and single precision go through the exact value.
-/

namespace Retrace

/-- A double-precision number, held as its word. -/
structure Binary64 where
  word : UInt64
  deriving DecidableEq, Repr

namespace Binary64

/-- The value of the word. -/
def value (x : Binary64) : FloatValue := FloatFormat.double.decode x.word.toNat

/-- The number nearest to a value of any format. -/
def ofValue (v : FloatValue) : Binary64 :=
  ⟨UInt64.ofNat (FloatFormat.double.encode (FloatFormat.double.convert v))⟩

/-- The number nearest to an integer. -/
def ofInt (n : Int) : Binary64 := ofValue (FloatFormat.double.round (n < 0) n.natAbs 1)

/-- The number that a single-precision word holds. -/
def ofSingle (word : UInt32) : Binary64 := ofValue (FloatFormat.single.decode word.toNat)

/-- Whether the word stands for no number at all. -/
def isNaN (x : Binary64) : Bool := x.value == .nan

/-- The integer part, toward zero; out-of-range values saturate and a value that is no number gives
zero. -/
def truncate (x : Binary64) : Int64 :=
  match x.value with
  | .nan => 0
  | .infinite negative => if negative then Int64.minValue else Int64.maxValue
  | .finite negative m =>
    let n : Int := if negative then -(m.floor : Int) else m.floor
    if n < Int64.minValue.toInt then Int64.minValue
    else if Int64.maxValue.toInt < n then Int64.maxValue
    else Int64.ofInt n

/-- Sign and magnitude of a finite number without a fractional part. -/
def whole? (x : Binary64) : Option (Bool × Nat) :=
  match x.value with
  | .finite negative m => if m.isWhole then some (negative, m.floor) else none
  | _ => none

/-- The shortest text that reads back as the number. -/
def text (x : Binary64) : String := x.value.text FloatFormat.double

/-- The shortest text of the number rounded to single precision. -/
def singleText (x : Binary64) : String :=
  (FloatFormat.single.convert x.value).text FloatFormat.single

end Binary64

end Retrace
