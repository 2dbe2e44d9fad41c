import Retrace.CType
import Retrace.Error
import Retrace.Value

/-!
# Payloads

A payload is the memory that a program hands over with a notification, lowest byte first. The class
of the type says how many bytes are read and how; bytes after them are ignored, except that a
pointer keeps them as the snapshot around its target.

Models `decode_value`, `take` and `read_integer`.
-/

namespace Retrace.Payload

/-- The natural number whose bytes are given, lowest first. -/
def littleEndian : List UInt8 → Nat
  | [] => 0
  | b :: rest => b.toNat + 256 * littleEndian rest

/-- The integer in the given bytes, in two's complement when signed, as a 64-bit word. -/
def readInteger (signed : Bool) (bytes : List UInt8) : Int64 :=
  let n := littleEndian bytes
  let span := Nat.pow 256 bytes.length
  Int64.ofInt (if signed && decide (span ≤ 2 * n) then (n : Int) - span else n)

/-- The width of an address in bytes. -/
def pointerWidth : Nat := 4

/-- The first bytes of a payload, or an error when it is shorter. -/
def take (type : String) (payload : List UInt8) (needed : Nat) : Except TraceError (List UInt8) :=
  if payload.length < needed then .error (.payloadTooShort type needed payload.length)
  else .ok (payload.take needed)

/-- The value that a payload holds under a type. -/
def decode (type : String) (payload : List UInt8) : Except TraceError Value :=
  match CType.classify type with
  | .integer signed width =>
    (take type payload width).map fun bytes => .int (readInteger signed bytes)
  | .char signed => (take type payload 1).map fun bytes => .int (readInteger signed bytes)
  | .bool => (take type payload 1).map fun bytes => .int (if littleEndian bytes = 0 then 0 else 1)
  | .float =>
    (take type payload 4).map fun bytes => .float (.ofSingle (.ofNat (littleEndian bytes)))
  | .double => (take type payload 8).map fun bytes => .float ⟨.ofNat (littleEndian bytes)⟩
  | .pointer =>
    (take type payload pointerWidth).map fun bytes =>
      .pointer (.ofNat (littleEndian bytes)) (payload.drop pointerWidth)
  | .other => .error (.unsupportedType type)

end Retrace.Payload
