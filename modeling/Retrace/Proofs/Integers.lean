import Mathlib.Data.Nat.Digits.Lemmas
import Retrace.Value.Format
import Retrace.Value.Payload

/-!
# Integers in payloads

The bytes of a payload, lowest first, hold a C integer: a natural number when its type is unsigned, a
number in two's complement when it is signed. A decoded integer is a signed 64-bit word, and what is
shown is the word. Every integer of two or four bytes and every signed one of eight is such a word; of
the unsigned integers of eight bytes those in the upper half are not, and the word that has the same bits
is shown instead, which is negative.

* `heldInteger`: the C integer that bytes hold.
* `readInteger_eq_ofInt`: reading gives the word nearest to it by its bits.
* `heldInteger_bounds`: which integers bytes can hold.
* `decode_integer`: what comes of a payload of an integer type.
* `integer_spec`: how the payload is shown.
-/

namespace Retrace.Payload

/-! ## The integer that bytes hold -/

/-- The C integer that bytes hold, lowest byte first; in two's complement when it is signed. -/
def heldInteger (signed : Bool) (bytes : List UInt8) : Int :=
  let number := Nat.ofDigits 256 (bytes.map UInt8.toNat)
  if signed then (BitVec.ofNat (8 * bytes.length) number).toInt else number

theorem littleEndian_eq_ofDigits (bytes : List UInt8) :
    littleEndian bytes = Nat.ofDigits 256 (bytes.map UInt8.toNat) := by
  induction bytes with
  | nil => rfl
  | cons b bytes ih => rw [littleEndian, ih, List.map_cons, Nat.ofDigits_cons]

theorem littleEndian_lt (bytes : List UInt8) : littleEndian bytes < 2 ^ (8 * bytes.length) := by
  rw [littleEndian_eq_ofDigits, pow_mul]
  have hdigits : ∀ d ∈ bytes.map UInt8.toNat, d < 256 := by
    intro d hd
    obtain ⟨b, -, rfl⟩ := List.mem_map.mp hd
    exact b.toNat_lt
  simpa using Nat.ofDigits_lt_base_pow_length (by decide) hdigits

theorem heldInteger_unsigned (bytes : List UInt8) :
    heldInteger false bytes = littleEndian bytes := by
  simp [heldInteger, littleEndian_eq_ofDigits]

/-- In two's complement a number of the upper half stands for the one that is less by the span. -/
theorem heldInteger_signed (bytes : List UInt8) :
    heldInteger true bytes = if 2 * littleEndian bytes < 2 ^ (8 * bytes.length) then
      (littleEndian bytes : Int) else littleEndian bytes - (2 ^ (8 * bytes.length) : Nat) := by
  have hlt := littleEndian_lt bytes
  simp only [heldInteger, if_true, ← littleEndian_eq_ofDigits, BitVec.toInt_eq_toNat_cond,
    BitVec.toNat_ofNat, Nat.mod_eq_of_lt hlt]

/-- Reading gives the word of the integer that the bytes hold. -/
theorem readInteger_eq_ofInt (signed : Bool) (bytes : List UInt8) :
    readInteger signed bytes = Int64.ofInt (heldInteger signed bytes) := by
  have hspan : Nat.pow 256 bytes.length = 2 ^ (8 * bytes.length) := by
    rw [pow_mul]
    rfl
  unfold readInteger
  simp only [hspan]
  cases signed with
  | false => simp [heldInteger_unsigned]
  | true =>
    rw [heldInteger_signed]
    by_cases h : 2 * littleEndian bytes < 2 ^ (8 * bytes.length)
    · simp [h, not_le.mpr h]
    · simp [h, not_lt.mp h]

/-! ## The words of these integers -/

/-- The integers that at most eight bytes hold; only eight unsigned ones hold a number beyond the
signed words. -/
theorem heldInteger_bounds {bytes : List UInt8} (h : bytes.length ≤ 8) (signed : Bool) :
    Int64.minValue.toInt ≤ heldInteger signed bytes ∧ heldInteger signed bytes < UInt64.size ∧
      (Int64.maxValue.toInt < heldInteger signed bytes → signed = false ∧ bytes.length = 8) := by
  have hlt := littleEndian_lt bytes
  have hspan : 2 ^ (8 * bytes.length) ≤ UInt64.size :=
    Nat.pow_le_pow_right (by decide) (by omega : 8 * bytes.length ≤ 64)
  rw [Int64.toInt_minValue, Int64.toInt_maxValue]
  rw [UInt64.size] at hspan ⊢
  cases signed with
  | false =>
    rw [heldInteger_unsigned]
    refine ⟨by omega, by omega, fun hlarge => ⟨rfl, ?_⟩⟩
    by_contra hne
    have hseven : 2 ^ (8 * bytes.length) ≤ 2 ^ 56 :=
      Nat.pow_le_pow_right (by decide) (by omega)
    omega
  | true =>
    rw [heldInteger_signed]
    split <;> omega

/-- **The word that is read** is the integer that the bytes hold if the signed words reach to it, and the
one that is less by their number otherwise. -/
theorem toInt_readInteger {bytes : List UInt8} (h : bytes.length ≤ 8) (signed : Bool) :
    (readInteger signed bytes).toInt = if heldInteger signed bytes ≤ Int64.maxValue.toInt then
      heldInteger signed bytes else heldInteger signed bytes - UInt64.size := by
  obtain ⟨hmin, hmax, -⟩ := heldInteger_bounds h signed
  rw [Int64.toInt_minValue] at hmin
  rw [UInt64.size] at hmax
  rw [readInteger_eq_ofInt, Int64.toInt_ofInt, Int.bmod_def, Int64.toInt_maxValue, UInt64.size,
    Int64.size]
  split <;> split <;> omega

/-! ## Payloads of integer types -/

variable {type : String} {signed : Bool} {width : Nat} {payload : List UInt8}

theorem width_of_arithmeticClass {words : List String}
    (h : CType.arithmeticClass words = .integer signed width) :
    width = 2 ∨ width = 4 ∨ width = 8 := by
  unfold CType.arithmeticClass at h
  split at h <;> cases h <;> decide

theorem width_of_classify (h : CType.classify type = .integer signed width) :
    width = 2 ∨ width = 4 ∨ width = 8 := by
  unfold CType.classify at h
  simp only at h
  split at h
  · cases h
  · exact width_of_arithmeticClass h

theorem decode_of_integer (h : CType.classify type = .integer signed width) :
    decode type payload =
      (take type payload width).map fun bytes => .int (readInteger signed bytes) := by
  simp only [decode, h]

theorem format_of_integer (h : CType.classify type = .integer signed width) (n : Int64) :
    (Value.int n).format type = toString n.toInt := by
  simp [Value.format, Value.formatAs, Value.toInt?, h]

/-- **Payloads of integer types.** -/
theorem integer_spec (h : CType.classify type = .integer signed width) (payload : List UInt8) :
    (width = 2 ∨ width = 4 ∨ width = 8) ∧
    (payload.length < width →
      decode type payload = .error (.payloadTooShort type width payload.length)) ∧
    (width ≤ payload.length →
      let held := heldInteger signed (payload.take width)
      ∃ v, decode type payload = .ok v ∧
        (held ≤ Int64.maxValue.toInt → v.format type = toString held) ∧
        (Int64.maxValue.toInt < held →
          signed = false ∧ width = 8 ∧ v.format type = toString (held - UInt64.size))) := by
  have hwidth := width_of_classify h
  refine ⟨hwidth, fun hshort => ?_, fun hlong => ?_⟩
  · rw [decode_of_integer h, take, if_pos hshort]
    rfl
  · intro held
    have hlength : (payload.take width).length = width := by
      rw [List.length_take, Nat.min_eq_left hlong]
    have hbytes : (payload.take width).length ≤ 8 := by omega
    have hword := toInt_readInteger hbytes signed
    have hbounds := heldInteger_bounds hbytes signed
    refine ⟨.int (readInteger signed (payload.take width)), ?_, fun hfits => ?_, fun hlarge => ?_⟩
    · rw [decode_of_integer h, take, if_neg (by omega)]
      rfl
    · rw [format_of_integer h, hword, if_pos hfits]
    · obtain ⟨hsigned, height⟩ := hbounds.2.2 hlarge
      refine ⟨hsigned, hlength.symm.trans height, ?_⟩
      rw [format_of_integer h, hword, if_neg (not_le.mpr hlarge)]

/-- The greatest unsigned integer that is shown as it is, with a byte behind it. -/
theorem integer_greatestWord :
    CType.classify "unsigned  long const long" = .integer false 8 ∧
    ∃ v, decode "unsigned  long const long" [255, 255, 255, 255, 255, 255, 255, 127, 1] = .ok v ∧
      v.format "unsigned  long const long" = "9223372036854775807" := by
  have hclass : CType.classify "unsigned  long const long" = .integer false 8 := by decide +kernel
  have hlength : 8 ≤ [255, 255, 255, 255, 255, 255, 255, 127, (1 : UInt8)].length := by decide
  obtain ⟨v, hdecode, hshown, -⟩ := (integer_spec hclass _).2.2 hlength
  exact ⟨hclass, v, hdecode, (hshown (by decide)).trans (by decide +kernel)⟩

/-- The next one is shown as a negative number. -/
theorem integer_beyondWords :
    CType.classify "unsigned long long" = .integer false 8 ∧
    decode "unsigned long long" [0, 0, 0, 0, 0, 0, 0, 128] = .ok (.int Int64.minValue) ∧
    (Value.int Int64.minValue).format "unsigned long long" = "-9223372036854775808" ∧
    toString (heldInteger false [0, 0, 0, 0, 0, 0, 0, 128]) = "9223372036854775808" := by
  decide +kernel

end Retrace.Payload
