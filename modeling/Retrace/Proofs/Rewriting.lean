import Mathlib.Algebra.GroupWithZero.Nat
import Retrace.Proofs.Splice

/-!
# Splicing byte by byte

A splice is made between characters. Its bytes can be told without that: they are the bytes of the gaps,
unchanged, with the bytes of the values between them, and any position that no segment straddles cuts
the result in two, be it between characters or inside one.

* `Text.bytes`: the UTF-8 bytes of a text.
* `Within`: segments in order that lie between two positions.
* `Parts`: a position that parts the first segments from the others.
* `rewritten`: bytes with segments replaced; `Spliced.bytes_eq` says that a splice has these bytes.
* `length_rewritten`: what is removed and what is added account for the length.
* `rewritten_append`: segments on two sides of a position rewrite the two sides.
-/

namespace Retrace

/-! ## Bytes of a text -/

namespace Text

/-- The UTF-8 bytes of a text. -/
def bytes (s : List Char) : List UInt8 := s.flatMap String.utf8EncodeChar

theorem bytes_append (s t : List Char) : bytes (s ++ t) = bytes s ++ bytes t :=
  List.flatMap_append

theorem length_bytes (s : List Char) : (bytes s).length = byteSize s := by
  induction s with
  | nil => rfl
  | cons c s ih =>
    rw [← List.singleton_append, bytes_append, List.length_append, ih, byteSize_append]
    congr 1
    simp [bytes, byteSize]

theorem length_bytes_toList (s : String) : (bytes s.toList).length = s.utf8ByteSize := by
  rw [length_bytes, byteSize_toList]

/-- Different texts have different bytes. -/
theorem bytes_injective {s t : String} (h : bytes s.toList = bytes t.toList) : s = t := by
  rw [← String.toByteArray_inj, ← String.utf8Encode_toList, ← String.utf8Encode_toList]
  exact congrArg List.toByteArray h

end Text

namespace Segment

open Text

/-! ## Segments between two positions -/

/-- Segments in order that lie between two positions. -/
structure Within (start stop : Nat) (segments : List (Segment Nat)) : Prop where
  inOrder : InOrder segments
  start_le : ∀ s ∈ segments, start ≤ s.span.start
  le_stop : ∀ s ∈ segments, s.span.stop ≤ stop

variable {start stop position cut : Nat} {s : Segment Nat}
  {segments left right : List (Segment Nat)}

theorem within_nil (start stop : Nat) : Within start stop [] where
  inOrder := ⟨List.Pairwise.nil, fun _ h => absurd h List.not_mem_nil⟩
  start_le := fun _ h => absurd h List.not_mem_nil
  le_stop := fun _ h => absurd h List.not_mem_nil

theorem within_cons : Within start stop (s :: segments) ↔
    start ≤ s.span.start ∧ s.span.start ≤ s.span.stop ∧ s.span.stop ≤ stop ∧
      Within s.span.stop stop segments := by
  constructor
  · intro h
    obtain ⟨hlater, hapart⟩ := List.pairwise_cons.mp h.inOrder.apart
    obtain ⟨hforward, hforwards⟩ := List.forall_mem_cons.mp h.inOrder.forward
    exact ⟨h.start_le s List.mem_cons_self, hforward, h.le_stop s List.mem_cons_self,
      ⟨hapart, hforwards⟩, hlater, (List.forall_mem_cons.mp h.le_stop).2⟩
  · rintro ⟨hstart, hforward, hstop, h⟩
    refine ⟨⟨List.pairwise_cons.mpr ⟨h.start_le, h.inOrder.apart⟩,
      List.forall_mem_cons.mpr ⟨hforward, h.inOrder.forward⟩⟩, ?_,
      List.forall_mem_cons.mpr ⟨hstop, h.le_stop⟩⟩
    refine List.forall_mem_cons.mpr ⟨hstart, fun t ht => ?_⟩
    have := h.start_le t ht
    omega

/-- A position that parts segments: the first ones lie before it and the others behind it. -/
structure Parts (cut : Nat) (left right : List (Segment Nat)) : Prop where
  before : ∀ s ∈ left, s.span.stop ≤ cut
  behind : ∀ s ∈ right, cut ≤ s.span.start

theorem Within.before (h : Within start stop (left ++ right)) (hparts : Parts cut left right) :
    Within start cut left where
  inOrder := ⟨(List.pairwise_append.mp h.inOrder.apart).1,
    (List.forall_mem_append.mp h.inOrder.forward).1⟩
  start_le := (List.forall_mem_append.mp h.start_le).1
  le_stop := hparts.before

theorem Within.behind (h : Within start stop (left ++ right)) : Within start stop right where
  inOrder := ⟨(List.pairwise_append.mp h.inOrder.apart).2.1,
    (List.forall_mem_append.mp h.inOrder.forward).2⟩
  start_le := (List.forall_mem_append.mp h.start_le).2
  le_stop := (List.forall_mem_append.mp h.le_stop).2

/-- The start of a segment parts those before it from the others. -/
theorem InOrder.parts_start (h : InOrder (left ++ s :: right)) :
    Parts s.span.start left (s :: right) := by
  obtain ⟨-, hright, hleft⟩ := List.pairwise_append.mp h.apart
  have hforward := h.forward s (List.mem_append_right left List.mem_cons_self)
  refine ⟨fun t ht => hleft t ht s List.mem_cons_self, ?_⟩
  exact List.forall_mem_cons.mpr ⟨Nat.le_refl _,
    fun t ht => Nat.le_trans hforward ((List.pairwise_cons.mp hright).1 t ht)⟩

/-- Its end parts those behind it from the others. -/
theorem InOrder.parts_stop (h : InOrder (left ++ s :: right)) :
    Parts s.span.stop (left ++ [s]) right := by
  obtain ⟨-, hright, -⟩ := List.pairwise_append.mp h.apart
  have hforward := h.forward s (List.mem_append_right left List.mem_cons_self)
  refine ⟨?_, (List.pairwise_cons.mp hright).1⟩
  exact List.forall_mem_append.mpr
    ⟨fun t ht => Nat.le_trans (h.parts_start.before t ht) hforward, by simp⟩

/-- Spliced segments are in order inside the text. -/
theorem Spliced.within {rest out : List Char} (h : Spliced position rest segments out) :
    Within position (position + byteSize rest) segments := by
  induction h with
  | nil position rest => exact within_nil _ _
  | @cons position s segments gap old rest out hstart hstop h ih =>
    have hend : s.span.stop + byteSize rest = position + byteSize (gap ++ (old ++ rest)) := by
      rw [byteSize_append, byteSize_append]
      omega
    rw [hend] at ih
    exact within_cons.mpr ⟨by omega, by omega, by omega, ih⟩

/-! ## Bytes with segments replaced -/

/-- The bytes `rest`, which start at byte `position` of a whole, with segments of the whole replaced. -/
def rewritten (position : Nat) (rest : List UInt8) : List (Segment Nat) → List UInt8
  | [] => rest
  | s :: segments =>
    rest.take (s.span.start - position) ++
      (bytes s.value.toList ++
        rewritten s.span.stop (rest.drop (s.span.stop - position)) segments)

/-- **A splice has the bytes of the text with the segments replaced.** -/
theorem Spliced.bytes_eq {rest out : List Char} (h : Spliced position rest segments out) :
    bytes out = rewritten position (bytes rest) segments := by
  induction h with
  | nil => rfl
  | @cons position s segments gap old rest out hstart hstop h ih =>
    have htake : (bytes (gap ++ (old ++ rest))).take (s.span.start - position) = bytes gap := by
      rw [bytes_append]
      refine List.take_left' ?_
      rw [length_bytes]
      omega
    have hdrop : (bytes (gap ++ (old ++ rest))).drop (s.span.stop - position) = bytes rest := by
      rw [← List.append_assoc, bytes_append]
      refine List.drop_left' ?_
      rw [length_bytes, byteSize_append]
      omega
    rw [rewritten, htake, hdrop, bytes_append, bytes_append, ih]

theorem bytes_of_splice {text out : String} (h : splice text segments = .ok out) :
    bytes out.toList = rewritten 0 (bytes text.toList) segments :=
  (spliced_of_splice h).bytes_eq

theorem within_of_splice {text out : String} (h : splice text segments = .ok out) :
    Within 0 text.utf8ByteSize segments := by
  have hwithin := (spliced_of_splice h).within
  rwa [Nat.zero_add, byteSize_toList] at hwithin

/-! ## Lengths -/

/-- The bytes that segments replace. -/
def removed (segments : List (Segment Nat)) : Nat :=
  (segments.map fun s => s.span.stop - s.span.start).sum

/-- The bytes that segments bring. -/
def added (segments : List (Segment Nat)) : Nat :=
  (segments.map fun s => s.value.utf8ByteSize).sum

theorem removed_cons (s : Segment Nat) (segments : List (Segment Nat)) :
    removed (s :: segments) = s.span.stop - s.span.start + removed segments := rfl

theorem added_cons (s : Segment Nat) (segments : List (Segment Nat)) :
    added (s :: segments) = s.value.utf8ByteSize + added segments := rfl

/-- **What is removed and what is added account for the length.** -/
theorem length_rewritten {rest : List UInt8} (h : Within position stop segments)
    (hrest : position + rest.length = stop) :
    (rewritten position rest segments).length + removed segments = rest.length + added segments := by
  induction segments generalizing position rest with
  | nil => rfl
  | cons s segments ih =>
    obtain ⟨hstart, hforward, hstop, h⟩ := within_cons.mp h
    have hrest : s.span.stop + (rest.drop (s.span.stop - position)).length = stop := by
      rw [List.length_drop]
      omega
    have hlength := ih h hrest
    rw [rewritten, List.length_append, List.length_append, List.length_take, length_bytes_toList,
      removed_cons, added_cons]
    omega

/-- Segments remove no more than what lies between their bounds. -/
theorem Within.removed_le (h : Within start stop segments) (hle : start ≤ stop) :
    start + removed segments ≤ stop := by
  induction segments generalizing start with
  | nil => exact hle
  | cons s segments ih =>
    obtain ⟨hstart, hforward, hstop, h⟩ := within_cons.mp h
    have := ih h hstop
    rw [removed_cons]
    omega

/-! ## Two sides of a position -/

/-- **Segments on two sides of a position rewrite the two sides.** -/
theorem rewritten_append {rest : List UInt8} (h : Within position stop (left ++ right))
    (hrest : position + rest.length = stop) (hcut : position ≤ cut) (hparts : Parts cut left right) :
    rewritten position rest (left ++ right) =
      rewritten position (rest.take (cut - position)) left ++
        rewritten cut (rest.drop (cut - position)) right := by
  induction left generalizing position rest with
  | nil =>
    rw [List.nil_append, rewritten]
    cases right with
    | nil => exact (List.take_append_drop _ rest).symm
    | cons s right =>
      obtain ⟨-, hforward, -, -⟩ := within_cons.mp h
      have hstart := hparts.behind s List.mem_cons_self
      have hgap : s.span.start - position = cut - position + (s.span.start - cut) := by omega
      have hold : s.span.stop - position = cut - position + (s.span.stop - cut) := by omega
      rw [rewritten, rewritten, hgap, hold, List.take_add, List.append_assoc, List.drop_drop]
  | cons s left ih =>
    obtain ⟨hstart, hforward, hstop, h⟩ := within_cons.mp h
    obtain ⟨hs, hleft⟩ := List.forall_mem_cons.mp hparts.before
    have hlength : s.span.stop + (rest.drop (s.span.stop - position)).length = stop := by
      rw [List.length_drop]
      omega
    have hgap : min (s.span.start - position) (cut - position) = s.span.start - position := by omega
    have htake : cut - position - (s.span.stop - position) = cut - s.span.stop := by omega
    have hdrop : s.span.stop - position + (cut - s.span.stop) = cut - position := by omega
    rw [List.cons_append, rewritten, ih h hlength hs ⟨hleft, hparts.behind⟩, rewritten,
      List.take_take, hgap, List.drop_take, htake, List.drop_drop, hdrop]
    simp only [List.append_assoc]

end Segment

end Retrace
