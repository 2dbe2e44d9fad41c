import Retrace.Segment

/-!
# Images of spans

Where a span of a text lies once segments of the text are replaced. A replacement before a point
shifts it by the change in length. A point strictly inside a replaced span moves to that
replacement: a start to its beginning, an end to its end. An insertion exactly at the start of the
span counts as inside it.

Models `transform_span`.

* `Segment.image`: the image of a span of a text.
* `Segment.wordImage`: the same for offsets that are 64-bit words, whether a text reaches them or
  not; below `signBit` the two agree (`wordImage_eq_image`).
-/

namespace Retrace.Segment

/-- Which end of a span a point is. -/
inductive SpanEnd where
  | start
  | stop
  deriving DecidableEq, Repr

/-- The difference that a replacement makes to the length of the text, `place` giving the place of
an offset on the line of integers. -/
def growth (place : Nat → Int) (change : Segment Nat) : Int :=
  (change.value.utf8ByteSize : Int) - place (change.span.stop - change.span.start)

/-- Whether a replacement lies before a point, so that the point moves with the text behind it. -/
def isBefore (change : Segment Nat) (which : SpanEnd) (point : Nat) : Bool :=
  decide (change.span.stop ≤ point) &&
    !(which == .start && change.span.start == point && change.span.stop == point)

/-- The place of a point after replacements, `shift` being what earlier ones moved it by. -/
def imageOfPoint (place : Nat → Int) (which : SpanEnd) (point : Nat) (shift : Int) :
    List (Segment Nat) → Nat
  | [] => (place point + shift).toNat
  | change :: changes =>
    if change.isBefore which point then
      imageOfPoint place which point (shift + change.growth place) changes
    else if change.span.start < point then
      let base := place change.span.start + shift
      match which with
      | .start => base.toNat
      | .stop => (base + change.value.utf8ByteSize).toNat
    else (place point + shift).toNat

/-- The span that a span becomes once the replacements are made, for a reading of offsets. -/
def imageBy (place : Nat → Int) (span : Span Nat) (changes : List (Segment Nat)) : Span Nat :=
  let start := imageOfPoint place .start span.start 0 changes
  ⟨start, max start (imageOfPoint place .stop span.stop 0 changes)⟩

/-- The span that a span of the text becomes once the replacements are made. -/
def image (span : Span Nat) (changes : List (Segment Nat)) : Span Nat :=
  imageBy Int.ofNat span changes

/-- The least 64-bit word with its highest bit set. -/
def signBit : Nat := 0x8000000000000000

/-- The place of a 64-bit word: a word with its highest bit set, which no text reaches, lies below
zero. -/
def wordPlace (offset : Nat) : Int := Int.bmod offset UInt64.size

/-- The image of a span whose ends are 64-bit words; what falls below zero is held at zero. -/
def wordImage (span : Span Nat) (changes : List (Segment Nat)) : Span Nat :=
  imageBy wordPlace span changes

theorem wordPlace_of_lt {n : Nat} (h : n < signBit) : wordPlace n = n := by
  unfold signBit at h
  unfold wordPlace UInt64.size
  rw [Int.bmod_def]
  omega

theorem growth_wordPlace {change : Segment Nat} (h : change.span.stop < signBit) :
    change.growth wordPlace = change.growth Int.ofNat := by
  have hlt : change.span.stop - change.span.start < signBit := by omega
  simp [growth, wordPlace_of_lt hlt]

theorem imageOfPoint_wordPlace (which : SpanEnd) {point : Nat} (h : point < signBit) (shift : Int)
    {changes : List (Segment Nat)}
    (hs : ∀ c ∈ changes, c.span.start < signBit ∧ c.span.stop < signBit) :
    imageOfPoint wordPlace which point shift changes =
      imageOfPoint Int.ofNat which point shift changes := by
  induction changes generalizing shift with
  | nil => simp [imageOfPoint, wordPlace_of_lt h]
  | cons c rest ih =>
    have hc := hs c List.mem_cons_self
    have hr := fun shift => ih shift fun d hd => hs d (List.mem_cons_of_mem c hd)
    simp [imageOfPoint, growth_wordPlace hc.2, hr, wordPlace_of_lt h, wordPlace_of_lt hc.1]

theorem wordImage_eq_image {span : Span Nat} {changes : List (Segment Nat)}
    (h : span.start < signBit ∧ span.stop < signBit)
    (hs : ∀ c ∈ changes, c.span.start < signBit ∧ c.span.stop < signBit) :
    wordImage span changes = image span changes := by
  simp [wordImage, image, imageBy, imageOfPoint_wordPlace .start h.1 0 hs,
    imageOfPoint_wordPlace .stop h.2 0 hs]

end Retrace.Segment
