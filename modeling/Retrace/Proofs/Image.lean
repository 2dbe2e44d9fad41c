import Retrace.Proofs.Splice
import Retrace.Segment.Image

/-!
# Images are positions of the spliced text

The image of a span is worked out from the replacements alone. It is a span of the spliced text all
the same: a point between characters of the text goes to a point between characters of the result.

* `Spliced.exists_imageOfPoint`: the image of a point is the size of a prefix of the result.
* `Spliced.exists_image`: the image of a span cuts the result in three.
-/

namespace Retrace.Segment

open Text

/-- A replacement lies before every point behind it, and before no point in front of its end. -/
theorem stop_le_of_isBefore {change : Segment Nat} {which : SpanEnd} {point : Nat}
    (h : change.isBefore which point = true) : change.span.stop ≤ point := by
  unfold isBefore at h
  rw [Bool.and_eq_true, decide_eq_true_eq] at h
  exact h.1

/-- **The image of a point between characters is such a point of the result.** The result starts at
byte `origin` of the whole result, which `shift` leads to. -/
theorem Spliced.exists_imageOfPoint {position : Nat} {rest out : List Char}
    {changes : List (Segment Nat)} (h : Spliced position rest changes out) (which : SpanEnd)
    {head tail : List Char} (hrest : rest = head ++ tail) {origin : Nat} {shift : Int}
    (hshift : position + shift = origin) :
    ∃ before after, out = before ++ after ∧
      imageOfPoint Int.ofNat which (position + byteSize head) shift changes =
        origin + byteSize before := by
  induction h generalizing head origin shift with
  | nil position rest =>
    refine ⟨head, tail, hrest, ?_⟩
    rw [imageOfPoint]
    simp only [Int.ofNat_eq_natCast]
    omega
  | @cons position change changes gap old rest out hstart hstop h ih =>
    rw [imageOfPoint]
    split
    · -- the point moves with the text behind the replacement
      rename_i hbefore
      have hle := stop_le_of_isBefore hbefore
      have hcut : gap ++ old ++ rest = head ++ tail := by rw [List.append_assoc, hrest]
      obtain ⟨behind, rfl, hbehind⟩ :=
        exists_eq_append hcut (by rw [byteSize_append]; omega)
      have hvalue := byteSize_toList change.value
      have hgrowth : change.span.stop + (shift + change.growth Int.ofNat) =
          ((origin + byteSize gap + byteSize change.value.toList : Nat) : Int) := by
        unfold growth
        simp only [Int.ofNat_eq_natCast]
        omega
      obtain ⟨before, after, rfl, himage⟩ := ih hbehind hgrowth
      refine ⟨gap ++ (change.value.toList ++ before), after, by simp, ?_⟩
      have hpoint : position + byteSize (gap ++ old ++ behind) =
          change.span.stop + byteSize behind := by
        simp only [byteSize_append]
        omega
      rw [hpoint, himage]
      simp only [byteSize_append]
      omega
    · split
      · -- the point snaps to an end of the replacement
        cases which with
        | start =>
          refine ⟨gap, change.value.toList ++ out, rfl, ?_⟩
          simp only [Int.ofNat_eq_natCast]
          omega
        | stop =>
          refine ⟨gap ++ change.value.toList, out, by simp, ?_⟩
          simp only [Int.ofNat_eq_natCast, byteSize_append, byteSize_toList]
          omega
      · -- the point lies in the gap before the replacement
        obtain ⟨behind, rfl, -⟩ := exists_eq_append hrest.symm (by omega)
        refine ⟨head, behind ++ (change.value.toList ++ out), by simp, ?_⟩
        simp only [Int.ofNat_eq_natCast]
        omega

/-- **The image of a span between characters cuts the result in three.** -/
theorem Spliced.exists_image {text out : List Char} {changes : List (Segment Nat)}
    (h : Spliced 0 text changes out) {span : Span Nat} (hstart : isBoundary text span.start = true)
    (hstop : isBoundary text span.stop = true) :
    ∃ before inside after, out = before ++ (inside ++ after) ∧
      (image span changes).start = byteSize before ∧
      (image span changes).stop = byteSize (before ++ inside) := by
  obtain ⟨head, tail, htext, hhead⟩ := isBoundary_iff.mp hstart
  obtain ⟨head', tail', htext', hhead'⟩ := isBoundary_iff.mp hstop
  obtain ⟨before, after, hout, hbefore⟩ := h.exists_imageOfPoint .start htext (Int.add_zero 0)
  obtain ⟨before', after', hout', hbefore'⟩ := h.exists_imageOfPoint .stop htext' (Int.add_zero 0)
  rw [Nat.zero_add, hhead, Nat.zero_add] at hbefore
  rw [Nat.zero_add, hhead', Nat.zero_add] at hbefore'
  unfold image imageBy
  simp only [hbefore, hbefore']
  by_cases hle : byteSize before ≤ byteSize before'
  · obtain ⟨inside, hinside, -⟩ := exists_eq_append (hout.symm.trans hout') hle
    refine ⟨before, inside, after', ?_, rfl, ?_⟩
    · rw [hout', hinside, List.append_assoc]
    · rw [← hinside, Nat.max_eq_right hle]
  · refine ⟨before, [], after, hout, rfl, ?_⟩
    rw [List.append_nil, Nat.max_eq_left (by omega)]

end Retrace.Segment
