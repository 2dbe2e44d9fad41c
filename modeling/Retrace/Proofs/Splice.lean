import Retrace.Proofs.Text
import Retrace.Segment.Splice

/-!
# What a splice gives

A text with segments replaced is the text's own gaps, unchanged and in order, with the values
between them.

* `Spliced`: that a text is another one with segments replaced.
* `misfit?`: the first segment that is reversed, starts before its predecessor ends, or has an end
  that is no boundary of the text.
* `spliceFrom_spec`: splicing fails with the first misfit, and with nothing else.
* `InOrder.misfit?_eq_find?`: segments in order can only fail at an end inside a character.
* `Spliced.replaceEach?`: replacing segment by segment, from the last to the first, gives the same
  text.
-/

namespace Retrace.Segment

open Text

/-- `out` is `rest`, which starts at byte `position` of a whole, with segments of the whole
replaced. -/
inductive Spliced : Nat → List Char → List (Segment Nat) → List Char → Prop
  | nil (position : Nat) (rest : List Char) : Spliced position rest [] rest
  | cons {position : Nat} {s : Segment Nat} {segments : List (Segment Nat)}
      {gap old rest out : List Char} (hstart : s.span.start = position + byteSize gap)
      (hstop : s.span.stop = s.span.start + byteSize old)
      (h : Spliced s.span.stop rest segments out) :
      Spliced position (gap ++ (old ++ rest)) (s :: segments) (gap ++ (s.value.toList ++ out))

/-- A segment may be replaced behind byte `position` of a text. -/
def Fits (text : List Char) (position : Nat) (s : Segment Nat) : Prop :=
  position ≤ s.span.start ∧ s.span.start ≤ s.span.stop ∧
    isBoundary text s.span.start = true ∧ isBoundary text s.span.stop = true

instance (text : List Char) (position : Nat) (s : Segment Nat) : Decidable (Fits text position s) :=
  inferInstanceAs (Decidable (_ ∧ _ ∧ _ ∧ _))

/-- The first segment that cannot be replaced behind the one before it. -/
def misfit? (text : List Char) (position : Nat) : List (Segment Nat) → Option (Segment Nat)
  | [] => none
  | s :: segments =>
    if Fits text position s then misfit? text s.span.stop segments else some s

/-! ## One segment -/

theorem Fits.exists_parts {before rest : List Char} {s : Segment Nat}
    (h : Fits (before ++ rest) (byteSize before) s) :
    ∃ gap old tail, rest = gap ++ (old ++ tail) ∧
      s.span.start = byteSize before + byteSize gap ∧
      s.span.stop = s.span.start + byteSize old := by
  obtain ⟨hposition, horder, hstart, hstop⟩ := h
  obtain ⟨o, ho⟩ := Nat.exists_eq_add_of_le hposition
  rw [ho, isBoundary_append] at hstart
  obtain ⟨gap, rest', rfl, rfl⟩ := isBoundary_iff.mp hstart
  obtain ⟨w, hw⟩ := Nat.exists_eq_add_of_le horder
  rw [hw, ho, ← byteSize_append, ← List.append_assoc, isBoundary_append] at hstop
  obtain ⟨old, tail, rfl, rfl⟩ := isBoundary_iff.mp hstop
  exact ⟨gap, old, tail, rfl, ho, hw⟩

theorem spliceFrom_cons {position : Nat} {s : Segment Nat} {gap old : List Char}
    (hstart : s.span.start = position + byteSize gap)
    (hstop : s.span.stop = s.span.start + byteSize old) (tail : List Char)
    (segments : List (Segment Nat)) :
    spliceFrom position (gap ++ (old ++ tail)) (s :: segments) =
      (spliceFrom s.span.stop tail segments).map fun out => gap ++ (s.value.toList ++ out) := by
  obtain ⟨⟨start, stop⟩, value⟩ := s
  simp only at hstart hstop
  have horder : position ≤ start ∧ start ≤ stop := ⟨by omega, by omega⟩
  have hgap : start - position = byteSize gap := by omega
  have hold : stop - start = byteSize old := by omega
  rw [spliceFrom, if_pos horder, hgap, splitAt?_byteSize]
  simp only [hold, splitAt?_byteSize]

theorem spliceFrom_cons_of_not_fits {before rest : List Char} {s : Segment Nat}
    (h : ¬ Fits (before ++ rest) (byteSize before) s) (segments : List (Segment Nat)) :
    spliceFrom (byteSize before) rest (s :: segments) =
      .error (.segmentOutOfBounds s.span.start s.span.stop) := by
  obtain ⟨⟨start, stop⟩, value⟩ := s
  rw [spliceFrom]
  split
  · rename_i horder
    cases hgap : splitAt? (start - byteSize before) rest with
    | none => rfl
    | some cut =>
      obtain ⟨gap, tail⟩ := cut
      simp only
      cases hold : splitAt? (stop - start) tail with
      | none => rfl
      | some cut =>
        -- both cuts exist, so the segment fits after all
        obtain ⟨old, tail'⟩ := cut
        obtain ⟨rfl, hgap⟩ := append_of_splitAt? hgap
        obtain ⟨rfl, hold⟩ := append_of_splitAt? hold
        refine absurd ⟨horder.1, horder.2, ?_, ?_⟩ h
        · refine isBoundary_iff.mpr ⟨before ++ gap, old ++ tail', by simp, ?_⟩
          simp only [byteSize_append]
          omega
        · refine isBoundary_iff.mpr ⟨before ++ gap ++ old, tail', by simp, ?_⟩
          simp only [byteSize_append]
          omega
  · rfl

/-! ## All segments -/

/-- Splicing gives the text with all segments replaced, or else fails with the first misfit. -/
theorem spliceFrom_spec (before rest : List Char) (segments : List (Segment Nat)) :
    match misfit? (before ++ rest) (byteSize before) segments with
    | none => ∃ out, spliceFrom (byteSize before) rest segments = .ok out ∧
        Spliced (byteSize before) rest segments out
    | some s => spliceFrom (byteSize before) rest segments =
        .error (.segmentOutOfBounds s.span.start s.span.stop) := by
  induction segments generalizing before rest with
  | nil => exact ⟨rest, rfl, Spliced.nil _ rest⟩
  | cons s segments ih =>
    rw [misfit?]
    by_cases hfits : Fits (before ++ rest) (byteSize before) s
    · obtain ⟨gap, old, tail, rfl, hstart, hstop⟩ := hfits.exists_parts
      have hsize : s.span.stop = byteSize (before ++ gap ++ old) := by
        rw [byteSize_append, byteSize_append]
        omega
      have htext : before ++ (gap ++ (old ++ tail)) = before ++ gap ++ old ++ tail := by simp
      have hrest := ih (before ++ gap ++ old) tail
      rw [if_pos hfits, spliceFrom_cons hstart hstop, htext, hsize]
      cases hmisfit : misfit? (before ++ gap ++ old ++ tail) (byteSize (before ++ gap ++ old))
          segments with
      | none =>
        rw [hmisfit] at hrest
        obtain ⟨out, hout, hspliced⟩ := hrest
        rw [← hsize] at hspliced
        exact ⟨gap ++ (s.value.toList ++ out), by rw [hout]; rfl,
          Spliced.cons hstart hstop hspliced⟩
      | some t =>
        rw [hmisfit] at hrest
        simp only at hrest ⊢
        rw [hrest]
        rfl
    · rw [if_neg hfits]
      exact spliceFrom_cons_of_not_fits hfits segments

theorem splice_of_misfit?_eq_none {text : String} {segments : List (Segment Nat)}
    (h : misfit? text.toList 0 segments = none) :
    ∃ out, splice text segments = .ok out ∧ Spliced 0 text.toList segments out.toList := by
  have hspec := spliceFrom_spec [] text.toList segments
  rw [List.nil_append, byteSize, h] at hspec
  obtain ⟨out, hout, hspliced⟩ := hspec
  refine ⟨String.ofList out, ?_, by rw [String.toList_ofList]; exact hspliced⟩
  rw [splice, hout]
  rfl

/-- **Splicing fails with the first misfit.** -/
theorem splice_of_misfit?_eq_some {text : String} {segments : List (Segment Nat)} {s : Segment Nat}
    (h : misfit? text.toList 0 segments = some s) :
    splice text segments = .error (.segmentOutOfBounds s.span.start s.span.stop) := by
  have hspec := spliceFrom_spec [] text.toList segments
  rw [List.nil_append, byteSize, h] at hspec
  rw [splice, hspec]
  rfl

theorem exists_of_splice_eq_error {text : String} {segments : List (Segment Nat)} {e : SourceError}
    (h : splice text segments = .error e) : ∃ s, misfit? text.toList 0 segments = some s ∧
      e = .segmentOutOfBounds s.span.start s.span.stop := by
  cases hmisfit : misfit? text.toList 0 segments with
  | none =>
    obtain ⟨out, hout, -⟩ := splice_of_misfit?_eq_none hmisfit
    rw [hout] at h
    cases h
  | some s =>
    rw [splice_of_misfit?_eq_some hmisfit] at h
    exact ⟨s, rfl, (Except.error.inj h).symm⟩

/-- **A splice replaces the segments and keeps all else.** -/
theorem spliced_of_splice {text out : String} {segments : List (Segment Nat)}
    (h : splice text segments = .ok out) : Spliced 0 text.toList segments out.toList := by
  cases hmisfit : misfit? text.toList 0 segments with
  | none =>
    obtain ⟨out', hout, hspliced⟩ := splice_of_misfit?_eq_none hmisfit
    rw [h] at hout
    obtain rfl := Except.ok.inj hout
    exact hspliced
  | some s =>
    rw [splice_of_misfit?_eq_some hmisfit] at h
    exact absurd h (by simp)

/-! ## Segments in order -/

/-- Segments that are not reversed, each behind the one before it. -/
structure InOrder (segments : List (Segment Nat)) : Prop where
  apart : segments.Pairwise fun s t => s.span.stop ≤ t.span.start
  forward : ∀ s ∈ segments, s.span.start ≤ s.span.stop

/-- Both ends of a segment are boundaries of a text. -/
def onBoundaries (text : List Char) (s : Segment Nat) : Bool :=
  isBoundary text s.span.start && isBoundary text s.span.stop

/-- **Among segments in order only an end inside a character is a misfit.** -/
theorem InOrder.misfit?_eq_find? {segments : List (Segment Nat)} (h : InOrder segments)
    (text : List Char) {position : Nat} (hposition : ∀ s ∈ segments, position ≤ s.span.start) :
    misfit? text position segments = segments.find? fun s => !s.onBoundaries text := by
  induction segments generalizing position with
  | nil => rfl
  | cons s segments ih =>
    obtain ⟨hlater, hapart⟩ := List.pairwise_cons.mp h.apart
    have hrest : InOrder segments := ⟨hapart, fun t ht => h.forward t (List.mem_cons_of_mem s ht)⟩
    have hfits : Fits text position s ↔ s.onBoundaries text = true := by
      unfold Fits onBoundaries
      rw [Bool.and_eq_true]
      exact ⟨fun hfits => hfits.2.2, fun hends =>
        ⟨hposition s List.mem_cons_self, h.forward s List.mem_cons_self, hends⟩⟩
    rw [misfit?, List.find?_cons]
    by_cases hends : s.onBoundaries text = true
    · rw [if_pos (hfits.mpr hends), ih hrest hlater, hends]
      rfl
    · rw [if_neg fun hf => hends (hfits.mp hf), Bool.eq_false_iff.mpr hends]
      rfl

/-! ## One replacement at a time -/

/-- The text with one segment replaced, when its ends are boundaries in order. -/
def replace? (text : List Char) (s : Segment Nat) : Option (List Char) :=
  if s.span.start ≤ s.span.stop then
    (takeBytes? s.span.start text).bind fun before =>
      (splitAt? s.span.stop text).map fun (_, after) => before ++ (s.value.toList ++ after)
  else none

/-- The text with segments replaced one at a time, the last one first. -/
def replaceEach? (text : List Char) : List (Segment Nat) → Option (List Char)
  | [] => some text
  | s :: segments => (replaceEach? text segments).bind fun text => replace? text s

theorem replace?_append {s : Segment Nat} {before old : List Char}
    (hstart : s.span.start = byteSize before) (hstop : s.span.stop = s.span.start + byteSize old)
    (after : List Char) :
    replace? (before ++ (old ++ after)) s = some (before ++ (s.value.toList ++ after)) := by
  have hsize : s.span.stop = byteSize (before ++ old) := by rw [byteSize_append, ← hstart, hstop]
  have htext : before ++ (old ++ after) = before ++ old ++ after := by simp
  unfold replace? takeBytes?
  rw [if_pos (by omega), hstart, splitAt?_byteSize, hsize, htext, splitAt?_byteSize]
  rfl

/-- **Replacing from the last segment to the first gives the spliced text.** -/
theorem Spliced.replaceEach? {position : Nat} {rest out : List Char}
    {segments : List (Segment Nat)} (h : Spliced position rest segments out) (before : List Char)
    (hbefore : byteSize before = position) :
    replaceEach? (before ++ rest) segments = some (before ++ out) := by
  induction h generalizing before with
  | nil => rfl
  | @cons position s segments gap old rest out hstart hstop h ih =>
    have hsize : byteSize (before ++ gap ++ old) = s.span.stop := by
      rw [byteSize_append, byteSize_append]
      omega
    have htext : before ++ (gap ++ (old ++ rest)) = before ++ gap ++ old ++ rest := by simp
    rw [Segment.replaceEach?, htext, ih _ hsize, Option.bind_some, List.append_assoc _ old,
      replace?_append (by rw [byteSize_append]; omega) hstop, List.append_assoc before]

end Retrace.Segment
