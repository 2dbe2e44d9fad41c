import Retrace.Proofs.CodePane
import Retrace.Proofs.Positions

/-!
# The source pane

The pane works on one line at a time. It takes from the range of the statement the part of the line that
the range covers: from the start's column on the first line, to the end's column on the last one, and the
whole line between. Columns count bytes, characters are shaded by their number, and the line has lost the
carriage return at its end. All the same, over the lines of the page this is the byte span of the range,
unless that was found by a sum which no machine word holds: the pane takes no such sum.

* `charIndex_byteSize`: the number of characters before a column, as far as the line is displayed.
* `coveredChars_contains_iff`: the part of a line that a range covers is what the byte span holds of it.
* `sourcePane_spec`: the pane shades the byte span of the statement and marks the line where it starts.
* `sourcePane_columnBeyond`: a statement for which it does not shade the span.
-/

namespace Retrace

open Text Viewer LineIndex

/-! ## Columns and characters -/

theorem takeBytes?_append (s t : List Char) : takeBytes? (byteSize s) (s ++ t) = some s := by
  rw [takeBytes?, splitAt?_byteSize, Option.map_some]

/-- **The number of characters before a column**, the line being displayed up to some point. -/
theorem charIndex_byteSize {line l p : List Char} (hp : p <+: line) (hl : l <+: line) :
    charIndex l (byteSize p) = min p.length l.length := by
  unfold charIndex
  rcases List.prefix_or_prefix_of_prefix hp hl with ⟨t, rfl⟩ | ⟨t, rfl⟩
  · have hmin : min (byteSize p) (byteSize (p ++ t)) = byteSize p :=
      Nat.min_eq_left (by rw [byteSize_append]; omega)
    rw [hmin, takeBytes?_append, List.length_append, Nat.min_eq_left (Nat.le_add_right _ _)]
  · have hmin : min (byteSize (l ++ t)) (byteSize l) = byteSize l :=
      Nat.min_eq_right (by rw [byteSize_append]; omega)
    have hwhole := takeBytes?_append l []
    rw [List.append_nil] at hwhole
    rw [hmin, hwhole, List.length_append, Nat.min_eq_right (Nat.le_add_right _ _)]

/-- Whether a column lies at or before a displayed character is told by characters as by bytes. -/
theorem charIndex_le_iff {line l p q : List Char} (hp : p <+: line) (hq : q <+: line)
    (hl : l <+: line) (hlt : q.length < l.length) :
    charIndex l (byteSize p) ≤ q.length ↔ byteSize p ≤ byteSize q := by
  obtain ⟨t, ht⟩ := hp
  obtain ⟨v, hv⟩ := hq
  have heq : p ++ t = q ++ v := ht.trans hv.symm
  rw [charIndex_byteSize ⟨t, ht⟩ hl, byteSize_le_iff_prefix heq, ← length_le_iff_prefix heq]
  omega

/-! ## The part of a line that a range covers -/

section Covered

variable {text before after l : List Char} {c : Char}

/-- **An end of a range and a displayed character**, `s` being what stands before the end and `before`
what stands before the character. On the line of the end the columns decide; another line lies on one side
of it as a whole, and so must the column `whole` that stands for the end there. -/
theorem charIndex_end_le_iff (htext : text = before ++ c :: after) (hc : c ≠ '\n')
    (hline : (displayLines text)[before.count '\n']? = some l)
    (hl : l[(lastLine before).length]? = some c) {s t : List Char} (hs : text = s ++ t) (whole : Nat)
    (hwhole : s.count '\n' ≠ before.count '\n' →
      (charIndex l whole ≤ (lastLine before).length ↔ s.count '\n' < before.count '\n')) :
    charIndex l (if before.count '\n' = s.count '\n' then byteSize (lastLine s) else whole) ≤
      (lastLine before).length ↔ byteSize s ≤ byteSize before := by
  obtain ⟨above, tail, below, -, -, h⟩ := isLine_of_char htext hc
  have hlt : (lastLine before).length < l.length := (List.getElem?_eq_some_iff.mp hl).1
  have horder := byteSize_le_iff_lines (hs.symm.trans htext)
  by_cases heq : before.count '\n' = s.count '\n'
  · rw [if_pos heq, charIndex_le_iff (h.lastLine_prefix hs heq.symm) (List.prefix_append _ _)
      (h.displayed_prefix hline) hlt]
    omega
  · have := hwhole (Ne.symm heq)
    rw [if_neg heq]
    omega

/-- **What a range covers of a line** is what its byte span holds of the line; `s` and `u` stand before
the ends of the range. -/
theorem coveredChars_contains_iff (htext : text = before ++ c :: after) (hc : c ≠ '\n')
    (hline : (displayLines text)[before.count '\n']? = some l)
    (hl : l[(lastLine before).length]? = some c) {s t u v : List Char} (hs : text = s ++ t)
    (hu : text = u ++ v) :
    (∃ start stop, coveredChars ⟨⟨s.count '\n' + 1, byteSize (lastLine s) + 1⟩,
        ⟨u.count '\n' + 1, byteSize (lastLine u) + 1⟩⟩ (before.count '\n' + 1) l =
          some (start, stop) ∧ start ≤ (lastLine before).length ∧
            (lastLine before).length < stop) ↔
      byteSize s ≤ byteSize before ∧ byteSize before < byteSize u := by
  have hlt : (lastLine before).length < l.length := (List.getElem?_eq_some_iff.mp hl).1
  have hnone : charIndex l 0 = 0 := by
    simpa [byteSize] using charIndex_byteSize (List.nil_prefix (l := l)) List.prefix_rfl
  have hall : charIndex l (byteSize l) = l.length := by
    simpa using charIndex_byteSize (List.prefix_rfl (l := l)) List.prefix_rfl
  unfold coveredChars
  simp only [Nat.add_le_add_iff_right, Nat.add_right_cancel_iff, Nat.add_sub_cancel]
  by_cases hlines : s.count '\n' ≤ before.count '\n' ∧ before.count '\n' ≤ u.count '\n'
  · have hstart := charIndex_end_le_iff htext hc hline hl hs 0 fun hne => by omega
    have hstop := charIndex_end_le_iff htext hc hline hl hu (byteSize l) fun hne => by omega
    rw [if_pos hlines, ← hstart, ← Nat.not_le, ← hstop]
    constructor
    · rintro ⟨start, stop, hpart, hle, hbelow⟩
      obtain ⟨rfl, rfl⟩ := Prod.mk.inj (Option.some.inj hpart)
      exact ⟨hle, Nat.not_le.mpr hbelow⟩
    · rintro ⟨hle, hbelow⟩
      exact ⟨_, _, rfl, hle, Nat.not_le.mp hbelow⟩
  · have hsorder := byteSize_le_iff_lines (hs.symm.trans htext)
    have huorder := byteSize_le_iff_lines (hu.symm.trans htext)
    rw [if_neg hlines]
    refine iff_of_false (by simp) ?_
    omega

end Covered

/-- A line with a shade laid over what a range covers of it. -/
theorem getElem?_shadeCovered_styleLine (range : SourceRange) (n : Nat) (l : List Char) (i : Nat) :
    ∃ style : Style,
      (style.IsShaded ↔
        ∃ start stop, coveredChars range n l = some (start, stop) ∧ start ≤ i ∧ i < stop) ∧
      (shadeCovered (some range) n l (styleLine l))[i]? = l[i]?.map fun c => (c, style) := by
  unfold shadeCovered
  rw [Option.bind_some]
  cases coveredChars range n l with
  | none =>
    obtain ⟨style, hnone, hstyled⟩ := getElem?_styleLine l i
    refine ⟨style, iff_of_false (fun hshaded => ?_) (by simp), hstyled⟩
    rw [Style.IsShaded, hnone] at hshaded
    cases hshaded
  | some part =>
    obtain ⟨start, stop⟩ := part
    have hshade : (Style.plain.on Palette.shade).IsShaded := rfl
    obtain ⟨style, hshaded, hstyled⟩ := getElem?_shadeRange_styleLine hshade start stop l i
    refine ⟨style, hshaded.trans ⟨fun hi => ⟨start, stop, rfl, hi⟩, ?_⟩, hstyled⟩
    rintro ⟨_, _, hpart, hi⟩
    cases hpart
    exact hi

/-! ## The source pane -/

/-- The rows that the source pane draws. -/
def sourceRows (f : Frame) (code : String) (statement : Option SourceRange) (scroll : CodeScroll) :
    List (List Run) :=
  codeLines (shadeCovered statement) (statement.map fun r => r.start.line)
    (sourcePane f code statement scroll).2.offset (f.box " Source Code ").pageHeight
    (displayLines code.toList)

theorem fst_sourcePane (f : Frame) (code : String) (statement : Option SourceRange)
    (scroll : CodeScroll) : (sourcePane f code statement scroll).1 =
      drawCode (f.box " Source Code ") (sourceRows f code statement scroll) := rfl

/-- The rows of a code pane shade the byte span of a range whose ends are given by what stands before
them. -/
theorem shadesSpan_shadeCovered {text s t u v : List Char} (hs : text = s ++ t) (hu : text = u ++ v)
    (current : Option Nat) (offset height : Nat) :
    ShadesSpan text ⟨byteSize s, byteSize u⟩ offset height (codeLines
      (shadeCovered (some ⟨⟨s.count '\n' + 1, byteSize (lastLine s) + 1⟩,
        ⟨u.count '\n' + 1, byteSize (lastLine u) + 1⟩⟩)) current offset height
      (displayLines text)) := by
  refine shadesSpan_codeLines (fun n l i hline => ?_) current offset height
  obtain ⟨style, hshaded, hstyled⟩ := getElem?_shadeCovered_styleLine _ (n + 1) l i
  refine ⟨style, hstyled, ?_⟩
  rintro before c after htext hc hl rfl rfl
  exact hshaded.trans (coveredChars_contains_iff htext hc hline hl hs hu)

/-- **The source pane shades the statement.** Let the range of the statement have a byte span in the source,
with both ends between characters and by sums that fit. The rows that are drawn are those of the lines on the page; they carry
the numbers of the lines and mark the one on which the span begins, and of the characters on the page they
shade those of the span and no others. -/
theorem sourcePane_spec {code : String} {range : SourceRange} {span : Span Nat}
    (hspan : (ofText code.toList).offsets? range = some span)
    (hfits : (ofText code.toList).fitsRange range = true)
    (hstart : isBoundary code.toList span.start = true)
    (hstop : isBoundary code.toList span.stop = true) (f : Frame) (scroll : CodeScroll) :
    let pane := sourcePane f code (some range) scroll
    let rows := sourceRows f code (some range) scroll
    let height := (f.box " Source Code ").pageHeight
    pane.1 = drawCode (f.box " Source Code ") rows ∧
    rows.length = min height ((displayLines code.toList).length - pane.2.offset) ∧
    range.start.line = newlinesBefore span.start code.toList + 1 ∧
    NumbersRows range.start.line pane.2.offset rows ∧
    ShadesSpan code.toList span pane.2.offset height rows := by
  obtain ⟨s, t, hs, hsize⟩ := isBoundary_iff.mp hstart
  obtain ⟨u, v, hu, husize⟩ := isBoundary_iff.mp hstop
  obtain ⟨start, stop⟩ := span
  obtain ⟨rfl, -, -⟩ := (offsets?_eq_some_iff_spans hfits).mp hspan
  subst hsize husize
  have hfirst := location_append s t
  have hlast := location_append u v
  rw [← hs] at hfirst
  rw [← hu] at hlast
  intro pane rows height
  refine ⟨fst_sourcePane .., length_codeLines, line_location _ _, numbersRows_codeLines _, ?_⟩
  have hshades := shadesSpan_shadeCovered hs hu
    (some ((ofText code.toList).location (byteSize s)).line) pane.2.offset height
  rw [← hfirst, ← hlast] at hshades
  exact hshades

/-- A call on two lines, with an accented argument and carriage returns. -/
def splitCall : String := "a = f(é,\r\n  1);\r\n"

/-- The call takes eleven bytes; it is marked on the first of its lines and shaded on both. -/
theorem splitCall_sourcePane :
    (ofText splitCall.toList).offsets? ⟨⟨1, 5⟩, ⟨2, 5⟩⟩ = some ⟨4, 15⟩ ∧
    (ofText splitCall.toList).fitsRange ⟨⟨1, 5⟩, ⟨2, 5⟩⟩ = true ∧
    isBoundary splitCall.toList 4 = true ∧ isBoundary splitCall.toList 15 = true ∧
    ∀ (f : Frame) (scroll : CodeScroll),
      let pane := sourcePane f splitCall (some ⟨⟨1, 5⟩, ⟨2, 5⟩⟩) scroll
      let rows := sourceRows f splitCall (some ⟨⟨1, 5⟩, ⟨2, 5⟩⟩) scroll
      NumbersRows 1 pane.2.offset rows ∧
      ShadesSpan splitCall.toList ⟨4, 15⟩ pane.2.offset (f.box " Source Code ").pageHeight rows := by
  have hspan : (ofText splitCall.toList).offsets? ⟨⟨1, 5⟩, ⟨2, 5⟩⟩ = some ⟨4, 15⟩ := by
    decide +kernel
  have hfits : (ofText splitCall.toList).fitsRange ⟨⟨1, 5⟩, ⟨2, 5⟩⟩ = true := by decide +kernel
  have hstart : isBoundary splitCall.toList 4 = true := by decide +kernel
  have hstop : isBoundary splitCall.toList 15 = true := by decide +kernel
  refine ⟨hspan, hfits, hstart, hstop, fun f scroll => ?_⟩
  obtain ⟨-, -, -, hnumbers, hshades⟩ := sourcePane_spec hspan hfits hstart hstop f scroll
  exact ⟨hnumbers, hshades⟩

/-- A span that begins with the second character of the first line is found for a range that begins on the
second line. The pane leaves the first line as it is. -/
theorem sourcePane_columnBeyond :
    (ofText threeLines.toList).offsets? ⟨⟨2, 18446744073709551615⟩, ⟨3, 2⟩⟩ = some ⟨1, 7⟩ ∧
    isBoundary threeLines.toList 1 = true ∧ isBoundary threeLines.toList 7 = true ∧
    ¬ ∀ (f : Frame) (scroll : CodeScroll),
      let pane := sourcePane f threeLines (some ⟨⟨2, 18446744073709551615⟩, ⟨3, 2⟩⟩) scroll
      let rows := sourceRows f threeLines (some ⟨⟨2, 18446744073709551615⟩, ⟨3, 2⟩⟩) scroll
      ShadesSpan threeLines.toList ⟨1, 7⟩ pane.2.offset (f.box " Source Code ").pageHeight rows := by
  refine ⟨by decide, by decide, by decide, fun hall => ?_⟩
  obtain ⟨style, hchar, hshaded⟩ := (hall ⟨20, 5, false⟩ {}).shown ['a'] 'b' "\ncd\nef".toList rfl
    ⟨by decide, by decide⟩ (by decide) (by decide)
  -- the second character of the first line, which the range does not cover
  obtain ⟨style', hcovered, hstyled⟩ := getElem?_shadeCovered_styleLine
    ⟨⟨2, 18446744073709551615⟩, ⟨3, 2⟩⟩ 1 ['a', 'b'] 1
  have hrow : charAt? (sourceRows ⟨20, 5, false⟩ threeLines
      (some ⟨⟨2, 18446744073709551615⟩, ⟨3, 2⟩⟩) {}) 0 1 = some ('b', style') :=
    (charAt?_codeLines_of_lt (by decide)).trans hstyled
  obtain ⟨-, rfl⟩ := Prod.mk.inj (Option.some.inj (hrow.symm.trans hchar))
  obtain ⟨start, stop, hpart, -⟩ := hcovered.mp (hshaded.mpr (by decide))
  cases hpart

end Retrace
