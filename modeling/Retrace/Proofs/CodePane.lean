import Retrace.Proofs.DisplayedLines
import Retrace.Proofs.StyledText

/-!
# Rows of a code pane

A code pane shows a page of the lines of a text behind their numbers and shades a part of it. Its rows are
spoken of by their characters, in the places that these have in the text, and by what stands in front of
them.

* `ShadesSpan`: the rows shade a span of the text that they show.
* `NumbersRows`: the rows are numbered, and the current one is marked.
* `shadesSpan_codeLines`, `numbersRows_codeLines`: the rows that a pane is made of.
-/

namespace Retrace

open Text Viewer

/-- The character in place `i` of row `k`, behind the number of the row, with its style. -/
def charAt? (rows : List (List Run)) (k i : Nat) : Option (Char × Style) :=
  rows[k]?.bind fun row => (unruns row.tail)[i]?

/-- The rows of a code pane that shows `height` lines of a text behind the first `offset` ones: of the
characters of the text on these lines those are shaded whose byte offset lies in a span, and they show no
other characters. -/
structure ShadesSpan (text : List Char) (span : Span Nat) (offset height : Nat)
    (rows : List (List Run)) : Prop where
  shown : ∀ before c after, text = before ++ c :: after → IsShown c after →
    offset ≤ before.count '\n' → before.count '\n' < offset + height →
    ∃ style, charAt? rows (before.count '\n' - offset) (lastLine before).length =
        some (c, style) ∧
      (style.IsShaded ↔ span.start ≤ byteSize before ∧ byteSize before < span.stop)
  only : ∀ k i c style, charAt? rows k i = some (c, style) →
    ∃ before after, text = before ++ c :: after ∧ IsShown c after ∧
      before.count '\n' = offset + k ∧ (lastLine before).length = i

/-- The rows of a code pane carry the numbers of their lines and mark the current one. -/
def NumbersRows (current offset : Nat) (rows : List (List Run)) : Prop :=
  ∀ k row, rows[k]? = some row → row.head?.map Run.text =
    some (lineNumber (offset + k + 1) ++ [if current = offset + k + 1 then '▶' else ' ', ' '])

section Rows

variable {shade : Nat → List Char → StyledText → StyledText} {current : Option Nat}
  {offset height : Nat} {lines : List (List Char)} {k i : Nat}

theorem numbersRows_codeLines (current : Nat) :
    NumbersRows current offset (codeLines shade (some current) offset height lines) := by
  intro k row hrow
  rw [getElem?_codeLines, Option.ite_none_right_eq_some] at hrow
  obtain ⟨line, -, rfl⟩ := Option.map_eq_some_iff.mp hrow.2
  by_cases h : current = offset + k + 1 <;> simp [numberedLine, h]

theorem charAt?_codeLines_of_lt (hk : k < height) :
    charAt? (codeLines shade current offset height lines) k i =
      lines[offset + k]?.bind fun line => (shade (offset + k + 1) line (styleLine line))[i]? := by
  rw [charAt?, getElem?_codeLines, if_pos hk, Option.bind_map]
  simp only [Function.comp_def, unruns_tail_numberedLine]

theorem charAt?_codeLines_of_le (hk : height ≤ k) :
    charAt? (codeLines shade current offset height lines) k i = none := by
  rw [charAt?, getElem?_codeLines, if_neg (by omega), Option.bind_none]

/-- There is a row for each line on the page. -/
theorem length_codeLines : (codeLines shade current offset height lines).length =
    min height (lines.length - offset) := by
  rw [codeLines, List.length_map, List.length_take, List.length_drop, List.length_zipIdx]

end Rows

/-- **Rows shade a span** when each displayed line shades what the span holds of it. -/
theorem shadesSpan_codeLines {shade : Nat → List Char → StyledText → StyledText}
    {text : List Char} {span : Span Nat}
    (h : ∀ n l i, (displayLines text)[n]? = some l → ∃ style : Style,
      (shade (n + 1) l (styleLine l))[i]? = l[i]?.map (·, style) ∧
      ∀ before c after, text = before ++ c :: after → c ≠ '\n' → l[i]? = some c →
        n = before.count '\n' → i = (lastLine before).length →
        (style.IsShaded ↔ span.start ≤ byteSize before ∧ byteSize before < span.stop))
    (current : Option Nat) (offset height : Nat) :
    ShadesSpan text span offset height
      (codeLines shade current offset height (displayLines text)) where
  shown before c after htext hshown hle hlt := by
    obtain ⟨line, hline, hc⟩ :=
      (getElem?_displayLines text (before.count '\n') (lastLine before).length c).mpr
        ⟨before, after, htext, hshown, rfl, rfl⟩
    obtain ⟨style, hstyled, hshaded⟩ := h (before.count '\n') line (lastLine before).length hline
    have hk : offset + (before.count '\n' - offset) = before.count '\n' := by omega
    refine ⟨style, ?_, hshaded before c after htext hshown.1 hc rfl rfl⟩
    rw [charAt?_codeLines_of_lt (by omega), hk, hline, Option.bind_some, hstyled, hc,
      Option.map_some]
  only k i c style hchar := by
    by_cases hk : k < height
    · rw [charAt?_codeLines_of_lt hk] at hchar
      obtain ⟨line, hline, hi⟩ := Option.bind_eq_some_iff.mp hchar
      obtain ⟨style', hstyled, -⟩ := h (offset + k) line i hline
      rw [hstyled] at hi
      obtain ⟨d, hd, hpair⟩ := Option.map_eq_some_iff.mp hi
      obtain ⟨rfl, -⟩ := Prod.mk.inj hpair
      exact (getElem?_displayLines text (offset + k) i d).mp ⟨line, hline, hd⟩
    · rw [charAt?_codeLines_of_le (Nat.not_lt.mp hk)] at hchar
      cases hchar

end Retrace
