import Retrace.Proofs.EvaluatedCode
import Retrace.Proofs.Image

/-!
# The mask of the statement

The mask is worked out from the image of the statement's span and from a line index of the text with
values in place. The two fit: where the statement's ends are between characters, so are the ends of
its image, and the mask marks exactly the characters of the image.

* `IsMask`: a mask with one marked line.
* `Marks`: that a mask's line, margin and width are those of a span of a text.
* `maskSpan_eq_ok`: the mask of a span that lies on one line.
* `MaskOutcome`: what can come of a mask; `highlightMask_outcome` says that nothing else can.
* `highlightMask_eq_none_iff`, `exists_of_highlightMask_eq_mask`, `highlightMask_eq_multiLine_iff`,
  `highlightMask_eq_error_iff`: the same, outcome by outcome.
* `Highlighted`: when there is a mask, what it shows, and when there is none.
* `highlightMask_spec`: so it is for a statement with sums that fit machine words.
* `highlightMask_columnBeyond`: a mask of a statement outside the text.
-/

namespace Retrace

open Text Segment

/-! ## Masks -/

/-- A mask with `count` lines, all empty but for `line`, which has `indent` spaces and `width`
blocks. -/
def IsMask (count line indent width : Nat) (block : Char) (mask : List Char) : Prop :=
  0 < line ∧ line ≤ count ∧
    mask = joinLines (List.replicate (line - 1) [] ++
      (List.replicate indent ' ' ++ List.replicate width block) ::
        List.replicate (count - line) [])

/-- A span lies on line `line` of a text, holds `width` characters and has `indent` characters
before it on that line. -/
def Marks (text : List Char) (span : Span Nat) (line indent width : Nat) : Prop :=
  ∃ above margin marked below, text = above ++ (margin ++ (marked ++ below)) ∧
    EndsLine above ∧ '\n' ∉ margin ∧ '\n' ∉ marked ∧ line = above.count '\n' + 1 ∧
    span.start = byteSize (above ++ margin) ∧
    span.stop = byteSize (above ++ margin ++ marked) ∧
    indent = margin.length ∧ width = marked.length

theorem isMask_maskLines {count line : Nat} (hpos : 0 < line) (hle : line ≤ count)
    (indent width : Nat) (block : Char) :
    IsMask count line indent width block (joinLines (maskLines count line indent width block)) := by
  refine ⟨hpos, hle, congrArg joinLines ?_⟩
  refine List.ext_getElem (by simp [maskLines]; omega) fun i hi hi' => ?_
  have hlen : (List.replicate (line - 1) ([] : List Char)).length = line - 1 :=
    List.length_replicate
  simp only [maskLines, List.getElem_map, List.getElem_range]
  by_cases hlt : i < line - 1
  · rw [if_neg (by omega), List.getElem_append_left (by omega), List.getElem_replicate]
  · rw [List.getElem_append_right (by omega)]
    by_cases heq : i + 1 = line
    · have hzero : i - (List.replicate (line - 1) ([] : List Char)).length = 0 := by omega
      rw [if_pos heq]
      simp only [hzero, List.getElem_cons_zero]
    · obtain ⟨k, hk⟩ : ∃ k, i - (List.replicate (line - 1) ([] : List Char)).length = k + 1 :=
        ⟨i - (line - 1) - 1, by omega⟩
      rw [if_neg heq]
      simp only [hk, List.getElem_cons_succ, List.getElem_replicate]

/-! ## The mask of a span -/

/-- What a mask shows of a span between characters that lies on one line. -/
theorem marks_of_parts {before inside after : List Char} {span : Span Nat}
    (hstart : span.start = byteSize before) (hstop : span.stop = byteSize (before ++ inside))
    (hinside : '\n' ∉ inside) :
    Marks (before ++ (inside ++ after)) span (before.count '\n' + 1) (lastLine before).length
      inside.length := by
  obtain ⟨above, hends, habove⟩ := exists_above before
  refine ⟨above, lastLine before, inside, after, ?_, hends, newline_not_mem_lastLine before, hinside,
    ?_, by rw [← habove, hstart], by rw [← habove, hstop], rfl, rfl⟩
  · rw [← List.append_assoc above, ← habove]
  · have hcount : before.count '\n' = above.count '\n' + (lastLine before).count '\n' := by
      rw [← List.count_append, ← habove]
    rw [hcount, List.count_eq_zero.mpr (newline_not_mem_lastLine before), Nat.add_zero]

theorem widthBetween_append (s t u : List Char) :
    widthBetween (s ++ (t ++ u)) (byteSize s) (byteSize (s ++ t)) = t.length := by
  unfold widthBetween
  rw [byteSize_append, slice?_append]
  rfl

/-- The margin reaches from the start of the line to the span. -/
theorem widthBetween_lastLine (before after : List Char) :
    widthBetween (before ++ after) (byteSize before - byteSize (lastLine before))
      (byteSize before) = (lastLine before).length := by
  obtain ⟨above, -, habove⟩ := exists_above before
  have hsize : byteSize before = byteSize above + byteSize (lastLine before) := by
    rw [← byteSize_append, ← habove]
  have hstart : byteSize before - byteSize (lastLine before) = byteSize above := by omega
  have htext : before ++ after = above ++ (lastLine before ++ after) := by
    rw [← List.append_assoc, ← habove]
  rw [hstart, htext, hsize, ← byteSize_append, widthBetween_append]

/-- **The mask of a span on one line.** -/
theorem maskSpan_eq_ok {text : List Char} {span : Span Nat} (block : Char)
    (h : newlinesBefore span.start text = newlinesBefore span.stop text) :
    ∃ mask line indent width, maskSpan text span block = .ok mask ∧
      IsMask (text.count '\n' + 1) line indent width block mask ∧
      ∀ before inside after, text = before ++ (inside ++ after) → span.start = byteSize before →
        span.stop = byteSize (before ++ inside) → Marks text span line indent width := by
  have hline : ((LineIndex.ofText text).location span.start).line =
      ((LineIndex.ofText text).location span.stop).line := by
    rw [LineIndex.line_location, LineIndex.line_location, h]
  unfold maskSpan
  simp only
  rw [if_pos hline]
  refine ⟨_, ((LineIndex.ofText text).location span.start).line,
    widthBetween text (span.start - (((LineIndex.ofText text).location span.start).column - 1))
      span.start, widthBetween text span.start span.stop, rfl, ?_, ?_⟩
  · rw [← length_splitAtNewline, ← LineIndex.lineCount_ofText]
    exact isMask_maskLines (LineIndex.line_location_pos _ _) (LineIndex.line_location_le _ _) _ _
      block
  · rintro before inside after rfl hstart hstop
    have hinside : '\n' ∉ inside := by
      rw [hstart, newlinesBefore_append, hstop, ← List.append_assoc, newlinesBefore_append,
        List.count_append] at h
      exact List.count_eq_zero.mp (by omega)
    rw [hstart, hstop, LineIndex.location_append, Nat.add_sub_cancel, widthBetween_lastLine,
      widthBetween_append]
    exact marks_of_parts hstart hstop hinside

theorem maskSpan_eq_error {text : List Char} {span : Span Nat} (block : Char)
    (h : newlinesBefore span.start text ≠ newlinesBefore span.stop text) :
    maskSpan text span block = .error (.multiLineHighlight (newlinesBefore span.start text + 1)
      (newlinesBefore span.stop text + 1)) := by
  unfold maskSpan
  simp only
  rw [LineIndex.line_location, LineIndex.line_location, if_neg fun heq => h (by omega)]

/-! ## What comes of a mask -/

/-- The range of the statement that is being executed. -/
def statementRange? (steps : List Step) : Option SourceRange :=
  (currentStatement? steps).bind Step.range

/-- The byte span of a range in a text. -/
def byteSpan? (code : String) (range : SourceRange) : Option (Span Nat) :=
  (LineIndex.ofText code.toList).offsets? range

/-- What can come of the mask of a list of steps. -/
inductive MaskOutcome (code : String) (steps : List Step) (block : Char) :
    Except SourceError (Option String) → Prop
  | noStatement (h : statementRange? steps = none) : MaskOutcome code steps block (.ok none)
  | statementOnLines {range : SourceRange} (h : statementRange? steps = some range)
      (hlines : range.start.line ≠ range.stop.line) :
      MaskOutcome code steps block
        (.error (.multiLineHighlight range.start.line range.stop.line))
  | statementOutside {range : SourceRange} (h : statementRange? steps = some range)
      (hline : range.start.line = range.stop.line) (hspan : byteSpan? code range = none) :
      MaskOutcome code steps block (.error (.rangeOutOfBounds range))
  | notEvaluated {range : SourceRange} {span : Span Nat} {e : SourceError}
      (h : statementRange? steps = some range) (hline : range.start.line = range.stop.line)
      (hspan : byteSpan? code range = some span) (he : evaluatedCode code steps = .error e) :
      MaskOutcome code steps block (.error e)
  | imageOnLines {range : SourceRange} {span : Span Nat} {segments : List (Segment Nat)}
      {evaluated : String} (h : statementRange? steps = some range)
      (hline : range.start.line = range.stop.line) (hspan : byteSpan? code range = some span)
      (hsegments : substitutions code steps = .ok segments)
      (hevaluated : evaluatedCode code steps = .ok evaluated)
      (hlines : newlinesBefore (image span segments).start evaluated.toList ≠
        newlinesBefore (image span segments).stop evaluated.toList) :
      MaskOutcome code steps block (.error (.multiLineHighlight
        (newlinesBefore (image span segments).start evaluated.toList + 1)
        (newlinesBefore (image span segments).stop evaluated.toList + 1)))
  | marked {range : SourceRange} {span : Span Nat} {segments : List (Segment Nat)}
      {evaluated mask : String} {line indent width : Nat}
      (h : statementRange? steps = some range)
      (hline : range.start.line = range.stop.line) (hspan : byteSpan? code range = some span)
      (hsegments : substitutions code steps = .ok segments)
      (hevaluated : evaluatedCode code steps = .ok evaluated)
      (himage : newlinesBefore (image span segments).start evaluated.toList =
        newlinesBefore (image span segments).stop evaluated.toList)
      (hmask : IsMask (evaluated.toList.count '\n' + 1) line indent width block mask.toList)
      (hmarks : isBoundary code.toList span.start = true →
        isBoundary code.toList span.stop = true →
          Marks evaluated.toList (image span segments) line indent width) :
      MaskOutcome code steps block (.ok (some mask))

theorem maskStatement_of_evaluated {code evaluated : String} {steps : List Step}
    {range : SourceRange} {span : Span Nat} {segments : List (Segment Nat)} (block : Char)
    (hline : range.start.line = range.stop.line) (hspan : byteSpan? code range = some span)
    (hsegments : substitutions code steps = .ok segments)
    (hevaluated : evaluatedCode code steps = .ok evaluated) :
    maskStatement code steps range block =
      (maskSpan evaluated.toList (image span segments) block).map String.ofList := by
  rw [evaluatedCode_of_substitutions hsegments] at hevaluated
  unfold byteSpan? at hspan
  unfold maskStatement SourceRange.isSingleLine
  rw [if_pos (beq_iff_eq.mpr hline), hspan, hsegments]
  simp only [bind, Except.bind, hevaluated]

theorem maskStatement_of_not_evaluated {code : String} {steps : List Step} {range : SourceRange}
    {span : Span Nat} {e : SourceError} (block : Char)
    (hline : range.start.line = range.stop.line) (hspan : byteSpan? code range = some span)
    (he : evaluatedCode code steps = .error e) :
    maskStatement code steps range block = .error e := by
  unfold byteSpan? at hspan
  unfold maskStatement SourceRange.isSingleLine
  rw [if_pos (beq_iff_eq.mpr hline), hspan]
  simp only
  cases hsegments : substitutions code steps with
  | error e' =>
    unfold evaluatedCode at he
    rw [hsegments] at he
    exact he
  | ok segments =>
    rw [evaluatedCode_of_substitutions hsegments] at he
    simp only [bind, Except.bind, he]

/-- **A mask comes to one of these ends.** -/
theorem highlightMask_outcome (code : String) (steps : List Step) (block : Char) :
    MaskOutcome code steps block (highlightMask code steps block) := by
  unfold highlightMask
  cases hrange : (currentStatement? steps).bind Step.range with
  | none => exact .noStatement hrange
  | some range =>
    simp only
    by_cases hline : range.start.line = range.stop.line
    · cases hspan : byteSpan? code range with
      | none =>
        have hmask : maskStatement code steps range block = .error (.rangeOutOfBounds range) := by
          unfold byteSpan? at hspan
          unfold maskStatement SourceRange.isSingleLine
          rw [if_pos (beq_iff_eq.mpr hline), hspan]
        rw [hmask]
        exact .statementOutside hrange hline hspan
      | some span =>
        cases hevaluated : evaluatedCode code steps with
        | error e =>
          rw [maskStatement_of_not_evaluated block hline hspan hevaluated]
          exact .notEvaluated hrange hline hspan hevaluated
        | ok evaluated =>
          obtain ⟨segments, hsegments, hsplice⟩ := exists_substitutions hevaluated
          rw [maskStatement_of_evaluated block hline hspan hsegments hevaluated]
          by_cases himage : newlinesBefore (image span segments).start evaluated.toList =
              newlinesBefore (image span segments).stop evaluated.toList
          · obtain ⟨mask, line, indent, width, hok, hmask, hmarks⟩ :=
              maskSpan_eq_ok block himage
            rw [hok]
            refine .marked hrange hline hspan hsegments hevaluated himage
              (by rw [String.toList_ofList]; exact hmask) fun hstart hstop => ?_
            obtain ⟨before, inside, after, htext, hbefore, hinside⟩ :=
              (spliced_of_splice hsplice).exists_image hstart hstop
            exact hmarks before inside after htext hbefore hinside
          · rw [maskSpan_eq_error block himage]
            exact .imageOnLines hrange hline hspan hsegments hevaluated himage
    · have hmask : maskStatement code steps range block =
          .error (.multiLineHighlight range.start.line range.stop.line) := by
        unfold maskStatement SourceRange.isSingleLine
        rw [if_neg fun h => hline (beq_iff_eq.mp h)]
      rw [hmask]
      exact .statementOnLines hrange hline

theorem evaluatedCode_ne_multiLineHighlight {code : String} {steps : List Step} {first last : Nat} :
    evaluatedCode code steps ≠ .error (.multiLineHighlight first last) := by
  intro h
  rcases evaluatedCode_error_cases h with ⟨s, -, he⟩ | ⟨start, stop, he⟩
  · exact SourceError.noConfusion he
  · exact SourceError.noConfusion he

theorem image_start_le_stop (span : Span Nat) (changes : List (Segment Nat)) :
    (image span changes).start ≤ (image span changes).stop :=
  Nat.le_max_left _ _

section Outcomes

variable {code : String} {steps : List Step} {block : Char}

theorem highlightMask_eq_none_iff :
    highlightMask code steps block = .ok none ↔ statementRange? steps = none := by
  have key := highlightMask_outcome code steps block
  generalize highlightMask code steps block = result at key ⊢
  constructor
  · rintro rfl
    cases key
    assumption
  · intro h
    cases key <;> simp_all

/-- A mask marks the image of the statement. -/
theorem exists_of_highlightMask_eq_mask {mask : String}
    (h : highlightMask code steps block = .ok (some mask)) :
    ∃ range span segments evaluated line indent width, statementRange? steps = some range ∧
      byteSpan? code range = some span ∧ substitutions code steps = .ok segments ∧
      evaluatedCode code steps = .ok evaluated ∧
      IsMask (evaluated.toList.count '\n' + 1) line indent width block mask.toList ∧
      (isBoundary code.toList span.start = true → isBoundary code.toList span.stop = true →
        Marks evaluated.toList (image span segments) line indent width) := by
  have key := highlightMask_outcome code steps block
  rw [h] at key
  cases key with
  | marked hrange _ hspan hsegments hevaluated _ hmask hmarks =>
    exact ⟨_, _, _, _, _, _, _, hrange, hspan, hsegments, hevaluated, hmask, hmarks⟩

/-- There are two ways to lie on several lines. -/
theorem highlightMask_eq_multiLine_iff {first last : Nat} :
    highlightMask code steps block = .error (.multiLineHighlight first last) ↔
      ∃ range, statementRange? steps = some range ∧
        ((range.start.line ≠ range.stop.line ∧ first = range.start.line ∧
            last = range.stop.line) ∨
          (range.start.line = range.stop.line ∧ ∃ span segments evaluated,
            byteSpan? code range = some span ∧ substitutions code steps = .ok segments ∧
              evaluatedCode code steps = .ok evaluated ∧
              first = newlinesBefore (image span segments).start evaluated.toList + 1 ∧
              last = newlinesBefore (image span segments).stop evaluated.toList + 1 ∧
              first ≠ last)) := by
  have key := highlightMask_outcome code steps block
  generalize highlightMask code steps block = result at key ⊢
  constructor
  · rintro rfl
    cases key with
    | statementOnLines h hlines => exact ⟨_, h, .inl ⟨hlines, rfl, rfl⟩⟩
    | notEvaluated h hline hspan he => exact absurd he evaluatedCode_ne_multiLineHighlight
    | imageOnLines h hline hspan hsegments hevaluated hlines =>
      exact ⟨_, h, .inr ⟨hline, _, _, _, hspan, hsegments, hevaluated, rfl, rfl, by omega⟩⟩
  · rintro ⟨range, h, ⟨hlines, rfl, rfl⟩ |
      ⟨hline, span, segments, evaluated, hspan, hsegments, hevaluated, rfl, rfl, hne⟩⟩
    · cases key <;> simp_all
    · cases key <;> simp_all

/-- All other errors are those of the range and of the evaluated text. -/
theorem highlightMask_eq_error_iff {e : SourceError}
    (he : ∀ first last, e ≠ .multiLineHighlight first last) :
    highlightMask code steps block = .error e ↔
      ∃ range, statementRange? steps = some range ∧ range.start.line = range.stop.line ∧
        ((byteSpan? code range = none ∧ e = .rangeOutOfBounds range) ∨
          ((∃ span, byteSpan? code range = some span) ∧ evaluatedCode code steps = .error e)) := by
  have key := highlightMask_outcome code steps block
  generalize highlightMask code steps block = result at key ⊢
  constructor
  · rintro rfl
    cases key with
    | statementOnLines => exact absurd rfl (he _ _)
    | statementOutside h hline hspan => exact ⟨_, h, hline, .inl ⟨hspan, rfl⟩⟩
    | notEvaluated h hline hspan hevaluated => exact ⟨_, h, hline, .inr ⟨⟨_, hspan⟩, hevaluated⟩⟩
    | imageOnLines => exact absurd rfl (he _ _)
  · rintro ⟨range, h, hline, ⟨hspan, rfl⟩ | ⟨⟨span, hspan⟩, hevaluated⟩⟩
    · cases key <;> simp_all
    · cases key <;> simp_all

end Outcomes

/-- What a mask of a list of steps is, and when there is none. -/
structure Highlighted (code : String) (steps : List Step) (block : Char)
    (result : Except SourceError (Option String)) : Prop where
  /-- There is nothing to mark exactly when no statement with a range is being executed. -/
  none_iff : result = .ok none ↔ statementRange? steps = none
  /-- A mask has one line for each line of the evaluated text and marks the image of the statement
  there, if the statement's ends are between characters. -/
  mask : ∀ mask, result = .ok (some mask) →
    ∃ range span segments evaluated line indent width, statementRange? steps = some range ∧
      LineIndex.Spans code.toList range span ∧ substitutions code steps = .ok segments ∧
      evaluatedCode code steps = .ok evaluated ∧
      IsMask (evaluated.toList.count '\n' + 1) line indent width block mask.toList ∧
      (isBoundary code.toList span.start = true → isBoundary code.toList span.stop = true →
        Marks evaluated.toList (image span segments) line indent width)
  /-- A statement or an image on several lines is an error. -/
  multiLine_iff : ∀ first last, result = .error (.multiLineHighlight first last) ↔
    ∃ range, statementRange? steps = some range ∧
      ((range.start.line ≠ range.stop.line ∧ first = range.start.line ∧ last = range.stop.line) ∨
        (range.start.line = range.stop.line ∧ ∃ span segments evaluated,
          LineIndex.Spans code.toList range span ∧ substitutions code steps = .ok segments ∧
            evaluatedCode code steps = .ok evaluated ∧
            first = newlinesBefore (image span segments).start evaluated.toList + 1 ∧
            last = newlinesBefore (image span segments).stop evaluated.toList + 1 ∧
            first ≠ last))
  /-- The other errors are a statement outside the text and those of the evaluated text. -/
  error_iff : ∀ e, (∀ first last, e ≠ .multiLineHighlight first last) →
    (result = .error e ↔
      ∃ range, statementRange? steps = some range ∧ range.start.line = range.stop.line ∧
        (((¬ ∃ span, LineIndex.Spans code.toList range span) ∧ e = .rangeOutOfBounds range) ∨
          ((∃ span, LineIndex.Spans code.toList range span) ∧ evaluatedCode code steps = .error e)))
  /-- No difference of offsets on the way is negative. -/
  forward : ∀ span segments, (image span segments).start ≤ (image span segments).stop
  margin : ∀ text offset, 1 ≤ ((LineIndex.ofText text).location offset).column ∧
    ((LineIndex.ofText text).location offset).column - 1 ≤ offset

/-- **The mask of the statement**, for a statement with sums that fit machine words. -/
theorem highlightMask_spec {code : String} {steps : List Step} (block : Char)
    (hfits : ∀ range, statementRange? steps = some range →
      (LineIndex.ofText code.toList).fitsRange range = true) :
    Highlighted code steps block (highlightMask code steps block) := by
  have hspans {range : SourceRange} (h : statementRange? steps = some range) {span : Span Nat} :
      byteSpan? code range = some span ↔ LineIndex.Spans code.toList range span :=
    LineIndex.offsets?_eq_some_iff_spans (hfits range h)
  have hnone {range : SourceRange} (h : statementRange? steps = some range) :
      byteSpan? code range = none ↔ ¬ ∃ span, LineIndex.Spans code.toList range span := by
    simp only [← hspans h, not_exists, Option.eq_none_iff_forall_ne_some, ne_eq]
  exact {
    none_iff := highlightMask_eq_none_iff
    mask := fun mask h => by
      obtain ⟨range, span, segments, evaluated, line, indent, width, hrange, hspan, hmarked⟩ :=
        exists_of_highlightMask_eq_mask h
      exact ⟨range, span, segments, evaluated, line, indent, width, hrange,
        (hspans hrange).mp hspan, hmarked⟩
    multiLine_iff := fun first last => highlightMask_eq_multiLine_iff.trans <|
      exists_congr fun range => and_congr_right fun h => by simp only [hspans h]
    error_iff := fun e he => (highlightMask_eq_error_iff he).trans <|
      exists_congr fun range => and_congr_right fun h => by simp only [hspans h, hnone h]
    forward := image_start_le_stop
    margin := fun text offset => by
      have := LineIndex.column_location_le (LineIndex.ofText text) offset
      exact ⟨LineIndex.column_location_pos _ _, by omega⟩ }

/-- The statement `x + y`, of which the last summand has been evaluated. -/
def summandSteps : List Step :=
  [{ action := .statement, range := some ⟨⟨1, 1⟩, ⟨1, 6⟩⟩ },
    { action := .eval, range := some ⟨⟨1, 5⟩, ⟨1, 6⟩⟩, value := some ⟨"int", .int 13⟩ }]

/-- The mask grows with the value. -/
theorem summandSteps_highlightMask :
    (∀ range, statementRange? summandSteps = some range →
      (LineIndex.ofText "x + y".toList).fitsRange range = true) ∧
    highlightMask "x + y" summandSteps '#' = .ok (some "######") ∧
    ∃ line indent width, IsMask 1 line indent width '#' "######".toList ∧
      Marks "x + 13".toList ⟨0, 6⟩ line indent width := by
  have hrange : statementRange? summandSteps = some ⟨⟨1, 1⟩, ⟨1, 6⟩⟩ := by decide
  have hfits : ∀ range, statementRange? summandSteps = some range →
      (LineIndex.ofText "x + y".toList).fitsRange range = true := by
    rw [hrange]
    rintro range ⟨⟩
    decide
  have hok : highlightMask "x + y" summandSteps '#' = .ok (some "######") := by decide +kernel
  obtain ⟨range, span, segments, evaluated, line, indent, width, hstatement, hspans, hsegments,
    hevaluated, hmask, hmarks⟩ := (highlightMask_spec '#' hfits).mask _ hok
  obtain rfl := Option.some.inj (hrange.symm.trans hstatement)
  have hspan : byteSpan? "x + y" ⟨⟨1, 1⟩, ⟨1, 6⟩⟩ = some ⟨0, 5⟩ := by decide
  obtain rfl : (⟨0, 5⟩ : Span Nat) = span := Option.some.inj (hspan.symm.trans
    ((LineIndex.offsets?_eq_some_iff_spans (hfits _ hrange)).mpr hspans))
  obtain rfl : [⟨⟨4, 5⟩, "13"⟩] = segments := Except.ok.inj
    ((by decide +kernel : _ = substitutions "x + y" summandSteps).trans hsegments)
  obtain rfl : "x + 13" = evaluated := Except.ok.inj
    ((by decide +kernel : _ = evaluatedCode "x + y" summandSteps).trans hevaluated)
  exact ⟨hfits, hok, line, indent, width, hmask, hmarks (by decide) (by decide)⟩

/-- A statement in the last two columns that there are of the second line. -/
def columnBeyondStatement : List Step :=
  [{ action := .statement,
     range := some ⟨⟨2, 18446744073709551614⟩, ⟨2, 18446744073709551615⟩⟩ }]

/-- It lies outside the text, and yet there is a mask, on the first line. -/
theorem highlightMask_columnBeyond :
    statementRange? columnBeyondStatement =
      some ⟨⟨2, 18446744073709551614⟩, ⟨2, 18446744073709551615⟩⟩ ∧
    ¬ LineIndex.IsPosition LineIndex.threeLines.toList ⟨2, 18446744073709551614⟩ ∧
    highlightMask LineIndex.threeLines columnBeyondStatement '#' = .ok (some "#\n\n") :=
  ⟨by decide, LineIndex.not_isPosition_threeLines (by decide), by decide +kernel⟩

end Retrace
