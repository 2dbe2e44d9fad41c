import Mathlib.Data.List.TakeWhile
import Retrace.Proofs.CodePane
import Retrace.Proofs.HighlightMask

/-!
# The evaluated pane

The pane gets the mask of the statement as a text and reads the marked part back from it: blanks, then
blocks. That gives the line, the margin and the width again unless the block is a blank or a newline
itself, which are read as margin and as the end of a line. The part that is shaded then is the image of
the statement, character by character.

* `maskRanges_of_isMask`: what is read from a mask with one marked line.
* `Marks.contains_iff`: which characters of a text a mask marks.
* `shadesSpan_of_marks`: one marked part shades the span that it is the place of.
* `evaluatedPane_spec`: the pane shades the image of the statement.
-/

namespace Retrace

open Text Segment Viewer

/-! ## Reading a mask -/

section Reading

variable {block : Char} {line : List Char}

theorem markedRange?_eq_none
    (h : (line.drop (line.takeWhile (· == ' ')).length).takeWhile (· == block) = []) :
    markedRange? block line = none := by
  simp [markedRange?, h]

/-- No blanks follow the leading blanks of a line. -/
theorem markedRange?_space (line : List Char) : markedRange? ' ' line = none := by
  refine markedRange?_eq_none ?_
  induction line with
  | nil => rfl
  | cons c line ih =>
    by_cases hc : c = ' '
    · simpa [hc] using ih
    · simp [hc]

/-- A block that a line does not hold marks nothing of it. -/
theorem markedRange?_of_not_mem (h : block ∉ line) : markedRange? block line = none := by
  refine markedRange?_eq_none (List.eq_nil_iff_forall_not_mem.mpr fun c hc => h ?_)
  have hblock : c = block := by simpa using List.mem_takeWhile_imp hc
  exact hblock ▸ List.mem_of_mem_drop ((List.takeWhile_sublist _).subset hc)

theorem markedRange?_marked (hblock : block ≠ ' ') (indent : Nat) {width : Nat}
    (hwidth : 0 < width) :
    markedRange? block (List.replicate indent ' ' ++ List.replicate width block) =
      some (indent, indent + width) := by
  obtain ⟨w, rfl⟩ := Nat.exists_eq_succ_of_ne_zero (Nat.ne_of_gt hwidth)
  have hspaces : ∀ c ∈ List.replicate indent ' ', (c == ' ') = true := by simp
  have hmargin : (List.replicate indent ' ' ++ List.replicate w.succ block).takeWhile (· == ' ') =
      List.replicate indent ' ' := by
    rw [List.takeWhile_append_of_pos hspaces]
    simp [List.replicate_succ, hblock]
  have hmarked : (List.replicate w.succ block).takeWhile (· == block) =
      List.replicate w.succ block := by
    simp
  simp [markedRange?, hmargin, hmarked]

end Reading

/-- Nothing is read from a mask of blanks. -/
theorem maskRanges_space (mask : List Char) : maskRanges mask ' ' = [] := by
  refine List.filterMap_eq_nil_iff.mpr ?_
  rintro ⟨line, n⟩ -
  simp [markedRange?_space]

/-- Nothing is read from a mask of newlines. -/
theorem maskRanges_newline (mask : List Char) : maskRanges mask '\n' = [] := by
  refine List.filterMap_eq_nil_iff.mpr ?_
  rintro ⟨line, n⟩ hmem
  have hline : '\n' ∉ line := not_mem_of_mem_splitAtChar (List.fst_mem_of_mem_zipIdx hmem)
  simp [markedRange?_of_not_mem hline]

/-- From a mask with one marked line that line is read. -/
theorem maskRanges_eq_toList {count line indent width : Nat} {block : Char} {mask : List Char}
    (h : IsMask count line indent width block mask) (hnewline : block ≠ '\n') :
    maskRanges mask block = ((markedRange? block
      (List.replicate indent ' ' ++ List.replicate width block)).map (line, ·)).toList := by
  obtain ⟨hpos, -, rfl⟩ := h
  have hlines (k l : Nat) : ∀ part ∈ List.replicate k [] ++
      (List.replicate indent ' ' ++ List.replicate width block) :: List.replicate l [],
      '\n' ∉ part := by
    intro part hpart
    rcases List.mem_append.mp hpart with hpart | hpart
    · simp [(List.mem_replicate.mp hpart).2]
    · rcases List.mem_cons.mp hpart with rfl | hpart
      · simp [hnewline.symm]
      · simp [(List.mem_replicate.mp hpart).2]
  have hsplit := splitAtChar_intercalate (d := '\n') (by simp) (hlines (line - 1) (count - line))
  have hempty (n k : Nat) : ((List.replicate k ([] : List Char)).zipIdx n).filterMap
      (fun p : List Char × Nat => (markedRange? block p.1).map (p.2, ·)) = [] := by
    refine List.filterMap_eq_nil_iff.mpr ?_
    rintro ⟨part, i⟩ hmem
    have hpart : part = [] := (List.mem_replicate.mp (List.fst_mem_of_mem_zipIdx hmem)).2
    simp [hpart, markedRange?_of_not_mem]
  have hline : 1 + (line - 1) = line := by omega
  unfold maskRanges joinLines splitAtNewline
  rw [List.intercalate] at hsplit
  rw [hsplit, List.zipIdx_append, List.filterMap_append, List.zipIdx_cons, List.filterMap_cons]
  cases hmarked : markedRange? block (List.replicate indent ' ' ++ List.replicate width block) <;>
    simp [hempty, hmarked, hline]

/-- **What is read from a mask with one marked line**: where the blocks stand, if there are any. -/
theorem maskRanges_of_isMask {count line indent width : Nat} {block : Char} {mask : List Char}
    (h : IsMask count line indent width block mask) (hblock : block ≠ ' ' ∧ block ≠ '\n') :
    maskRanges mask block = if 0 < width then [(line, indent, indent + width)] else [] := by
  rw [maskRanges_eq_toList h hblock.2]
  by_cases hwidth : 0 < width
  · rw [markedRange?_marked hblock.1 indent hwidth, if_pos hwidth]
    rfl
  · have hzero : width = 0 := by omega
    rw [markedRange?_of_not_mem (by simp [hzero, hblock.1]), if_neg hwidth]
    rfl

/-- A mask is read alike however it is taken apart. -/
theorem IsMask.unique {count count' line line' indent indent' width width' : Nat} {block : Char}
    {mask : List Char} (h : IsMask count line indent width block mask)
    (h' : IsMask count' line' indent' width' block mask) (hblock : block ≠ ' ' ∧ block ≠ '\n')
    (hwidth : 0 < width) : line = line' ∧ indent = indent' ∧ width = width' := by
  have hread := maskRanges_of_isMask h hblock
  rw [maskRanges_of_isMask h' hblock, if_pos hwidth] at hread
  split at hread
  · simp only [List.cons.injEq, Prod.mk.injEq, and_true] at hread
    omega
  · cases hread

/-! ## What a mask marks -/

/-- A text that reaches into a part, but not to its end. -/
theorem exists_eq_append_of_prefix {s t u v w : List Char} (h : s ++ (t ++ u) = v ++ w)
    (hs : s <+: v) (hst : ¬ s ++ t <+: v) : ∃ m rest, v = s ++ m ∧ t = m ++ rest := by
  obtain ⟨m, rfl⟩ := hs
  rw [List.append_assoc] at h
  rcases List.append_eq_append_iff.mp (List.append_cancel_left h) with ⟨x, rfl, -⟩ | ⟨x, rfl, -⟩
  · exact absurd ⟨x, by simp⟩ hst
  · exact ⟨m, x, rfl, rfl⟩

/-- **A mask marks the characters of the span that it is the mask of**: those of its line, from the margin
on for the width. -/
theorem Marks.contains_iff {text before after : List Char} {span : Span Nat}
    {line indent width : Nat} {c : Char} (h : Marks text span line indent width)
    (htext : text = before ++ c :: after) (hc : c ≠ '\n') :
    span.start ≤ byteSize before ∧ byteSize before < span.stop ↔
      line = before.count '\n' + 1 ∧ indent ≤ (lastLine before).length ∧
        (lastLine before).length < indent + width := by
  obtain ⟨above, margin, marked, below, heq, hends, hmargin, hmarked, rfl, hstart, hstop, rfl, rfl⟩ :=
    h
  have hcut : (above ++ margin) ++ (marked ++ below) = before ++ c :: after := by
    rw [← htext, heq, List.append_assoc]
  have hcut' : (above ++ margin ++ marked) ++ below = before ++ c :: after := by
    rw [← hcut, List.append_assoc _ marked]
  rw [hstart, hstop, ← Nat.not_le, byteSize_le_iff_prefix hcut, byteSize_le_iff_prefix hcut']
  by_cases hcount : above.count '\n' = before.count '\n'
  · -- both lines have the same number, so they begin at the same place
    obtain ⟨above', tail, rest, hbefore, -, hline⟩ := isLine_of_char htext hc
    obtain rfl : above = above' := by
      have heq' : above ++ (margin ++ (marked ++ below)) =
          above' ++ (lastLine before ++ c :: tail ++ rest) := heq.symm.trans hline.eq
      exact hends.eq_of_count hline.ends heq' (hcount.trans hline.count.symm)
    have hrest : margin ++ (marked ++ below) = lastLine before ++ c :: after := by
      rw [hbefore, List.append_assoc, List.append_assoc] at hcut
      exact List.append_cancel_left hcut
    have hrest' : (margin ++ marked) ++ below = lastLine before ++ c :: after := by
      rw [← hrest, List.append_assoc]
    have hprefix (s : List Char) : above ++ s <+: before ↔ s <+: lastLine before := by
      conv_lhs => rw [hbefore]
      exact List.prefix_append_right_inj above
    rw [List.append_assoc, hprefix, hprefix, hcount, ← length_le_iff_prefix hrest,
      ← length_le_iff_prefix hrest', List.length_append, Nat.not_le]
    exact (and_iff_right rfl).symm
  · refine iff_of_false ?_ fun hmarks => hcount (Nat.succ_injective hmarks.1)
    rintro ⟨hle, hlt⟩
    obtain ⟨m, rest, rfl, rfl⟩ := exists_eq_append_of_prefix hcut hle hlt
    have hm : '\n' ∉ margin ++ m := List.not_mem_append hmargin fun hmem =>
      hmarked (List.mem_append_left rest hmem)
    rw [List.append_assoc, List.count_append, List.count_eq_zero.mpr hm] at hcount
    exact hcount rfl

/-- The line of a mask is the line where its span begins. -/
theorem Marks.line_eq {text : List Char} {span : Span Nat} {line indent width : Nat}
    (h : Marks text span line indent width) : line = newlinesBefore span.start text + 1 := by
  obtain ⟨above, margin, marked, below, rfl, -, hmargin, -, rfl, hstart, -, -, -⟩ := h
  rw [hstart, ← List.append_assoc, newlinesBefore_append, List.count_append,
    List.count_eq_zero.mpr hmargin, Nat.add_zero]

/-! ## Shading the marked part -/

/-- **One marked part shades a span** when it is the place of the span on its line. -/
theorem shadesSpan_of_marks {text : List Char} {span : Span Nat} {line indent width : Nat}
    (h : Marks text span line indent width) (current : Option Nat) (offset height : Nat) :
    ShadesSpan text span offset height (codeLines
      (shadeMarked [(line, indent, indent + width)]) current offset height (displayLines text)) := by
  refine shadesSpan_codeLines (fun n l i _ => ?_) current offset height
  by_cases hn : line = n + 1
  · have hshade : ((Style.plain.on Palette.shade).inBold).IsShaded := rfl
    obtain ⟨style, hshaded, hstyled⟩ :=
      getElem?_shadeRange_styleLine hshade indent (indent + width) l i
    refine ⟨style, by simpa [shadeMarked, hn] using hstyled, ?_⟩
    rintro before c after htext hc - rfl rfl
    rw [hshaded, h.contains_iff htext hc]
    exact ⟨fun hi => ⟨hn, hi⟩, And.right⟩
  · obtain ⟨style, hnone, hstyled⟩ := getElem?_styleLine l i
    refine ⟨style, by simpa [shadeMarked, hn] using hstyled, ?_⟩
    rintro before c after htext hc - rfl -
    rw [h.contains_iff htext hc]
    refine iff_of_false (fun hshaded => ?_) fun hmarked => hn hmarked.1
    rw [Style.IsShaded, hnone] at hshaded
    cases hshaded

/-! ## The evaluated pane -/

/-- The rows that the evaluated pane draws. -/
def evaluatedRows (f : Frame) (code : String) (mask : Option String) (block : Char)
    (scroll : CodeScroll) : List (List Run) :=
  let marked := (mask.map fun m => maskRanges m.toList block).getD []
  codeLines (shadeMarked marked) (marked.head?.map Prod.fst)
    (evaluatedPane f code mask block scroll).2.offset (f.box " Evaluated ").pageHeight
    (displayLines code.toList)

theorem fst_evaluatedPane (f : Frame) (code : String) (mask : Option String) (block : Char)
    (scroll : CodeScroll) : (evaluatedPane f code mask block scroll).1 =
      drawCode (f.box " Evaluated ") (evaluatedRows f code mask block scroll) := rfl

/-- With one marked part, its line is the current one. -/
theorem evaluatedRows_of_maskRanges {mask : String} {block : Char} {line start stop : Nat}
    (h : maskRanges mask.toList block = [(line, start, stop)]) (f : Frame) (code : String)
    (scroll : CodeScroll) : evaluatedRows f code (some mask) block scroll =
      codeLines (shadeMarked [(line, start, stop)]) (some line)
        (evaluatedPane f code (some mask) block scroll).2.offset (f.box " Evaluated ").pageHeight
        (displayLines code.toList) := by
  simp only [evaluatedRows, Option.map_some, Option.getD_some, h, List.head?_cons]

/-- **The evaluated pane decodes the mask.** There is a mask; take its line, margin and width, with at least
one block. They are what is read from it, unless the block is a blank or a newline: nothing is read then.
What is read is shaded: the rows that are drawn number the lines of the evaluated text, mark the line of the
image of the statement, and shade of the characters on the page those of the image and no others. -/
theorem evaluatedPane_spec {code mask : String} {steps : List Step} {block : Char}
    (h : highlightMask code steps block = .ok (some mask)) :
    ∃ evaluated, evaluatedCode code steps = .ok evaluated ∧
      (∃ line indent width,
        IsMask (evaluated.toList.count '\n' + 1) line indent width block mask.toList) ∧
      ∀ line indent width,
        IsMask (evaluated.toList.count '\n' + 1) line indent width block mask.toList → 0 < width →
        (maskRanges mask.toList block = [(line, indent, indent + width)] ↔
          block ≠ ' ' ∧ block ≠ '\n') ∧
        (¬ (block ≠ ' ' ∧ block ≠ '\n') → maskRanges mask.toList block = []) ∧
        (block ≠ ' ' ∧ block ≠ '\n' → ∀ range span segments, statementRange? steps = some range →
          byteSpan? code range = some span → substitutions code steps = .ok segments →
          isBoundary code.toList span.start = true → isBoundary code.toList span.stop = true →
          line = newlinesBefore (image span segments).start evaluated.toList + 1 ∧
          line = newlinesBefore (image span segments).stop evaluated.toList + 1 ∧
          ∀ (f : Frame) (scroll : CodeScroll),
            let pane := evaluatedPane f evaluated (some mask) block scroll
            let rows := evaluatedRows f evaluated (some mask) block scroll
            pane.1 = drawCode (f.box " Evaluated ") rows ∧ NumbersRows line pane.2.offset rows ∧
            ShadesSpan evaluated.toList (image span segments) pane.2.offset
              (f.box " Evaluated ").pageHeight rows) := by
  have key := highlightMask_outcome code steps block
  rw [h] at key
  cases key with
  | @marked range span segments evaluated _ line₀ indent₀ width₀ hrange _ hspan hsegments hevaluated
      himage hmask₀ hmarks =>
    refine ⟨evaluated, hevaluated, ⟨line₀, indent₀, width₀, hmask₀⟩, ?_⟩
    intro line indent width hmask hwidth
    have hread (hblock : block ≠ ' ' ∧ block ≠ '\n') :
        maskRanges mask.toList block = [(line, indent, indent + width)] := by
      rw [maskRanges_of_isMask hmask hblock, if_pos hwidth]
    have hnothing (hblock : ¬ (block ≠ ' ' ∧ block ≠ '\n')) : maskRanges mask.toList block = [] := by
      by_cases hspace : block = ' '
      · rw [hspace, maskRanges_space]
      · have hnewline : block = '\n' := by_contra fun hne => hblock ⟨hspace, hne⟩
        rw [hnewline, maskRanges_newline]
    refine ⟨⟨fun hone => by_contra fun hblock => ?_, hread⟩, hnothing, fun hblock => ?_⟩
    · rw [hnothing hblock] at hone
      cases hone
    · intro range' span' segments' hrange' hspan' hsegments' hstart hstop
      obtain rfl := Option.some.inj (hrange.symm.trans hrange')
      obtain rfl := Option.some.inj (hspan.symm.trans hspan')
      obtain rfl := Except.ok.inj (hsegments.symm.trans hsegments')
      obtain ⟨rfl, rfl, rfl⟩ := hmask.unique hmask₀ hblock hwidth
      have hplace := hmarks hstart hstop
      have hline := hplace.line_eq
      refine ⟨hline, hline.trans (congrArg (· + 1) himage), fun f scroll => ?_⟩
      intro pane rows
      have hrows : rows = _ := evaluatedRows_of_maskRanges (hread hblock) f evaluated scroll
      rw [hrows]
      exact ⟨hrows ▸ fst_evaluatedPane .., numbersRows_codeLines line,
        shadesSpan_of_marks hplace _ _ _⟩

/-- A statement of nine characters in ten bytes, of which the last operand has been evaluated. -/
def accentedSteps : List Step :=
  [{ action := .statement, range := some ⟨⟨2, 3⟩, ⟨2, 13⟩⟩ },
    { action := .eval, range := some ⟨⟨2, 12⟩, ⟨2, 13⟩⟩, value := some ⟨"int", .int 5⟩ }]

/-- The ten bytes are shaded as nine characters. -/
theorem accentedSteps_evaluatedPane :
    highlightMask "f();\r\n  y = é + 1;\r\n" accentedSteps '#' = .ok (some "\n  #########\n") ∧
    maskRanges "\n  #########\n".toList '#' = [(2, 2, 11)] ∧
    ∀ (f : Frame) (scroll : CodeScroll),
      let pane := evaluatedPane f "f();\r\n  y = é + 5;\r\n" (some "\n  #########\n") '#' scroll
      let rows := evaluatedRows f "f();\r\n  y = é + 5;\r\n" (some "\n  #########\n") '#' scroll
      NumbersRows 2 pane.2.offset rows ∧
      ShadesSpan "f();\r\n  y = é + 5;\r\n".toList ⟨8, 18⟩ pane.2.offset
        (f.box " Evaluated ").pageHeight rows := by
  have hmask : highlightMask "f();\r\n  y = é + 1;\r\n" accentedSteps '#' =
      .ok (some "\n  #########\n") := by decide +kernel
  have hevaluated : evaluatedCode "f();\r\n  y = é + 1;\r\n" accentedSteps =
      .ok "f();\r\n  y = é + 5;\r\n" := by decide +kernel
  obtain ⟨evaluated, hok, -, hall⟩ := evaluatedPane_spec hmask
  obtain rfl := Except.ok.inj (hevaluated.symm.trans hok)
  have hisMask : IsMask ("f();\r\n  y = é + 5;\r\n".toList.count '\n' + 1) 2 2 9 '#'
      "\n  #########\n".toList := by
    unfold IsMask
    decide +kernel
  obtain ⟨hread, -, hshades⟩ := hall 2 2 9 hisMask (by decide)
  have hblock : '#' ≠ ' ' ∧ '#' ≠ '\n' := by decide
  have hpane := hshades hblock ⟨⟨2, 3⟩, ⟨2, 13⟩⟩ ⟨8, 18⟩ [⟨⟨17, 18⟩, "5"⟩] (by decide +kernel)
    (by decide +kernel) (by decide +kernel) (by decide +kernel) (by decide +kernel)
  have himage : image ⟨8, 18⟩ [⟨⟨17, 18⟩, "5"⟩] = ⟨8, 18⟩ := by decide +kernel
  rw [himage] at hpane
  exact ⟨hmask, hread.mpr hblock, fun f scroll => (hpane.2.2 f scroll).2⟩

end Retrace
