import Mathlib.Order.Defs.LinearOrder
import Retrace.Proofs.Text
import Retrace.Source.LineIndex

/-!
# Offsets and locations agree

Locations are ordered linearly, and a line index carries that order to the order of byte offsets.

* `place?`: the position that a location names, its sum taken without the bounds of a machine word;
  `offset?_eq_place?` says that `offset?` finds it where the sum fits.
* `offset?_le_iff`: two locations with sums that fit are ordered as their offsets are.
* `le_size_of_offset?`, `size_ofText`: the offset of a location is at most the size of the text.
* `line_location`: the line of an offset is one more than the number of newlines before it, for
  offsets inside characters and beyond the end too.
* `location_append`: the location of the position behind `before`, by its last line.
-/

namespace Retrace

namespace Location

instance : LinearOrder Location where
  toLE := inferInstance
  toLT := inferInstance
  toDecidableLE := inferInstance
  toDecidableLT := inferInstance
  le_refl a := by rw [le_def]; omega
  le_trans a b c hab hbc := by rw [le_def] at *; omega
  lt_iff_le_not_ge a b := by rw [lt_def, le_def, le_def]; omega
  le_antisymm a b hab hba := by
    rw [le_def] at hab hba
    have hline : a.line = b.line := by omega
    have hcolumn : a.column = b.column := by omega
    cases a
    cases b
    exact congr (congrArg mk hline) hcolumn
  le_total a b := by rw [le_def, le_def]; omega

end Location

namespace LineIndex

/-! ## From locations to offsets -/

theorem sizeOfWidths_cons {widths : List Nat} (h : widths ≠ []) (width : Nat) :
    sizeOfWidths (width :: widths) = width + 1 + sizeOfWidths widths := by
  cases widths with
  | nil => exact absurd rfl h
  | cons next rest => simp [sizeOfWidths]

theorem stop_le_size_of_lineSpan? {line : Nat} {span : Span Nat} {widths : List Nat}
    (h : lineSpan? line widths = some span) : span.stop ≤ sizeOfWidths widths := by
  induction widths generalizing line span with
  | nil => exact absurd h (by simp [lineSpan?])
  | cons width rest ih =>
    cases line with
    | zero =>
      obtain rfl := Option.some.inj h
      cases rest with
      | nil => exact Nat.le_refl width
      | cons next rest =>
        rw [sizeOfWidths_cons (List.cons_ne_nil next rest)]
        exact Nat.le_trans (Nat.le_succ width) (Nat.le_add_right _ _)
    | succ line =>
      obtain ⟨s, hs, rfl⟩ := Option.map_eq_some_iff.mp h
      have hne : rest ≠ [] := by rintro rfl; exact absurd hs (by simp [lineSpan?])
      rw [sizeOfWidths_cons hne]
      exact Nat.add_le_add_left (ih hs) _

/-- The offset of a column, counted from zero, of the line with `line` lines of `widths` above it, as a
sum without bounds. -/
def seek (line column : Nat) : List Nat → Option Nat
  | [] => none
  | width :: rest =>
    match line with
    | 0 => if column ≤ width then some column else none
    | line + 1 => (seek line column rest).map (width + 1 + ·)

theorem seek_eq_lineSpan? (line column : Nat) (widths : List Nat) :
    seek line column widths = (lineSpan? line widths).bind fun s =>
      if s.start + column ≤ s.stop then some (s.start + column) else none := by
  induction widths generalizing line with
  | nil => simp [seek, lineSpan?]
  | cons width rest ih =>
    cases line with
    | zero => simp [seek, lineSpan?]
    | succ line =>
      rw [seek, lineSpan?, ih]
      cases lineSpan? line rest with
      | none => rfl
      | some s => simp [Option.map_if, Nat.add_assoc]

/-- Positions are ordered by line first, and by column within a line. -/
theorem seek_le_iff {line line' column column' o o' : Nat} {widths : List Nat}
    (h : seek line column widths = some o) (h' : seek line' column' widths = some o') :
    o ≤ o' ↔ line < line' ∨ line = line' ∧ column ≤ column' := by
  induction widths generalizing line line' o o' with
  | nil => exact absurd h (by simp [seek])
  | cons width rest ih =>
    cases line with
    | zero =>
      simp only [seek, Option.ite_none_right_eq_some, Option.some.injEq] at h
      cases line' with
      | zero =>
        simp only [seek, Option.ite_none_right_eq_some, Option.some.injEq] at h'
        omega
      | succ line' =>
        simp only [seek] at h'
        obtain ⟨k', -, rfl⟩ := Option.map_eq_some_iff.mp h'
        omega
    | succ line =>
      simp only [seek] at h
      obtain ⟨k, hk, rfl⟩ := Option.map_eq_some_iff.mp h
      cases line' with
      | zero =>
        simp only [seek, Option.ite_none_right_eq_some, Option.some.injEq] at h'
        omega
      | succ line' =>
        simp only [seek] at h'
        obtain ⟨k', hk', rfl⟩ := Option.map_eq_some_iff.mp h'
        have := ih hk hk'
        omega

/-- The position that a location names, as a sum without bounds. -/
def place? (index : LineIndex) (l : Location) : Option Nat :=
  if l.line = 0 ∨ l.column = 0 then none else seek (l.line - 1) (l.column - 1) index.widths

theorem seek_of_place? {index : LineIndex} {l : Location} {o : Nat}
    (h : index.place? l = some o) :
    0 < l.line ∧ 0 < l.column ∧ seek (l.line - 1) (l.column - 1) index.widths = some o := by
  unfold place? at h
  split at h
  · exact absurd h (by simp)
  · exact ⟨by omega, by omega, h⟩

/-- **Positions keep the order of locations.** -/
theorem place?_le_iff {index : LineIndex} {a b : Location} {m n : Nat}
    (ha : index.place? a = some m) (hb : index.place? b = some n) : a ≤ b ↔ m ≤ n := by
  obtain ⟨hal, hac, ha⟩ := seek_of_place? ha
  obtain ⟨hbl, hbc, hb⟩ := seek_of_place? hb
  rw [seek_le_iff ha hb, Location.le_def]
  omega

/-! ## Offsets by sums that fit -/

/-- An offset is found on the line of its location. -/
theorem offset?_eq_some_iff_lineSpan? {index : LineIndex} {l : Location} {o : Nat} :
    index.offset? l = some o ↔ 0 < l.line ∧ 0 < l.column ∧
      ∃ s, lineSpan? (l.line - 1) index.widths = some s ∧
        o = wordSum s.start (l.column - 1) ∧ o ≤ s.stop := by
  unfold offset?
  simp only [Option.ite_none_left_eq_some, Option.bind_eq_bind, Option.bind_eq_some_iff,
    Option.ite_none_right_eq_some, Option.some.injEq]
  constructor
  · rintro ⟨hpos, s, hs, hle, rfl⟩
    exact ⟨by omega, by omega, s, hs, rfl, hle⟩
  · rintro ⟨hline, hcolumn, s, hs, rfl, hle⟩
    exact ⟨by omega, s, hs, hle, rfl⟩

theorem pos_of_offset? {index : LineIndex} {l : Location} {o : Nat}
    (h : index.offset? l = some o) : 0 < l.line ∧ 0 < l.column := by
  obtain ⟨hline, hcolumn, -⟩ := offset?_eq_some_iff_lineSpan?.mp h
  exact ⟨hline, hcolumn⟩

theorem le_size_of_offset? {index : LineIndex} {l : Location} {o : Nat}
    (h : index.offset? l = some o) : o ≤ index.size := by
  obtain ⟨-, -, s, hs, -, hle⟩ := offset?_eq_some_iff_lineSpan?.mp h
  exact Nat.le_trans hle (stop_le_size_of_lineSpan? hs)

/-- **Where the sum fits, the offset is the position that the location names.** -/
theorem offset?_eq_place? {index : LineIndex} {l : Location} (hfits : index.fits l = true) :
    index.offset? l = index.place? l := by
  unfold offset? place?
  split
  · rfl
  · next hpos =>
    unfold fits at hfits
    rw [seek_eq_lineSpan?]
    cases hs : lineSpan? (l.line - 1) index.widths with
    | none => rfl
    | some s =>
      rw [hs, Option.all_some, decide_eq_true_eq] at hfits
      have hsum : wordSum s.start (l.column - 1) = s.start + (l.column - 1) :=
        wordSum_of_lt (by omega)
      simp only [Option.bind_eq_bind, Option.bind_some, hsum]

/-- **Offsets keep the order of locations** where the sums fit. -/
theorem offset?_le_iff {index : LineIndex} {a b : Location} {m n : Nat}
    (hafits : index.fits a = true) (hbfits : index.fits b = true)
    (ha : index.offset? a = some m) (hb : index.offset? b = some n) : a ≤ b ↔ m ≤ n := by
  rw [offset?_eq_place? hafits] at ha
  rw [offset?_eq_place? hbfits] at hb
  exact place?_le_iff ha hb

theorem fitsRange_iff {index : LineIndex} {r : SourceRange} :
    index.fitsRange r = true ↔ index.fits r.start = true ∧ index.fits r.stop = true := by
  rw [fitsRange, Bool.and_eq_true]

/-- What the byte span of a range says about its ends. -/
theorem offsets?_eq_some_iff {index : LineIndex} {r : SourceRange} {span : Span Nat} :
    index.offsets? r = some span ↔
      index.offset? r.start = some span.start ∧ index.offset? r.stop = some span.stop ∧
        span.start ≤ span.stop := by
  unfold offsets?
  simp only [Option.bind_eq_bind, Option.bind_eq_some_iff, Option.ite_none_right_eq_some]
  constructor
  · rintro ⟨m, hm, n, hn, hle, h⟩
    obtain rfl := Option.some.inj h
    exact ⟨hm, hn, hle⟩
  · rintro ⟨hm, hn, hle⟩
    exact ⟨_, hm, _, hn, hle, rfl⟩

/-! ## The index of a text -/

open Text

theorem widths_ne_nil (s : List Char) : (ofText s).widths ≠ [] := by
  simp [ofText, splitAtNewline_ne_nil]

theorem widths_newline (s : List Char) : (ofText ('\n' :: s)).widths = 0 :: (ofText s).widths := by
  simp [ofText, splitAtNewline_newline, byteSize]

theorem widths_cons {c : Char} (hc : c ≠ '\n') (s : List Char) :
    ∃ width widths, (ofText s).widths = width :: widths ∧
      (ofText (c :: s)).widths = (c.utf8Size + width) :: widths := by
  obtain ⟨line, lines, h, h'⟩ := splitAtNewline_cons hc s
  exact ⟨byteSize line, lines.map byteSize, by simp [ofText, h], by simp [ofText, h', byteSize]⟩

theorem size_ofText (s : List Char) : (ofText s).size = byteSize s := by
  unfold size
  induction s with
  | nil => rfl
  | cons c s ih =>
    by_cases hc : c = '\n'
    · subst hc
      rw [widths_newline, sizeOfWidths_cons (widths_ne_nil s), ih]
      rfl
    · obtain ⟨width, widths, h, h'⟩ := widths_cons hc s
      rw [h', byteSize, ← ih, h]
      cases widths with
      | nil => rfl
      | cons next rest =>
        have hne : next :: rest ≠ [] := List.cons_ne_nil next rest
        rw [sizeOfWidths_cons hne, sizeOfWidths_cons hne]
        omega

theorem lineCount_ofText (s : List Char) :
    (ofText s).lineCount = (splitAtNewline s).length := by
  simp [lineCount, ofText]

/-! ## From offsets to locations -/

theorem le_line_locate (line offset : Nat) (widths : List Nat) :
    line ≤ (locate line offset widths).line := by
  fun_induction locate line offset widths with
  | case1 line => exact Nat.le_refl line
  | case2 line => exact Nat.le_refl line
  | case3 line => exact Nat.le_refl line
  | case4 line offset width rest _ _ ih => omega

theorem line_locate_lt {widths : List Nat} (h : widths ≠ []) (line offset : Nat) :
    (locate line offset widths).line < line + widths.length := by
  fun_induction locate line offset widths with
  | case1 line => exact absurd rfl h
  | case2 line => simp
  | case3 line => simp
  | case4 line offset width rest hrest _ ih =>
    have := ih hrest
    rw [List.length_cons]
    omega

theorem column_locate_le (line offset : Nat) (widths : List Nat) :
    (locate line offset widths).column ≤ offset + 1 := by
  fun_induction locate line offset widths with
  | case1 line => simp
  | case2 line => exact Nat.succ_le_succ (Nat.min_le_left _ _)
  | case3 line => exact Nat.le_refl _
  | case4 line offset width rest _ _ ih => omega

theorem column_locate_pos (line offset : Nat) (widths : List Nat) :
    0 < (locate line offset widths).column := by
  fun_induction locate line offset widths with
  | case1 line => exact Nat.one_pos
  | case2 line => exact Nat.succ_pos _
  | case3 line => exact Nat.succ_pos _
  | case4 line offset width rest _ _ ih => exact ih

theorem line_location_pos (index : LineIndex) (offset : Nat) : 0 < (index.location offset).line :=
  le_line_locate 1 offset index.widths

theorem line_location_le (s : List Char) (offset : Nat) :
    ((ofText s).location offset).line ≤ (ofText s).lineCount := by
  have := line_locate_lt (widths_ne_nil s) 1 offset
  unfold location lineCount
  omega

theorem column_location_pos (index : LineIndex) (offset : Nat) :
    0 < (index.location offset).column :=
  column_locate_pos 1 offset index.widths

theorem column_location_le (index : LineIndex) (offset : Nat) :
    (index.location offset).column ≤ offset + 1 :=
  column_locate_le 1 offset index.widths

theorem locate_of_le {offset width : Nat} (h : offset ≤ width) (line : Nat) (widths : List Nat) :
    locate line offset (width :: widths) = ⟨line, offset + 1⟩ := by
  cases widths with
  | nil => simp [locate, Nat.min_eq_left h]
  | cons next rest => simp [locate, h]

theorem locate_of_lt {offset width : Nat} (h : width < offset) (line : Nat) {widths : List Nat}
    (hne : widths ≠ []) :
    locate line offset (width :: widths) = locate (line + 1) (offset - (width + 1)) widths := by
  cases widths with
  | nil => exact absurd rfl hne
  | cons next rest =>
    have : ¬ offset ≤ width := by omega
    simp [locate, this]

/-- A wider first line moves the columns on it and nothing else. -/
theorem locate_widen (line k offset width : Nat) (widths : List Nat) :
    locate line (k + offset) ((k + width) :: widths) =
      if (locate line offset (width :: widths)).line = line then
        ⟨line, k + (locate line offset (width :: widths)).column⟩
      else locate line offset (width :: widths) := by
  by_cases h : offset ≤ width
  · rw [locate_of_le (by omega), locate_of_le h, if_pos rfl]
    exact congrArg (Location.mk line) (Nat.add_assoc k offset 1)
  · by_cases hne : widths = []
    · subst hne
      simp only [locate, if_true]
      exact congrArg (Location.mk line) (by omega)
    · have hrest : k + offset - (k + width + 1) = offset - (width + 1) := by omega
      have hline := le_line_locate (line + 1) (offset - (width + 1)) widths
      rw [locate_of_lt (by omega) line hne, locate_of_lt (by omega) line hne, hrest,
        if_neg (by omega)]

theorem line_locate_widen (line k offset width : Nat) (widths : List Nat) :
    (locate line (k + offset) ((k + width) :: widths)).line =
      (locate line offset (width :: widths)).line := by
  rw [locate_widen]
  split
  · rename_i h
    exact h.symm
  · rfl

/-- **The line of an offset counts the newlines before it.** -/
theorem line_location (s : List Char) (offset : Nat) :
    ((ofText s).location offset).line = newlinesBefore offset s + 1 := by
  suffices key : ∀ line, (locate line offset (ofText s).widths).line =
      line + newlinesBefore offset s by
    rw [location, key, Nat.add_comm]
  induction s generalizing offset with
  | nil =>
    intro line
    cases offset <;> rfl
  | cons c s ih =>
    intro line
    by_cases hzero : offset = 0
    · subst hzero
      obtain ⟨width, widths, h⟩ := List.exists_cons_of_ne_nil (widths_ne_nil (c :: s))
      rw [h, locate_of_le (Nat.zero_le width), newlinesBefore_zero]
      rfl
    · rw [newlinesBefore_cons (by omega)]
      by_cases hc : c = '\n'
      · subst hc
        rw [widths_newline, locate_of_lt (by omega) line (widths_ne_nil s), ih, if_pos rfl]
        exact Nat.add_assoc line 1 _
      · obtain ⟨width, widths, h, h'⟩ := widths_cons hc s
        rw [h', if_neg hc, Nat.zero_add]
        by_cases hle : c.utf8Size ≤ offset
        · obtain ⟨o, rfl⟩ := Nat.exists_eq_add_of_le hle
          rw [line_locate_widen, ← h, ih, Nat.add_sub_cancel_left]
        · -- the offset lies inside `c`
          rw [locate_of_le (by omega), Nat.sub_eq_zero_of_le (by omega), newlinesBefore_zero]
          rfl

/-- **The location of a position between characters**, by the text before it. -/
theorem location_append (before after : List Char) :
    (ofText (before ++ after)).location (byteSize before) =
      ⟨before.count '\n' + 1, byteSize (lastLine before) + 1⟩ := by
  suffices key : ∀ line, locate line (byteSize before) (ofText (before ++ after)).widths =
      ⟨line + before.count '\n', byteSize (lastLine before) + 1⟩ by
    rw [location, key, Nat.add_comm]
  induction before with
  | nil =>
    intro line
    obtain ⟨width, widths, h⟩ := List.exists_cons_of_ne_nil (widths_ne_nil after)
    rw [List.nil_append, h, byteSize, locate_of_le (Nat.zero_le width)]
    rfl
  | cons c before ih =>
    intro line
    by_cases hc : c = '\n'
    · subst hc
      have hsub : 1 + byteSize before - (0 + 1) = byteSize before := by omega
      rw [List.cons_append, widths_newline, byteSize, show ('\n').utf8Size = 1 from rfl,
        locate_of_lt (by omega) line (widths_ne_nil _), hsub, ih, List.count_cons_self, lastLine,
        if_pos List.mem_cons_self]
      exact congrArg (Location.mk · _) (by omega)
    · obtain ⟨width, widths, h, h'⟩ := widths_cons hc (before ++ after)
      rw [List.cons_append, h', byteSize, locate_widen, ← h, ih, List.count_cons_of_ne hc]
      by_cases hmem : '\n' ∈ before
      · have hpos : 0 < before.count '\n' := List.count_pos_iff.mpr hmem
        rw [if_neg (by simp only; omega), lastLine, if_pos (List.mem_cons_of_mem c hmem)]
      · have hzero : before.count '\n' = 0 := List.count_eq_zero.mpr hmem
        have hcons : '\n' ∉ c :: before := by
          rw [List.mem_cons, not_or]
          exact ⟨fun h => hc h.symm, hmem⟩
        rw [if_pos (by simp only; omega), lastLine_of_not_mem hcons, lastLine_of_not_mem hmem,
          hzero, byteSize]
        rfl

end LineIndex

end Retrace
