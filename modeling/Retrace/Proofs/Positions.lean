import Mathlib.Data.List.DropRight
import Mathlib.Order.Hom.Basic
import Retrace.Proofs.LineIndex
import Retrace.Proofs.Rewriting

/-!
# Positions of a text

A position of a text has an offset and a location, and either gives the other. Both are told by the
bytes before the position: the offset counts all of them, the line those that are newlines, the column
those behind the last newline. A position may lie inside a character; the end of the text is one too.

The offset of a location is a sum of two machine words. No position of a text needs a sum that does not
fit, but a column far beyond its line does, and then the offset that is found is not the location's.

* `Location.behind`: the location behind some bytes.
* `eq_newline_of_newlineByte_mem`: only a newline has the byte of a newline in it.
* `location_eq_behind`: the location of an offset is the one behind the bytes before it.
* `place?_eq_some_iff`: a location names a position exactly when it is the location of an offset of the
  text.
* `offset?_eq_some_iff`: where the sum fits, it then has that offset.
* `byteSize_le_iff_lines`: the order of positions between characters by their lines.
* `positions`: offsets and positions in the same order.
* `Spans`: a range and the byte span between the same positions; `offsets?_eq_some_iff_spans` says that
  `offsets?` finds it where the sums fit.
* `ofText_spec`: what holds of the offsets and locations of a text.
* `offset?_columnBeyond`: an offset by a sum that does not fit.
-/

namespace Retrace

open Text

/-! ## The location behind some bytes -/

/-- The byte of a newline. -/
def newlineByte : UInt8 := 10

theorem newlineByte_eq_ofNat_iff {n : Nat} (h : n < 256) :
    newlineByte = UInt8.ofNat n ↔ n = 10 := by
  rw [← UInt8.toNat_inj, UInt8.toNat_ofNat_of_lt' h]
  exact eq_comm

/-- Only a newline has that byte in it. -/
theorem eq_newline_of_newlineByte_mem {c : Char} (h : newlineByte ∈ String.utf8EncodeChar c) :
    c = '\n' := by
  unfold String.utf8EncodeChar at h
  dsimp only at h
  split at h
  · rw [List.mem_singleton, newlineByte_eq_ofNat_iff (by omega)] at h
    exact Char.ext (UInt32.toNat_inj.mp h)
  · -- the bytes of a longer character are 128 or more
    exfalso
    split at h <;> [skip; split at h] <;>
      simp (disch := omega) only [List.mem_cons, List.not_mem_nil, or_false,
        newlineByte_eq_ofNat_iff] at h <;>
      omega

namespace Location

/-- The location one byte further. -/
def advance (l : Location) (b : UInt8) : Location :=
  if b = newlineByte then ⟨l.line + 1, 1⟩ else ⟨l.line, l.column + 1⟩

/-- The location behind some bytes: one line for each newline among them, and one column for each
byte behind the last newline. -/
def behind (before : List UInt8) : Location :=
  ⟨before.count newlineByte + 1, (before.rtakeWhile (· ≠ newlineByte)).length + 1⟩

theorem foldl_advance_of_not_mem {bs : List UInt8} (h : newlineByte ∉ bs) (l : Location) :
    bs.foldl advance l = ⟨l.line, l.column + bs.length⟩ := by
  induction bs generalizing l with
  | nil => rfl
  | cons b bs ih =>
    obtain ⟨hb, hbs⟩ := not_or.mp (List.mem_cons.not.mp h)
    rw [List.foldl_cons, ih hbs, advance, if_neg (Ne.symm hb), List.length_cons]
    exact congrArg (mk l.line) (by simp only; omega)

/-- Going byte by byte from the start of a text leads to the location behind the bytes. -/
theorem behind_eq_foldl (before : List UInt8) : behind before = before.foldl advance ⟨1, 1⟩ := by
  induction before using List.reverseRecOn with
  | nil => rfl
  | append_singleton before b ih =>
    rw [List.foldl_append, ← ih, List.foldl_cons, List.foldl_nil, behind, advance, behind,
      List.rtakeWhile_concat]
    by_cases hb : b = newlineByte <;> simp [hb]

end Location

namespace LineIndex

variable {index : LineIndex} {l : Location} {o : Nat}

/-- The location of an offset in a text that begins behind `k` bytes of a line. -/
theorem locate_eq_foldl (s : List Char) (line k o width : Nat) (widths : List Nat)
    (h : (ofText s).widths = width :: widths) :
    locate line (k + o) ((k + width) :: widths) =
      ((bytes s).take o).foldl Location.advance ⟨line, k + 1⟩ := by
  induction s generalizing line k o width widths with
  | nil =>
    cases h
    simp [locate, bytes, byteSize]
  | cons c s ih =>
    by_cases hc : c = '\n'
    · subst hc
      obtain ⟨width', widths', hrest⟩ := List.exists_cons_of_ne_nil (widths_ne_nil s)
      rw [widths_newline] at h
      cases h
      cases o with
      | zero => simp [locate_of_le]
      | succ o =>
        have hbytes : bytes ('\n' :: s) = newlineByte :: bytes s := rfl
        have hoffset : k + (o + 1) - (k + 0 + 1) = 0 + o := by omega
        have hlocated := ih (line + 1) 0 o width' widths' hrest
        rw [Nat.zero_add width'] at hlocated
        rw [locate_of_lt (by omega) line (widths_ne_nil s), hoffset, hrest, hlocated, hbytes,
          List.take_succ_cons, List.foldl_cons, Location.advance, if_pos rfl]
    · obtain ⟨width', widths', hrest, hcons⟩ := widths_cons hc s
      rw [hcons] at h
      cases h
      have hnone : newlineByte ∉ String.utf8EncodeChar c := fun h =>
        hc (eq_newline_of_newlineByte_mem h)
      have hbytes : bytes (c :: s) = String.utf8EncodeChar c ++ bytes s := rfl
      have hfirst : newlineByte ∉ (String.utf8EncodeChar c).take o := fun h =>
        hnone (List.mem_of_mem_take h)
      rw [hbytes, List.take_append, List.foldl_append,
        Location.foldl_advance_of_not_mem hfirst, List.length_take, String.length_utf8EncodeChar]
      by_cases ho : o ≤ c.utf8Size
      · rw [locate_of_le (by omega), Nat.sub_eq_zero_of_le ho, List.take_zero, List.foldl_nil,
          Nat.min_eq_left ho]
        exact congrArg (Location.mk line) (by simp only; omega)
      · have hoffset : k + o = k + c.utf8Size + (o - c.utf8Size) := by omega
        rw [hoffset, ← Nat.add_assoc, ih line _ _ width' widths hrest, Nat.min_eq_right (by omega),
          Nat.add_right_comm]

/-- **The location of an offset is the one behind the bytes before it.** -/
theorem location_eq_behind (s : List Char) (o : Nat) :
    (ofText s).location o = Location.behind ((bytes s).take o) := by
  obtain ⟨width, widths, h⟩ := List.exists_cons_of_ne_nil (widths_ne_nil s)
  have hlocated := locate_eq_foldl s 1 0 o width widths h
  rw [Nat.zero_add, Nat.zero_add, ← h] at hlocated
  rw [Location.behind_eq_foldl]
  exact hlocated

/-! ## Offsets and locations that name the same position -/

theorem seek_eq_some_iff {widths : List Nat} (hne : widths ≠ []) {line above column o : Nat} :
    seek above column widths = some o ↔
      o ≤ sizeOfWidths widths ∧ locate line o widths = ⟨line + above, column + 1⟩ := by
  induction widths generalizing line above o with
  | nil => exact absurd rfl hne
  | cons width rest ih =>
    by_cases hrest : rest = []
    · subst hrest
      cases above with
      | zero => simp [seek, sizeOfWidths, locate]; omega
      | succ above => simp [seek, locate]
    · rw [sizeOfWidths_cons hrest]
      by_cases hle : o ≤ width
      · rw [locate_of_le hle]
        cases above with
        | zero => simp [seek]; omega
        | succ above => simp [seek]; intros; omega
      · obtain ⟨k, rfl⟩ := Nat.exists_eq_add_of_lt (Nat.lt_of_not_le hle)
        rw [locate_of_lt (by omega) line hrest]
        cases above with
        | zero =>
          have hline := le_line_locate (line + 1) (width + k + 1 - (width + 1)) rest
          refine iff_of_false (by simp [seek]; omega) ?_
          rintro ⟨-, h⟩
          rw [h] at hline
          exact absurd hline (by simp)
        | succ above =>
          have hbelow : seek above column rest = some k ↔ k ≤ sizeOfWidths rest ∧
              locate (line + 1) k rest = ⟨line + 1 + above, column + 1⟩ := ih hrest
          have hoffset : width + k + 1 = width + 1 + k := Nat.add_right_comm width k 1
          have hline : line + (above + 1) = line + 1 + above := by omega
          rw [hoffset, Nat.add_sub_cancel_left, Nat.add_le_add_iff_left, hline, ← hbelow, seek]
          simp [Option.map_eq_some_iff]

/-- **A location names a position just when it is the location of an offset of the text.** -/
theorem place?_eq_some_iff (hne : index.widths ≠ []) :
    index.place? l = some o ↔ o ≤ index.size ∧ index.location o = l := by
  by_cases hl : l.line = 0 ∨ l.column = 0
  · rw [place?, if_pos hl]
    refine iff_of_false nofun ?_
    rintro ⟨-, rfl⟩
    have hline := index.line_location_pos o
    have hcolumn := index.column_location_pos o
    omega
  · obtain ⟨hline, hcolumn⟩ := not_or.mp hl
    have hself : (⟨1 + (l.line - 1), l.column - 1 + 1⟩ : Location) = l := by
      rw [Nat.add_sub_cancel' (Nat.pos_of_ne_zero hline),
        Nat.sub_add_cancel (Nat.pos_of_ne_zero hcolumn)]
    have hseek : seek (l.line - 1) (l.column - 1) index.widths = some o ↔ o ≤ index.size ∧
        index.location o = ⟨1 + (l.line - 1), l.column - 1 + 1⟩ := seek_eq_some_iff hne
    rw [place?, if_neg hl, hseek, hself]

theorem place?_location (hne : index.widths ≠ []) (h : o ≤ index.size) :
    index.place? (index.location o) = some o :=
  (place?_eq_some_iff hne).mpr ⟨h, rfl⟩

/-- The sum for a position fits, if only the place behind it is a machine word. -/
theorem fits_of_place? (h : index.place? l = some o) (ho : o + 1 < UInt64.size) :
    index.fits l = true := by
  obtain ⟨-, -, hseek⟩ := seek_of_place? h
  rw [seek_eq_lineSpan?, Option.bind_eq_some_iff] at hseek
  obtain ⟨s, hs, hsum⟩ := hseek
  obtain ⟨-, hsum⟩ := Option.ite_none_right_eq_some.mp hsum
  have hoffset : s.start + (l.column - 1) = o := Option.some.inj hsum
  rw [fits, hs, Option.all_some, decide_eq_true_eq]
  omega

/-- **Where the sum fits, a location has the offset whose location it is, and no other.** -/
theorem offset?_eq_some_iff (hne : index.widths ≠ []) (hfits : index.fits l = true) :
    index.offset? l = some o ↔ o ≤ index.size ∧ index.location o = l := by
  rw [offset?_eq_place? hfits, place?_eq_some_iff hne]

/-- Two positions between characters are in order by their lines first, and by the bytes before them on
their line. -/
theorem byteSize_le_iff_lines {s t u v : List Char} (h : s ++ t = u ++ v) :
    byteSize s ≤ byteSize u ↔ s.count '\n' < u.count '\n' ∨
      s.count '\n' = u.count '\n' ∧ byteSize (lastLine s) ≤ byteSize (lastLine u) := by
  have hplace (s t : List Char) : (ofText (s ++ t)).place?
      ⟨s.count '\n' + 1, byteSize (lastLine s) + 1⟩ = some (byteSize s) := by
    rw [← location_append s t]
    refine place?_location (widths_ne_nil _) ?_
    rw [size_ofText, byteSize_append]
    exact Nat.le_add_right _ _
  have hs := hplace s t
  rw [h] at hs
  rw [← place?_le_iff hs (hplace u v), Location.le_def]
  simp only [Nat.add_lt_add_iff_right, Nat.add_right_cancel_iff, Nat.add_le_add_iff_right]

/-! ## The positions of a text -/

theorem size_eq_length_bytes (s : List Char) : (ofText s).size = (bytes s).length := by
  rw [size_ofText, length_bytes]

/-- A location that names a position of a text: the location of one of its offsets, the length
included. -/
def IsPosition (s : List Char) (l : Location) : Prop :=
  ∃ o, o ≤ (bytes s).length ∧ (ofText s).location o = l

variable {s : List Char}

theorem IsPosition.column_le (h : IsPosition s l) : l.column ≤ (bytes s).length + 1 := by
  obtain ⟨o, ho, rfl⟩ := h
  exact ((ofText s).column_location_le o).trans (Nat.succ_le_succ ho)

theorem place?_location_ofText (h : o ≤ (bytes s).length) :
    (ofText s).place? ((ofText s).location o) = some o :=
  place?_location (widths_ne_nil s) (h.trans_eq (size_eq_length_bytes s).symm)

theorem isSome_place?_iff : ((ofText s).place? l).isSome = true ↔ IsPosition s l := by
  simp only [Option.isSome_iff_exists, place?_eq_some_iff (widths_ne_nil s),
    size_eq_length_bytes, IsPosition]

/-- The offsets of a text, its length included, and the locations that name its positions, in the same
order. -/
def positions (s : List Char) : {o // o ≤ (bytes s).length} ≃o {l // IsPosition s l} where
  toFun o := ⟨(ofText s).location o, o, o.2, rfl⟩
  invFun l := ⟨((ofText s).place? l).get (isSome_place?_iff.mpr l.2), by
    rw [← size_eq_length_bytes]
    exact ((place?_eq_some_iff (widths_ne_nil s)).mp (Option.some_get _).symm).1⟩
  left_inv o := by
    refine Subtype.ext (Option.some.inj ?_)
    rw [Option.some_get]
    exact place?_location_ofText o.2
  right_inv l :=
    Subtype.ext ((place?_eq_some_iff (widths_ne_nil s)).mp (Option.some_get _).symm).2
  map_rel_iff' {a b} :=
    place?_le_iff (place?_location_ofText a.2) (place?_location_ofText b.2)

theorem le_location_iff {m n : Nat} (hm : m ≤ (bytes s).length) (hn : n ≤ (bytes s).length) :
    (ofText s).location m ≤ (ofText s).location n ↔ m ≤ n :=
  place?_le_iff (place?_location_ofText hm) (place?_location_ofText hn)

/-- A range and a byte span of a text with the same positions for ends, in order. -/
structure Spans (s : List Char) (r : SourceRange) (span : Span Nat) : Prop where
  range : r = ⟨(ofText s).location span.start, (ofText s).location span.stop⟩
  forward : span.start ≤ span.stop
  size : span.stop ≤ (bytes s).length

theorem offset?_ofText_eq_some_iff (hfits : (ofText s).fits l = true) :
    (ofText s).offset? l = some o ↔ o ≤ (bytes s).length ∧ (ofText s).location o = l := by
  rw [offset?_eq_some_iff (widths_ne_nil s) hfits, size_eq_length_bytes]

theorem isSome_offset?_iff (hfits : (ofText s).fits l = true) :
    ((ofText s).offset? l).isSome = true ↔ IsPosition s l := by
  rw [offset?_eq_place? hfits, isSome_place?_iff]

/-- **The byte span of a range is the one between the same positions**, where the sums fit. -/
theorem offsets?_eq_some_iff_spans {r : SourceRange} {span : Span Nat}
    (hfits : (ofText s).fitsRange r = true) :
    (ofText s).offsets? r = some span ↔ Spans s r span := by
  obtain ⟨hstartFits, hstopFits⟩ := fitsRange_iff.mp hfits
  rw [offsets?_eq_some_iff, offset?_ofText_eq_some_iff hstartFits,
    offset?_ofText_eq_some_iff hstopFits]
  constructor
  · rintro ⟨⟨-, hstart⟩, ⟨hsize, hstop⟩, hle⟩
    exact ⟨by rw [hstart, hstop], hle, hsize⟩
  · rintro ⟨rfl, hle, hsize⟩
    exact ⟨⟨hle.trans hsize, rfl⟩, ⟨hsize, rfl⟩, hle⟩

/-- A range has a byte span just when its ends are positions in order. -/
theorem isSome_offsets?_iff {r : SourceRange} (hfits : (ofText s).fitsRange r = true) :
    ((ofText s).offsets? r).isSome = true ↔
      IsPosition s r.start ∧ IsPosition s r.stop ∧ r.start ≤ r.stop := by
  obtain ⟨hstartFits, hstopFits⟩ := fitsRange_iff.mp hfits
  rw [← isSome_offset?_iff hstartFits, ← isSome_offset?_iff hstopFits]
  simp only [Option.isSome_iff_exists]
  constructor
  · rintro ⟨span, h⟩
    obtain ⟨hstart, hstop, hle⟩ := offsets?_eq_some_iff.mp h
    exact ⟨⟨_, hstart⟩, ⟨_, hstop⟩, (offset?_le_iff hstartFits hstopFits hstart hstop).mpr hle⟩
  · rintro ⟨⟨start, hstart⟩, ⟨stop, hstop⟩, hle⟩
    exact ⟨⟨start, stop⟩, offsets?_eq_some_iff.mpr
      ⟨hstart, hstop, (offset?_le_iff hstartFits hstopFits hstart hstop).mp hle⟩⟩

/-! ## Texts that machine words count -/

section Counted

variable (hsize : (bytes s).length + 1 < UInt64.size)
include hsize

/-- The sums for the positions of a text fit. -/
theorem IsPosition.fits (h : IsPosition s l) : (ofText s).fits l = true := by
  obtain ⟨o, ho, rfl⟩ := h
  exact fits_of_place? (place?_location_ofText ho) (by omega)

theorem offset?_location_ofText (h : o ≤ (bytes s).length) :
    (ofText s).offset? ((ofText s).location o) = some o :=
  (offset?_ofText_eq_some_iff (IsPosition.fits hsize ⟨o, h, rfl⟩)).mpr ⟨h, rfl⟩

/-- The sums for a range with positions for ends fit. -/
theorem Spans.fitsRange {r : SourceRange} {span : Span Nat} (h : Spans s r span) :
    (ofText s).fitsRange r = true := by
  obtain ⟨rfl, hle, hstop⟩ := h
  exact fitsRange_iff.mpr ⟨IsPosition.fits hsize ⟨_, hle.trans hstop, rfl⟩,
    IsPosition.fits hsize ⟨_, hstop, rfl⟩⟩

/-- **An offset is that of the location exactly when the sum for it fits.** -/
theorem location_of_offset?_iff (h : (ofText s).offset? l = some o) :
    o ≤ (bytes s).length ∧ (ofText s).location o = l ↔ (ofText s).fits l = true :=
  ⟨fun ⟨ho, hl⟩ => IsPosition.fits hsize ⟨o, ho, hl⟩,
    fun hfits => (offset?_ofText_eq_some_iff hfits).mp h⟩

end Counted

/-- A text's offsets and the locations that name its positions correspond in order. -/
structure OffsetsCorrespond (s : List Char) : Prop where
  /-- The length is that of the text in bytes. -/
  size : (ofText s).size = (bytes s).length
  /-- A location tells the newlines before its position and the bytes behind the last of them. -/
  location : ∀ o, o ≤ (bytes s).length → (ofText s).location o =
    ⟨1 + ((bytes s).take o).count newlineByte,
      1 + (((bytes s).take o).rtakeWhile (· ≠ newlineByte)).length⟩
  /-- Offsets beyond the end have the location of the end. -/
  beyond : ∀ o, (bytes s).length < o → (ofText s).location o = (ofText s).location (bytes s).length
  /-- The location of an offset has that offset. -/
  offset : ∀ o, o ≤ (bytes s).length → (ofText s).offset? ((ofText s).location o) = some o
  /-- A location that has an offset is the location of it, unless the sum for it does not fit. -/
  named : ∀ l o, (ofText s).offset? l = some o →
    (o ≤ (bytes s).length ∧ (ofText s).location o = l ↔ (ofText s).fits l = true)
  /-- The lesser of two locations has the lesser offset. -/
  ordered : ∀ a b m n, (ofText s).fits a = true → (ofText s).fits b = true →
    (ofText s).offset? a = some m → (ofText s).offset? b = some n → (a ≤ b ↔ m ≤ n)
  /-- A range has a byte span exactly when its ends name positions and are in order. -/
  range : ∀ r, (ofText s).fitsRange r = true → (((ofText s).offsets? r).isSome = true ↔
    IsPosition s r.start ∧ IsPosition s r.stop ∧ r.start ≤ r.stop)
  /-- The correspondence is the order isomorphism `positions`. -/
  positions : ∀ o, (positions s o : Location) = (ofText s).location o
  position : ∀ l h, (ofText s).offset? l = some ((LineIndex.positions s).symm ⟨l, h⟩ : Nat)

/-- **A text's offsets and the locations that name its positions correspond in order**, as far as the
sums of lines and columns fit machine words, which count the text and the place behind its end. -/
theorem ofText_spec (s : List Char) (hsize : (bytes s).length + 1 < UInt64.size) :
    OffsetsCorrespond s where
  size := size_eq_length_bytes s
  location o ho := by rw [location_eq_behind, Location.behind, Nat.add_comm 1, Nat.add_comm 1]
  beyond o ho := by
    rw [location_eq_behind, location_eq_behind, List.take_of_length_le ho.le, List.take_length]
  offset o ho := offset?_location_ofText hsize ho
  named l o h := location_of_offset?_iff hsize h
  ordered a b m n ha hb := offset?_le_iff ha hb
  range r hfits := isSome_offsets?_iff hfits
  positions o := rfl
  position l h := by
    rw [offset?_eq_place? (h.fits hsize)]
    exact (Option.some_get _).symm

/-- A text with a newline behind a character of two bytes. -/
def accentedLine : List Char := ['é', '\n', '\n']

/-- A position inside the character and one where a newline stands, and the range between them. -/
theorem accentedLine_offsets : (bytes accentedLine).length + 1 < UInt64.size ∧
    (ofText accentedLine).offset? ⟨1, 2⟩ = some 1 ∧ (ofText accentedLine).offset? ⟨2, 1⟩ = some 3 ∧
    IsPosition accentedLine ⟨1, 2⟩ ∧ IsPosition accentedLine ⟨2, 1⟩ := by
  have hsize : (bytes accentedLine).length + 1 < UInt64.size := by decide
  have hspec := ofText_spec accentedLine hsize
  obtain ⟨hstart, hstop, -⟩ :=
    (hspec.range ⟨⟨1, 2⟩, ⟨2, 1⟩⟩ (by decide)).mp (by decide)
  exact ⟨hsize, hspec.offset 1 (by decide), hspec.offset 3 (by decide), hstart, hstop⟩

/-- Three lines of two bytes each. -/
def threeLines : String := "ab\ncd\nef"

/-- No position of a short text has a column far beyond. -/
theorem not_isPosition_threeLines {line column : Nat} (h : 9 < column) :
    ¬ IsPosition threeLines.toList ⟨line, column⟩ := by
  intro hposition
  have hcolumn := hposition.column_le
  have hlength : (bytes threeLines.toList).length = 8 := by decide
  simp only at hcolumn
  omega

/-- The greatest column of the second line has the offset of the second character of the first, whose
location is another. -/
theorem offset?_columnBeyond :
    let index := ofText threeLines.toList
    index.offset? ⟨2, 18446744073709551615⟩ = some 1 ∧ index.location 1 = ⟨1, 2⟩ ∧
      ¬ IsPosition threeLines.toList ⟨2, 18446744073709551615⟩ ∧
      index.fits ⟨2, 18446744073709551615⟩ = false :=
  ⟨by decide, by decide, not_isPosition_threeLines (by decide), by decide⟩

end LineIndex

end Retrace
