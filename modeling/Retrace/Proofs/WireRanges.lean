import Retrace.Proofs.Positions
import Retrace.Source.WireRange

/-!
# Ranges in their three shapes

Two shapes of a range name its last column, the third the offset behind its end. The three agree: a
range with positions for its ends is named by its byte span, and by the line and column of its first
byte with those of its last one. Where a range is empty, or ends where a line begins, the last column is
one less than the column of its start, and may be zero. All this is so as long as the sums of lines and
columns fit machine words; a column far beyond its line may name a range that the text does not have.

* `WireRange.Names`: the range that a shape names by the positions of a text.
* `resolve?_eq_some_iff_names`: where the sums fit, a wire range stands for the range that it names.
* `resolve?_offsets_eq_some_iff`: the offset shape names the range with that byte span.
* `resolve?_lastColumn`: how a range is named by its last column.
* `shapes_agree`: what the shapes stand for in a text.
* `resolve?_columnBeyond`: a range that stands for one that it does not name.
-/

namespace Retrace.WireRange

open LineIndex

variable {index : LineIndex} {wire : WireRange} {r : SourceRange} {s : List Char}

/-- A range that is named is accepted when it runs forwards and has a byte span. -/
theorem resolve?_eq_some_iff :
    wire.resolve? index = some r ↔
      wire.toRange? index = some r ∧ r.start ≤ r.stop ∧ (index.offsets? r).isSome = true := by
  unfold resolve?
  simp only [Option.bind_eq_bind, Option.bind_eq_some_iff]
  constructor
  · rintro ⟨range, hrange, h⟩
    split at h
    · cases h
    · next hforward =>
      obtain ⟨span, hspan, h⟩ := Option.bind_eq_some_iff.mp h
      cases h
      exact ⟨hrange, not_lt.mp hforward, Option.isSome_iff_exists.mpr ⟨span, hspan⟩⟩
  · rintro ⟨hrange, hforward, hsome⟩
    obtain ⟨span, hspan⟩ := Option.isSome_iff_exists.mp hsome
    exact ⟨r, hrange, by simp [not_lt.mpr hforward, hspan]⟩

/-- The range that a shape names by the positions of a text. -/
def Names (s : List Char) : WireRange → SourceRange → Prop
  | .location sl sc el ec, r | .lines sl sc el ec, r =>
    IsPosition s ⟨sl, sc⟩ ∧ IsPosition s ⟨el, ec + 1⟩ ∧ r.start ≤ r.stop ∧
      r = ⟨⟨sl, sc⟩, ⟨el, ec + 1⟩⟩
  | .offsets start stop, r => Spans s r ⟨start, stop⟩

/-- The two shapes with a last column, by the same numbers. -/
def byColumns (sl sc el ec : Nat) : List WireRange := [location sl sc el ec, lines sl sc el ec]

section Columns

variable {sl sc el ec : Nat} (h : wire ∈ byColumns sl sc el ec)
include h

theorem toRange?_byColumns (hec : ec + 1 < UInt64.size) :
    wire.toRange? index = some ⟨⟨sl, sc⟩, ⟨el, ec + 1⟩⟩ := by
  have hsum : wordSum ec 1 = ec + 1 := wordSum_of_lt hec
  rcases List.mem_pair.mp h with rfl | rfl <;> rw [toRange?, SourceRange.ofInclusive, hsum]

theorem fits_byColumns_iff : wire.fits index = true ↔
    ec + 1 < UInt64.size ∧ index.fitsRange ⟨⟨sl, sc⟩, ⟨el, ec + 1⟩⟩ = true := by
  have hfits : wire.fits index =
      (decide (ec + 1 < UInt64.size) && (wire.toRange? index).all index.fitsRange) := by
    rcases List.mem_pair.mp h with rfl | rfl <;> rfl
  rw [hfits, Bool.and_eq_true, decide_eq_true_eq]
  refine and_congr_right fun hec => ?_
  rw [toRange?_byColumns h hec, Option.all_some]

theorem names_byColumns_iff : wire.Names s r ↔ IsPosition s ⟨sl, sc⟩ ∧
    IsPosition s ⟨el, ec + 1⟩ ∧ r.start ≤ r.stop ∧ r = ⟨⟨sl, sc⟩, ⟨el, ec + 1⟩⟩ := by
  rcases List.mem_pair.mp h with rfl | rfl <;> rfl

theorem resolve?_byColumns_eq_some_iff (hfits : wire.fits (ofText s) = true) :
    wire.resolve? (ofText s) = some r ↔ wire.Names s r := by
  obtain ⟨hec, hrange⟩ := (fits_byColumns_iff h).mp hfits
  rw [resolve?_eq_some_iff, toRange?_byColumns h hec, names_byColumns_iff h, Option.some_inj]
  constructor
  · rintro ⟨rfl, hforward, hsome⟩
    obtain ⟨hstart, hstop, -⟩ := (isSome_offsets?_iff hrange).mp hsome
    exact ⟨hstart, hstop, hforward, rfl⟩
  · rintro ⟨hstart, hstop, hforward, rfl⟩
    exact ⟨rfl, hforward, (isSome_offsets?_iff hrange).mpr ⟨hstart, hstop, hforward⟩⟩

end Columns

/-- **The offset shape names the range between the locations of its offsets.** -/
theorem resolve?_offsets_eq_some_iff {start stop : Nat}
    (hfits : (offsets start stop).fits (ofText s) = true) :
    (offsets start stop).resolve? (ofText s) = some r ↔ Spans s r ⟨start, stop⟩ := by
  rw [resolve?_eq_some_iff, toRange?, size_eq_length_bytes]
  constructor
  · rintro ⟨hrange, -⟩
    split at hrange
    · cases hrange
    · next hbounds =>
      obtain ⟨hle, hsize⟩ := not_or.mp hbounds
      exact ⟨(Option.some.inj hrange).symm, not_lt.mp hle, not_lt.mp hsize⟩
  · rintro ⟨rfl, hle, hsize⟩
    have hbounds : ¬ (stop < start ∨ (Text.bytes s).length < stop) :=
      not_or.mpr ⟨not_lt.mpr hle, not_lt.mpr hsize⟩
    have hrange : (ofText s).fitsRange
        ⟨(ofText s).location start, (ofText s).location stop⟩ = true := by
      simpa [fits, toRange?, size_eq_length_bytes, hbounds] using hfits
    rw [if_neg hbounds, (offsets?_eq_some_iff_spans hrange).mpr ⟨rfl, hle, hsize⟩]
    exact ⟨rfl, (le_location_iff (hle.trans hsize) hsize).mpr hle, rfl⟩

/-- **Where the sums fit, a wire range stands for the range that it names**, and for no other. -/
theorem resolve?_eq_some_iff_names (hfits : wire.fits (ofText s) = true) :
    wire.resolve? (ofText s) = some r ↔ wire.Names s r := by
  cases wire with
  | location sl sc el ec => exact resolve?_byColumns_eq_some_iff List.mem_cons_self hfits
  | lines sl sc el ec =>
    exact resolve?_byColumns_eq_some_iff (List.mem_cons_of_mem _ List.mem_cons_self) hfits
  | offsets start stop => exact resolve?_offsets_eq_some_iff hfits

/-- An empty range at the start of a line ends in column zero when its last column is named. -/
example : (location 2 1 2 0).resolve? (ofText ['a', '\n']) = some ⟨⟨2, 1⟩, ⟨2, 1⟩⟩ := by
  decide

/-! ## Texts that machine words count -/

section Counted

variable (hsize : (Text.bytes s).length + 1 < UInt64.size)
include hsize

/-- The sums for offsets fit. -/
theorem fits_offsets (start stop : Nat) : (offsets start stop).fits (ofText s) = true := by
  simp only [fits, toRange?, Bool.true_and]
  split_ifs with hbounds
  · rfl
  · rw [size_eq_length_bytes] at hbounds
    rw [Option.all_some, fitsRange_iff]
    exact ⟨IsPosition.fits hsize ⟨start, by omega, rfl⟩,
      IsPosition.fits hsize ⟨stop, by omega, rfl⟩⟩

theorem resolve?_offsets_eq_some_iff_offsets? {start stop : Nat} :
    (offsets start stop).resolve? (ofText s) = some r ↔
      (ofText s).fitsRange r = true ∧ (ofText s).offsets? r = some ⟨start, stop⟩ := by
  rw [resolve?_offsets_eq_some_iff (fits_offsets hsize start stop)]
  exact ⟨fun h => ⟨h.fitsRange hsize, (offsets?_eq_some_iff_spans (h.fitsRange hsize)).mpr h⟩,
    fun ⟨hfits, h⟩ => (offsets?_eq_some_iff_spans hfits).mp h⟩

/-- A range is also named by the column before its end. -/
theorem resolve?_lastColumn {span : Span Nat} (hspans : Spans s r span)
    (h : wire ∈ byColumns r.start.line r.start.column r.stop.line (r.stop.column - 1)) :
    wire.resolve? (ofText s) = some r := by
  have hfitsRange := hspans.fitsRange hsize
  obtain ⟨rfl, hle, hstop⟩ := hspans
  have hpos := (ofText s).column_location_pos span.stop
  have hcolumn := (ofText s).column_location_le span.stop
  have hself : ((ofText s).location span.stop).column - 1 + 1 =
      ((ofText s).location span.stop).column := Nat.sub_add_cancel hpos
  have hfits : wire.fits (ofText s) = true := by
    rw [fits_byColumns_iff h, hself]
    exact ⟨by omega, hfitsRange⟩
  rw [resolve?_byColumns_eq_some_iff h hfits, names_byColumns_iff h, hself]
  exact ⟨⟨_, hle.trans hstop, rfl⟩, ⟨_, hstop, rfl⟩,
    (le_location_iff (hle.trans hstop) hstop).mpr hle, rfl⟩

end Counted

/-- The three shapes of a range agree in a text. -/
structure ShapesAgree (s : List Char) : Prop where
  /-- Offsets name a range exactly when they are in order and in the text. -/
  isSome_offsets : ∀ start stop, ((offsets start stop).resolve? (ofText s)).isSome = true ↔
    start ≤ stop ∧ stop ≤ (Text.bytes s).length
  /-- It is the one range with that byte span. -/
  span : ∀ start stop r, (offsets start stop).resolve? (ofText s) = some r ↔
    (ofText s).fitsRange r = true ∧ (ofText s).offsets? r = some ⟨start, stop⟩
  /-- Its lines and columns, the last one inclusive, name it too. -/
  lastColumn : ∀ start stop r, (offsets start stop).resolve? (ofText s) = some r →
    let first := (ofText s).location start
    let behind := (ofText s).location stop
    ∀ wire ∈ byColumns first.line first.column behind.line (behind.column - 1),
      wire.resolve? (ofText s) = some r
  /-- A start and an inclusive end name a range exactly when the start and the place one column behind
  the end are positions of the text, in order. -/
  isSome_byColumns : ∀ sl sc el ec, ∀ wire ∈ byColumns sl sc el ec, wire.fits (ofText s) = true →
    ((wire.resolve? (ofText s)).isSome = true ↔ IsPosition s ⟨sl, sc⟩ ∧
      IsPosition s ⟨el, ec + 1⟩ ∧ (⟨sl, sc⟩ : Location) ≤ ⟨el, ec + 1⟩)
  /-- It reaches from the one to the other, and its byte span names it too. -/
  byColumns : ∀ sl sc el ec, ∀ wire ∈ byColumns sl sc el ec, wire.fits (ofText s) = true →
    ∀ r, wire.resolve? (ofText s) = some r → r = ⟨⟨sl, sc⟩, ⟨el, ec + 1⟩⟩ ∧
      ∃ span, (ofText s).offsets? r = some span ∧
        (offsets span.start span.stop).resolve? (ofText s) = some r

/-- **The three shapes of a range agree**, as far as the sums of lines and columns fit machine words,
which count the text and the place behind its end. -/
theorem shapes_agree (s : List Char) (hsize : (Text.bytes s).length + 1 < UInt64.size) :
    ShapesAgree s where
  isSome_offsets start stop := by
    simp only [Option.isSome_iff_exists, resolve?_offsets_eq_some_iff (fits_offsets hsize start stop)]
    exact ⟨fun ⟨r, h⟩ => ⟨h.forward, h.size⟩, fun ⟨hle, hstop⟩ => ⟨_, rfl, hle, hstop⟩⟩
  span start stop r := resolve?_offsets_eq_some_iff_offsets? hsize
  lastColumn start stop r h := by
    have hspans := (resolve?_offsets_eq_some_iff (fits_offsets hsize start stop)).mp h
    obtain rfl := hspans.range
    exact fun wire hwire => resolve?_lastColumn hsize hspans hwire
  isSome_byColumns sl sc el ec wire hwire hfits := by
    simp only [Option.isSome_iff_exists, resolve?_byColumns_eq_some_iff hwire hfits,
      names_byColumns_iff hwire]
    constructor
    · rintro ⟨r, hstart, hstop, hforward, rfl⟩
      exact ⟨hstart, hstop, hforward⟩
    · rintro ⟨hstart, hstop, hforward⟩
      exact ⟨_, hstart, hstop, hforward, rfl⟩
  byColumns sl sc el ec wire hwire hfits r h := by
    obtain ⟨-, hrange⟩ := (fits_byColumns_iff hwire).mp hfits
    obtain ⟨-, -, -, rfl⟩ := (names_byColumns_iff hwire).mp
      ((resolve?_byColumns_eq_some_iff hwire hfits).mp h)
    obtain ⟨-, -, hsome⟩ := resolve?_eq_some_iff.mp h
    obtain ⟨span, hspan⟩ := Option.isSome_iff_exists.mp hsome
    exact ⟨rfl, span, hspan,
      (resolve?_offsets_eq_some_iff_offsets? hsize).mpr ⟨hrange, hspan⟩⟩

/-- From inside the character to the empty second line: offsets, and an inclusive end in column zero. -/
theorem accentedLine_shapes : (Text.bytes accentedLine).length + 1 < UInt64.size ∧
    (offsets 1 3).resolve? (ofText accentedLine) = some ⟨⟨1, 2⟩, ⟨2, 1⟩⟩ ∧
    (location 1 2 2 0).resolve? (ofText accentedLine) = some ⟨⟨1, 2⟩, ⟨2, 1⟩⟩ ∧
    (lines 1 2 2 0).resolve? (ofText accentedLine) = some ⟨⟨1, 2⟩, ⟨2, 1⟩⟩ := by
  have hsize : (Text.bytes accentedLine).length + 1 < UInt64.size := by decide
  have hagree := shapes_agree accentedLine hsize
  have hoffsets := (hagree.span 1 3 ⟨⟨1, 2⟩, ⟨2, 1⟩⟩).mpr ⟨by decide, by decide⟩
  have hcolumns := hagree.lastColumn 1 3 _ hoffsets
  exact ⟨hsize, hoffsets, hcolumns _ List.mem_cons_self,
    hcolumns _ (List.mem_cons_of_mem _ List.mem_cons_self)⟩

/-- A start in the greatest column of the second line is no position, and yet the range resolves; its
byte span is that of another range. -/
theorem resolve?_columnBeyond :
    let index := ofText threeLines.toList
    (location 2 18446744073709551615 3 1).resolve? index =
      some ⟨⟨2, 18446744073709551615⟩, ⟨3, 2⟩⟩ ∧
    ¬ IsPosition threeLines.toList ⟨2, 18446744073709551615⟩ ∧
    index.offsets? ⟨⟨2, 18446744073709551615⟩, ⟨3, 2⟩⟩ = some ⟨1, 7⟩ ∧
    (offsets 1 7).resolve? index = some ⟨⟨1, 2⟩, ⟨3, 2⟩⟩ :=
  ⟨by decide, not_isPosition_threeLines (by decide), by decide, by decide⟩

end Retrace.WireRange
