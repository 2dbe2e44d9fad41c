import Mathlib.Data.List.Sort
import Mathlib.Data.Prod.Lex
import Retrace.Proofs.Loading
import Retrace.Proofs.Scoping

/-!
# Statement labels

A label tells the line of a statement and the place of its range among all ranges of statements that
start on the line. Places are counted by the order of ranges, so labels do not depend on when or how
often the statements ran, and different ranges have different labels.

* `StatementRange`: a range of a statement step.
* `LineRanges`: the ranges of statements that start on a line, in order.
* `rank_of_lineRanges`: the rank of a range is its place among them.
* `text_injective`, `ofRange_injective`: a label tells its line and place, and so its range.
* `assign_assign`: labelling once more changes nothing.
* `assign_spec`: what labelling makes of the steps.
-/

namespace Retrace

/-! ## The order of ranges -/

section Order

variable {α : Type} {q r : Span α}

/-- The ends of a span as a pair that is ordered by its first member. -/
def Span.ends (s : Span α) : α ×ₗ α := toLex (s.start, s.stop)

theorem Span.ends_injective (h : q.ends = r.ends) : q = r := by
  cases q
  cases r
  cases h
  rfl

variable [LinearOrder α]

theorem Span.precedes_iff :
    q.precedes r = true ↔ q.start < r.start ∨ q.start = r.start ∧ q.stop < r.stop := by
  unfold precedes
  simp only [Bool.or_eq_true, Bool.and_eq_true, Bool.not_eq_true', decide_eq_true_eq,
    decide_eq_false_iff_not, not_lt]
  constructor
  · rintro (h | ⟨hle, h⟩)
    · exact .inl h
    · exact hle.lt_or_eq.imp id fun heq => ⟨heq, h⟩
  · rintro (h | ⟨heq, h⟩)
    · exact .inl h
    · exact .inr ⟨heq.le, h⟩

theorem Span.precedes_iff_ends_lt : q.precedes r = true ↔ q.ends < r.ends := by
  rw [precedes_iff, ends, ends, Prod.Lex.toLex_lt_toLex]

end Order

namespace Label

variable {steps steps' : List Step} {s t : Step} {q r : SourceRange}
  {ranges : List SourceRange} {line i : Nat}

/-! ## The ranges of a line -/

/-- A range that some statement step has. -/
def StatementRange (steps : List Step) (r : SourceRange) : Prop :=
  ∃ s ∈ steps, s.isStatement = true ∧ s.range = some r

theorem statementRange?_eq_some_iff :
    statementRange? s = some r ↔ s.isStatement = true ∧ s.range = some r :=
  Option.ite_none_right_eq_some

theorem mem_statementRanges : r ∈ statementRanges steps ↔ StatementRange steps r := by
  unfold statementRanges StatementRange
  rw [mem_distinct, List.mem_filterMap]
  simp only [statementRange?_eq_some_iff]

theorem nodup_statementRanges (steps : List Step) : (statementRanges steps).Nodup :=
  nodup_distinct _

/-- The ranges of statements that start on a line, each once and in order: by their starts, then by
their ends. -/
structure LineRanges (steps : List Step) (line : Nat) (ranges : List SourceRange) : Prop where
  ordered : ranges.Pairwise fun q r => q.start < r.start ∨ q.start = r.start ∧ q.stop < r.stop
  mem : ∀ r, r ∈ ranges ↔ r.start.line = line ∧ StatementRange steps r

theorem LineRanges.pairwise_ends (h : LineRanges steps line ranges) :
    ranges.Pairwise fun q r => q.ends < r.ends :=
  h.ordered.imp fun hqr => Span.precedes_iff_ends_lt.mp (Span.precedes_iff.mpr hqr)

theorem LineRanges.nodup (h : LineRanges steps line ranges) : ranges.Nodup :=
  h.pairwise_ends.imp fun hlt heq => absurd hlt (by rw [heq]; exact lt_irrefl _)

theorem exists_lineRanges (steps : List Step) (line : Nat) :
    ∃ ranges, LineRanges steps line ranges := by
  let found := (statementRanges steps).filter fun r => r.start.line == line
  let sorted := found.mergeSort fun q r => decide (q.ends ≤ r.ends)
  have hperm : sorted.Perm found := List.mergeSort_perm _ _
  have hnodup : sorted.Nodup :=
    hperm.nodup_iff.mpr ((nodup_statementRanges steps).filter _)
  have hsorted : sorted.Pairwise fun q r => q.ends ≤ r.ends :=
    List.pairwise_mergeSort' (fun q r : SourceRange => q.ends ≤ r.ends) found
  refine ⟨sorted, (hsorted.and hnodup).imp ?_, fun r => ?_⟩
  · rintro q r ⟨hle, hne⟩
    have hlt : q.ends < r.ends := lt_of_le_of_ne hle fun heq => hne (Span.ends_injective heq)
    exact Span.precedes_iff.mp (Span.precedes_iff_ends_lt.mpr hlt)
  · rw [hperm.mem_iff, List.mem_filter, mem_statementRanges, beq_iff_eq, and_comm]

/-- In a list in order, the members before one are as many as its place says. -/
theorem length_filter_precedes (h : ranges.Pairwise fun q r => q.ends < r.ends)
    (hi : ranges[i]? = some r) : (ranges.filter (·.precedes r)).length = i := by
  induction ranges generalizing i with
  | nil => cases hi
  | cons q rest ih =>
    obtain ⟨hq, hrest⟩ := List.pairwise_cons.mp h
    cases i with
    | zero =>
      obtain rfl : q = r := Option.some.inj hi
      rw [List.length_eq_zero_iff, List.filter_eq_nil_iff]
      intro p hp hprecedes
      have hlt := Span.precedes_iff_ends_lt.mp hprecedes
      rcases List.mem_cons.mp hp with rfl | hp
      · exact lt_irrefl _ hlt
      · exact lt_asymm hlt (hq p hp)
    | succ i =>
      have hr : r ∈ rest := List.mem_of_getElem? hi
      have hfirst : q.precedes r = true := Span.precedes_iff_ends_lt.mpr (hq r hr)
      rw [List.filter_cons, if_pos hfirst, List.length_cons, ih hrest hi]

/-- **The rank of a range is its place among the ranges of its line.** -/
theorem rank_of_lineRanges (h : LineRanges steps line ranges) (hi : ranges[i]? = some r) :
    rank (statementRanges steps) r = i := by
  have hline : r.start.line = line := ((h.mem r).mp (List.mem_of_getElem? hi)).1
  have hperm : ((statementRanges steps).filter fun q => q.start.line == line).Perm ranges := by
    refine (List.perm_ext_iff_of_nodup ((nodup_statementRanges steps).filter _) h.nodup).mpr fun q => ?_
    rw [List.mem_filter, mem_statementRanges, beq_iff_eq, and_comm, h.mem]
  unfold rank
  simp only [hline, Bool.and_comm (_ == line)]
  rw [← List.filter_filter, (hperm.filter _).length_eq]
  exact length_filter_precedes h.pairwise_ends hi

theorem LineRanges.congr (h : LineRanges steps line ranges)
    (hsame : ∀ r, StatementRange steps r ↔ StatementRange steps' r) :
    LineRanges steps' line ranges where
  ordered := h.ordered
  mem r := (h.mem r).trans (and_congr_right' (hsame r))

/-! ## Labels and ranges -/

/-- The label for a line and a place on it, both from one. -/
def text (line place : Nat) : String := "l" ++ toString line ++ ":" ++ toString place

theorem eq_of_toDigits_eq {m n : Nat} (h : Nat.toDigits 10 m = Nat.toDigits 10 n) : m = n := by
  rw [← Nat.ofDigitChars_ten_toDigits (n := m), h, Nat.ofDigitChars_ten_toDigits]

theorem colon_not_mem_toDigits (n : Nat) : ':' ∉ Nat.toDigits 10 n := fun h =>
  absurd (Nat.isDigit_of_mem_toDigits (by decide) (by decide) h) (by decide)

/-- A label tells its line and place. -/
theorem text_injective {line line' place place' : Nat} (h : text line place = text line' place') :
    line = line' ∧ place = place' := by
  have hchars := congrArg String.toList h
  simp only [text, Nat.toString_eq_repr, String.toList_append, Nat.toList_repr,
    List.append_assoc] at hchars
  have hdigits : Nat.toDigits 10 line ++ ':' :: Nat.toDigits 10 place =
      Nat.toDigits 10 line' ++ ':' :: Nat.toDigits 10 place' := List.append_cancel_left hchars
  rw [List.append_cons_inj_of_notMem (colon_not_mem_toDigits _) (colon_not_mem_toDigits _)]
    at hdigits
  exact ⟨eq_of_toDigits_eq hdigits.1, eq_of_toDigits_eq hdigits.2.2⟩

theorem ofRange_of_lineRanges (h : LineRanges steps line ranges) (hi : ranges[i]? = some r) :
    ofRange (statementRanges steps) r = text line (i + 1) := by
  rw [ofRange, rank_of_lineRanges h hi, ((h.mem r).mp (List.mem_of_getElem? hi)).1, text]

/-- Every range of a statement has a place on its line. -/
theorem StatementRange.exists_place (hr : StatementRange steps r) :
    ∃ (ranges : List SourceRange) (i : Nat),
      LineRanges steps r.start.line ranges ∧ ranges[i]? = some r := by
  obtain ⟨ranges, h⟩ := exists_lineRanges steps r.start.line
  obtain ⟨i, hi⟩ := List.getElem?_of_mem ((h.mem r).mpr ⟨rfl, hr⟩)
  exact ⟨ranges, i, h, hi⟩

/-- **Different ranges have different labels.** -/
theorem ofRange_injective (hq : StatementRange steps q) (hr : StatementRange steps r)
    (heq : ofRange (statementRanges steps) q = ofRange (statementRanges steps) r) : q = r := by
  obtain ⟨ranges, i, h, hi⟩ := hq.exists_place
  obtain ⟨ranges', j, h', hj⟩ := hr.exists_place
  rw [ofRange_of_lineRanges h hi, ofRange_of_lineRanges h' hj] at heq
  obtain ⟨hline, hplace⟩ := text_injective heq
  obtain rfl : i = j := Nat.succ.inj hplace
  obtain ⟨k, hk⟩ := List.getElem?_of_mem ((h.mem r).mpr ⟨hline.symm, hr⟩)
  obtain rfl : k = i := (rank_of_lineRanges h hk).symm.trans (rank_of_lineRanges h' hj)
  exact Option.some.inj (hi.symm.trans hk)

/-- A label depends on the set of ranges alone. -/
theorem ofRange_congr (hsame : ∀ r, StatementRange steps r ↔ StatementRange steps' r)
    (hr : StatementRange steps r) :
    ofRange (statementRanges steps) r = ofRange (statementRanges steps') r := by
  obtain ⟨ranges, i, h, hi⟩ := hr.exists_place
  rw [ofRange_of_lineRanges h hi, ofRange_of_lineRanges (h.congr hsame) hi]

/-! ## Labelled steps -/

/-- A statement step with a range and without a label. -/
structure Awaits (s : Step) (r : SourceRange) : Prop where
  isStatement : s.isStatement = true
  label : s.label = none
  range : s.range = some r

theorem Awaits.statementRange (h : Awaits s r) (hs : s ∈ steps) : StatementRange steps r :=
  ⟨s, hs, h.isStatement, h.range⟩

theorem assignStep_of_awaits (h : Awaits s r) :
    assignStep ranges s = { s with label := some (ofRange ranges r) } := by
  unfold assignStep
  rw [h.label, statementRange?_eq_some_iff.mpr ⟨h.isStatement, h.range⟩]

theorem label_assignStep (h : Awaits s r) :
    (assignStep ranges s).label = some (ofRange ranges r) := by
  rw [assignStep_of_awaits h]

theorem assignStep_of_not_awaits (h : ∀ r, ¬ Awaits s r) : assignStep ranges s = s := by
  unfold assignStep
  split
  · next r hlabel hrange =>
    obtain ⟨hstatement, hrange⟩ := statementRange?_eq_some_iff.mp hrange
    exact absurd ⟨hstatement, hlabel, hrange⟩ (h r)
  · rfl

theorem statementRange?_assignStep (ranges : List SourceRange) (s : Step) :
    statementRange? (assignStep ranges s) = statementRange? s := by
  obtain ⟨label, -, h⟩ := assignStep_eq ranges s
  rw [h]
  rfl

theorem statementRanges_assign (steps : List Step) :
    statementRanges (assign steps) = statementRanges steps := by
  unfold statementRanges assign
  rw [List.filterMap_map]
  simp only [Function.comp_def, statementRange?_assignStep]

theorem assignStep_assignStep (ranges : List SourceRange) (s : Step) :
    assignStep ranges (assignStep ranges s) = assignStep ranges s := by
  by_cases h : ∃ r, Awaits s r
  · obtain ⟨r, hr⟩ := h
    refine assignStep_of_not_awaits fun q hq => ?_
    cases (label_assignStep hr).symm.trans hq.label
  · rw [assignStep_of_not_awaits (not_exists.mp h), assignStep_of_not_awaits (not_exists.mp h)]

/-- **Labelling once more changes nothing.** -/
theorem assign_assign (steps : List Step) : assign (assign steps) = assign steps := by
  rw [assign, statementRanges_assign, assign, List.map_map]
  exact List.map_congr_left fun s _ => assignStep_assignStep _ s

/-- In some place of the steps, labelling makes `t` of `s`. -/
def Becomes (steps : List Step) (s t : Step) : Prop := (s, t) ∈ steps.zip (assign steps)

theorem becomes_iff :
    Becomes steps s t ↔ s ∈ steps ∧ t = assignStep (statementRanges steps) s := by
  have hzip := List.zip_map' (f := id) (g := assignStep (statementRanges steps)) (l := steps)
  rw [List.map_id] at hzip
  rw [Becomes, assign, hzip, List.mem_map]
  constructor
  · rintro ⟨s, hs, heq⟩
    cases heq
    exact ⟨hs, rfl⟩
  · rintro ⟨hs, rfl⟩
    exact ⟨s, hs, rfl⟩

/-- **What labelling makes of the steps.** It sets labels alone, and those only of statement steps with
a range and without a label. The ranges of statements that start on a line, labelled before or not, are
numbered from one in their order, and a step's label tells its line and number. So labels are equal just
when the ranges are, and a range has the same label among other steps with the same set of ranges, in
whatever order and however often they ran. Labelling once more changes nothing. -/
theorem assign_spec (steps : List Step) :
    (assign steps).length = steps.length ∧
    (∀ s t, Becomes steps s t →
      t = { s with label := t.label } ∧
      (s.isStatement = false ∨ s.label.isSome = true ∨ s.range = none → t = s)) ∧
    (∀ s t s' t' r r', Becomes steps s t → Becomes steps s' t' → Awaits s r → Awaits s' r' →
      (t.label = t'.label ↔ r = r')) ∧
    (∀ line, ∃ ranges : List SourceRange, LineRanges steps line ranges ∧
      ∀ i r, ranges[i]? = some r → ∀ s t, Becomes steps s t → Awaits s r →
        t.label = some (text line (i + 1))) ∧
    (∀ steps', (∀ r, StatementRange steps r ↔ StatementRange steps' r) →
      ∀ s t s' t' r, Becomes steps s t → Becomes steps' s' t' → Awaits s r → Awaits s' r →
        t.label = t'.label) ∧
    assign (assign steps) = assign steps := by
  refine ⟨by simp [assign], fun s t h => ?_, fun s t s' t' r r' h h' hr hr' => ?_, fun line => ?_,
    fun steps' hsame s t s' t' r h h' hr hr' => ?_, assign_assign steps⟩
  · obtain ⟨-, rfl⟩ := becomes_iff.mp h
    obtain ⟨label, -, hlabel⟩ := assignStep_eq (statementRanges steps) s
    refine ⟨by rw [hlabel], fun hkept => assignStep_of_not_awaits fun r hr => ?_⟩
    simp [hr.isStatement, hr.label, hr.range] at hkept
  · obtain ⟨hs, rfl⟩ := becomes_iff.mp h
    obtain ⟨hs', rfl⟩ := becomes_iff.mp h'
    rw [label_assignStep hr, label_assignStep hr', Option.some_inj]
    refine ⟨ofRange_injective (hr.statementRange hs) (hr'.statementRange hs'), ?_⟩
    rintro rfl
    rfl
  · obtain ⟨ranges, hranges⟩ := exists_lineRanges steps line
    refine ⟨ranges, hranges, fun i r hi s t h hr => ?_⟩
    obtain ⟨-, rfl⟩ := becomes_iff.mp h
    rw [label_assignStep hr, ofRange_of_lineRanges hranges hi]
  · obtain ⟨hs, rfl⟩ := becomes_iff.mp h
    obtain ⟨-, rfl⟩ := becomes_iff.mp h'
    rw [label_assignStep hr, label_assignStep hr', ofRange_congr hsame (hr.statementRange hs)]

/-- The second range of a line runs first and again; the first one, run with a label of its own, counts
all the same. -/
example :
    let first : SourceRange := ⟨⟨3, 5⟩, ⟨3, 11⟩⟩
    let second : SourceRange := ⟨⟨3, 12⟩, ⟨3, 21⟩⟩
    let ran (r : SourceRange) (label : Option String) : Step :=
      { action := .statement, range := some r, label := label }
    (assign [ran second none, ran first (some "custom"), ran second none]).map Step.label =
      [some "l3:2", some "custom", some "l3:2"] := by
  decide +kernel

end Label

end Retrace
