import Mathlib.Data.List.Sort
import Retrace.Proofs.Positions
import Retrace.Proofs.Segments
import Retrace.Replay.Source

/-!
# The source with values in place

Evaluations displace one another by their ranges, which are in lines and columns; what is replaced
is given by byte offsets. Offsets keep the order of locations as far as the sums that give them fit
machine words. So the evaluations that stand become segments in order, apart from each other, and
splicing can only fail where an end lies inside a character.

* `IsEvaluation`, `EvaluationsOf`: what evaluations some steps record, and with which texts.
* `Stand`: the evaluations that no later one conflicts with, ordered by start.
* `Located`: an evaluation by the positions that its range names.
* `inOrder_replacements`: as segments by byte offsets those that stand are in order.
* `evaluatedCode_spec`: the answer for every text and every list of steps.
* `evaluatedCode_columnBeyond`: an answer for a range whose sums do not fit.
-/

namespace Retrace

open Segment LineIndex

/-! ## What is evaluated -/

/-- A step records an evaluation: it is that of an expression and has a range and a value, and the text
of the value is the value formatted by its type. -/
structure IsEvaluation (s : Step) (e : Segment Location) : Prop where
  action : s.action = .eval ∨ s.action = .expression
  range : s.range = some e.span
  value : ∃ v, s.value = some v ∧ e.value = v.value.format v.type

/-- The evaluations that some steps record, in order. -/
inductive EvaluationsOf : List Step → List (Segment Location) → Prop
  | nil : EvaluationsOf [] []
  | evaluation {s : Step} {e : Segment Location} {steps : List Step} {es : List (Segment Location)}
      (h : IsEvaluation s e) (hrest : EvaluationsOf steps es) : EvaluationsOf (s :: steps) (e :: es)
  | other {s : Step} {steps : List Step} {es : List (Segment Location)}
      (h : ∀ e, ¬ IsEvaluation s e) (hrest : EvaluationsOf steps es) : EvaluationsOf (s :: steps) es

theorem evaluation?_eq_some_iff {s : Step} {e : Segment Location} :
    evaluation? s = some e ↔ IsEvaluation s e := by
  have haction : s.isExpression = true ↔ s.action = .eval ∨ s.action = .expression := by
    rw [Step.isExpression, Bool.or_eq_true, beq_iff_eq, beq_iff_eq]
  unfold evaluation?
  constructor
  · intro h
    split at h
    · next hexpression =>
      split at h
      · next range v hrange hvalue =>
        obtain rfl := Option.some.inj h
        exact ⟨haction.mp hexpression, hrange, v, hvalue, rfl⟩
      · cases h
    · cases h
  · obtain ⟨span, text⟩ := e
    rintro ⟨hexpression, hrange, v, hvalue, rfl⟩
    rw [if_pos (haction.mpr hexpression), hrange, hvalue]

theorem evaluationsOf_filterMap (steps : List Step) :
    EvaluationsOf steps (steps.filterMap evaluation?) := by
  induction steps with
  | nil => exact .nil
  | cons s steps ih =>
    cases h : evaluation? s with
    | none =>
      rw [List.filterMap_cons_none h]
      refine .other (fun e he => ?_) ih
      rw [evaluation?_eq_some_iff.mpr he] at h
      cases h
    | some e =>
      rw [List.filterMap_cons_some h]
      exact .evaluation (evaluation?_eq_some_iff.mp h) ih

theorem EvaluationsOf.eq_filterMap {steps : List Step} {es : List (Segment Location)}
    (h : EvaluationsOf steps es) : es = steps.filterMap evaluation? := by
  induction h with
  | nil => rfl
  | evaluation h _ ih => rw [List.filterMap_cons_some (evaluation?_eq_some_iff.mpr h), ← ih]
  | @other s _ _ h _ ih =>
    have hnone : evaluation? s = none :=
      Option.eq_none_iff_forall_ne_some.mpr fun e he => h e (evaluation?_eq_some_iff.mp he)
    rw [List.filterMap_cons_none hnone, ← ih]

/-- The evaluations that no later one conflicts with, ordered by start. -/
structure Stand (evaluated stand : List (Segment Location)) : Prop where
  mem_iff : ∀ s, s ∈ stand ↔ ∃ earlier later, evaluated = earlier ++ s :: later ∧
    ∀ t ∈ later, s.span.conflicts t.span = false
  ordered : stand.Pairwise fun s t => s.span.start < t.span.start

theorem stand_standing (evaluated : List (Segment Location)) :
    Stand evaluated (standing evaluated) where
  mem_iff _ := (perm_standing evaluated).mem_iff.trans mem_undisplaced_iff
  ordered := pairwise_start_standing evaluated

/-- What stands is told by what is evaluated. -/
theorem Stand.unique {evaluated stand stand' : List (Segment Location)} (h : Stand evaluated stand)
    (h' : Stand evaluated stand') : stand = stand' := by
  have hirrefl : Std.Irrefl fun s t : Segment Location => s.span.start < t.span.start :=
    ⟨fun _ => lt_irrefl _⟩
  have hantisymm : Std.Antisymm fun s t : Segment Location => s.span.start < t.span.start :=
    ⟨fun _ _ hst hts => absurd hts (lt_asymm hst)⟩
  exact h.ordered.eq_of_mem_iff h'.ordered fun s => (h.mem_iff s).trans (h'.mem_iff s).symm

/-- Evaluations that do not conflict all stand, once they are ordered. -/
theorem stand_of_perm {evaluated stand : List (Segment Location)}
    (hundisplaced : undisplaced evaluated = evaluated) (hperm : stand.Perm evaluated)
    (hordered : stand.Pairwise fun s t => s.span.start < t.span.start) : Stand evaluated stand where
  mem_iff s := by rw [← mem_undisplaced_iff, hundisplaced, hperm.mem_iff]
  ordered := hordered

/-- The evaluations of the current statement, as they were recorded. -/
def evaluations (steps : List Step) : List (Segment Location) :=
  (statementWindow steps).filterMap evaluation?

/-- The evaluations that no later one conflicts with, ordered by start. -/
def standingEvaluations (steps : List Step) : List (Segment Location) :=
  standing (evaluations steps)

/-- A segment by byte offsets, when its range lies in the text. -/
def locate? (index : LineIndex) (s : Segment Location) : Option (Segment Nat) :=
  (index.offsets? s.span).map fun span => ⟨span, s.value⟩

/-- Whether a segment's range lies in a text. -/
def isInText (code : String) (s : Segment Location) : Bool :=
  ((LineIndex.ofText code.toList).offsets? s.span).isSome

/-- The standing evaluations whose ranges lie in the text, by byte offsets. -/
def replacements (code : String) (steps : List Step) : List (Segment Nat) :=
  (standingEvaluations steps).filterMap (locate? (LineIndex.ofText code.toList))

/-- The sums for the ranges of the standing evaluations fit. -/
def StandingFit (code : String) (steps : List Step) : Prop :=
  ∀ s ∈ standingEvaluations steps, (LineIndex.ofText code.toList).fitsRange s.span = true

theorem mem_standingEvaluations {steps : List Step} {s : Segment Location} :
    s ∈ standingEvaluations steps ↔ ∃ earlier later, evaluations steps = earlier ++ s :: later ∧
      ∀ t ∈ later, s.span.conflicts t.span = false :=
  (stand_standing (evaluations steps)).mem_iff s

/-! ## From locations to offsets -/

/-- A segment by byte offsets: they are those of the positions that its range names. -/
structure Located (code : String) (s : Segment Location) (t : Segment Nat) : Prop where
  spans : Spans code.toList s.span t.span
  value : t.value = s.value

theorem offsets?_of_locate? {index : LineIndex} {s : Segment Location} {t : Segment Nat}
    (h : locate? index s = some t) : index.offsets? s.span = some t.span := by
  obtain ⟨span, hspan, rfl⟩ := Option.map_eq_some_iff.mp h
  exact hspan

/-- Where the sums fit, a segment is located by its offsets. -/
theorem locate?_eq_some_iff {code : String} {s : Segment Location} {t : Segment Nat}
    (hfits : (ofText code.toList).fitsRange s.span = true) :
    locate? (ofText code.toList) s = some t ↔ Located code s t := by
  constructor
  · intro h
    have hspans := (offsets?_eq_some_iff_spans hfits).mp (offsets?_of_locate? h)
    obtain ⟨span, -, rfl⟩ := Option.map_eq_some_iff.mp h
    exact ⟨hspans, rfl⟩
  · rintro ⟨hspans, hvalue⟩
    rw [locate?, (offsets?_eq_some_iff_spans hfits).mpr hspans, Option.map_some, ← hvalue]

theorem isInText_iff_exists_located {code : String} {s : Segment Location}
    (hfits : (ofText code.toList).fitsRange s.span = true) :
    isInText code s = true ↔ ∃ t, Located code s t := by
  simp only [← locate?_eq_some_iff hfits]
  unfold isInText locate?
  simp [Option.isSome_iff_exists]

/-- Spans without conflict keep apart as byte spans. -/
theorem Located.stop_le_start {code : String} {s s' : Segment Location} {t t' : Segment Nat}
    (h : Located code s t) (h' : Located code s' t') (hlt : s.span.start < s'.span.start)
    (hc : s.span.conflicts s'.span = false) : t.span.stop ≤ t'.span.start := by
  have hstart' : t'.span.start ≤ (Text.bytes code.toList).length :=
    h'.spans.forward.trans h'.spans.size
  have hforward : s'.span.start ≤ s'.span.stop := by
    rw [h'.spans.range]
    exact (le_location_iff hstart' h'.spans.size).mpr h'.spans.forward
  have hle := Span.stop_le_start_of_lt hc hlt hforward
  rw [h.spans.range, h'.spans.range] at hle
  exact (le_location_iff h.spans.size hstart').mp hle

/-- **The replacements are in order**, whatever was evaluated in whatever order, where the sums for the
ranges fit. -/
theorem inOrder_replacements {code : String} {steps : List Step} (hfits : StandingFit code steps) :
    InOrder (replacements code steps) where
  apart := by
    have hpairs := (pairwise_start_standing (evaluations steps)).and
      (pairwise_conflicts_standing (evaluations steps))
    refine List.pairwise_filterMap.mpr (hpairs.imp_of_mem ?_)
    intro s s' hs hs' ⟨hlt, hc⟩ t ht t' ht'
    exact ((locate?_eq_some_iff (hfits s hs)).mp ht).stop_le_start
      ((locate?_eq_some_iff (hfits s' hs')).mp ht') hlt hc
  forward := by
    intro t ht
    obtain ⟨s, -, hs⟩ := List.mem_filterMap.mp ht
    exact (offsets?_eq_some_iff.mp (offsets?_of_locate? hs)).2.2

theorem mapM_locateSegment {index : LineIndex} {segments : List (Segment Location)}
    (h : ∀ s ∈ segments, (index.offsets? s.span).isSome = true) :
    segments.mapM (locateSegment index) = .ok (segments.filterMap (locate? index)) := by
  induction segments with
  | nil => rfl
  | cons s segments ih =>
    obtain ⟨span, hspan⟩ := Option.isSome_iff_exists.mp (h s List.mem_cons_self)
    have hs : locateSegment index s = .ok ⟨span, s.value⟩ := by rw [locateSegment, hspan]
    have hs' : locate? index s = some ⟨span, s.value⟩ := by rw [locate?, hspan]; rfl
    rw [List.mapM_cons, hs, ih fun t ht => h t (List.mem_cons_of_mem s ht),
      List.filterMap_cons_some hs']
    rfl

theorem mapM_locateSegment_eq_error {index : LineIndex} {segments : List (Segment Location)}
    {s : Segment Location}
    (h : segments.find? (fun s => !(index.offsets? s.span).isSome) = some s) :
    segments.mapM (locateSegment index) = .error (.rangeOutOfBounds s.span) := by
  induction segments with
  | nil => exact absurd h (by simp)
  | cons t segments ih =>
    rw [List.find?_cons] at h
    cases ht : index.offsets? t.span with
    | none =>
      rw [ht] at h
      obtain rfl := Option.some.inj h
      rw [List.mapM_cons, locateSegment, ht]
      rfl
    | some span =>
      rw [ht] at h
      rw [List.mapM_cons, locateSegment, ht, ih h]
      rfl

theorem substitutions_eq_ok {code : String} {steps : List Step}
    (h : ∀ s ∈ standingEvaluations steps, isInText code s = true) :
    substitutions code steps = .ok (replacements code steps) := by
  unfold substitutions
  rw [nonOverlapping_eq_standing]
  exact mapM_locateSegment h

theorem substitutions_eq_error {code : String} {steps : List Step} {s : Segment Location}
    (h : (standingEvaluations steps).find? (fun s => !isInText code s) = some s) :
    substitutions code steps = .error (.rangeOutOfBounds s.span) := by
  unfold substitutions
  rw [nonOverlapping_eq_standing]
  exact mapM_locateSegment_eq_error h

/-- Substitutions, when there are any to be had, are the replacements. -/
theorem eq_replacements_of_substitutions {code : String} {steps : List Step}
    {segments : List (Segment Nat)} (h : substitutions code steps = .ok segments) :
    segments = replacements code steps := by
  cases hfind : (standingEvaluations steps).find? fun s => !isInText code s with
  | none =>
    have hall : ∀ s ∈ standingEvaluations steps, isInText code s = true := by
      intro s hs
      simpa using List.find?_eq_none.mp hfind s hs
    rw [substitutions_eq_ok hall] at h
    exact (Except.ok.inj h).symm
  | some s =>
    rw [substitutions_eq_error hfind] at h
    exact absurd h (by simp)

/-! ## The answer -/

theorem evaluatedCode_of_substitutions {code : String} {steps : List Step}
    {segments : List (Segment Nat)} (h : substitutions code steps = .ok segments) :
    evaluatedCode code steps = splice code segments := by
  unfold evaluatedCode
  rw [h]
  rfl

/-- A text with values in place comes from substitutions. -/
theorem exists_substitutions {code out : String} {steps : List Step}
    (h : evaluatedCode code steps = .ok out) :
    ∃ segments, substitutions code steps = .ok segments ∧ splice code segments = .ok out := by
  cases hsegments : substitutions code steps with
  | error e =>
    unfold evaluatedCode at h
    rw [hsegments] at h
    exact absurd h (by simp [bind, Except.bind])
  | ok segments =>
    rw [evaluatedCode_of_substitutions hsegments] at h
    exact ⟨segments, rfl, h⟩

/-- Failures are those of ranges outside the text and of the splice. -/
theorem evaluatedCode_error_cases {code : String} {steps : List Step} {e : SourceError}
    (h : evaluatedCode code steps = .error e) :
    (∃ s, (standingEvaluations steps).find? (fun s => !isInText code s) = some s ∧
      e = .rangeOutOfBounds s.span) ∨
    ∃ start stop, e = .segmentOutOfBounds start stop := by
  cases hfind : (standingEvaluations steps).find? fun s => !isInText code s with
  | some s =>
    unfold evaluatedCode at h
    rw [substitutions_eq_error hfind] at h
    exact .inl ⟨s, rfl, (Except.error.inj h).symm⟩
  | none =>
    have hall : ∀ s ∈ standingEvaluations steps, isInText code s = true := by
      intro s hs
      simpa using List.find?_eq_none.mp hfind s hs
    rw [evaluatedCode_of_substitutions (substitutions_eq_ok hall)] at h
    obtain ⟨t, -, rfl⟩ := exists_of_splice_eq_error h
    exact .inr ⟨_, _, rfl⟩

/-- **Where the sums fit, only an end inside a character is left to fail.** -/
theorem misfit?_replacements {code : String} {steps : List Step} (hfits : StandingFit code steps) :
    misfit? code.toList 0 (replacements code steps) =
      (replacements code steps).find? fun t => !t.onBoundaries code.toList :=
  (inOrder_replacements hfits).misfit?_eq_find? code.toList fun t _ => Nat.zero_le t.span.start

/-- Segments that locate evaluations are their replacements. -/
theorem eq_filterMap_of_forall₂ {code : String} {stand : List (Segment Location)}
    {segments : List (Segment Nat)}
    (hfits : ∀ s ∈ stand, (ofText code.toList).fitsRange s.span = true)
    (h : List.Forall₂ (Located code) stand segments) :
    segments = stand.filterMap (locate? (ofText code.toList)) ∧
      ∀ s ∈ stand, isInText code s = true := by
  induction h with
  | nil => exact ⟨rfl, nofun⟩
  | cons hlocated _ ih =>
    obtain ⟨hs, hrest⟩ := List.forall_mem_cons.mp hfits
    obtain ⟨rfl, hin⟩ := ih hrest
    rw [List.filterMap_cons_some ((locate?_eq_some_iff hs).mpr hlocated)]
    exact ⟨rfl, List.forall_mem_cons.mpr
      ⟨(isInText_iff_exists_located hs).mpr ⟨_, hlocated⟩, hin⟩⟩

/-- What comes of a source with evaluations that stand. -/
structure Evaluated (code : String) (stand : List (Segment Location))
    (result : Except SourceError String) : Prop where
  /-- When all lie in the text with their ends between characters, their values take their places and
  nothing else changes, as if they were replaced one at a time from the last to the first. -/
  replaced : ∀ segments, List.Forall₂ (Located code) stand segments →
    (∀ t ∈ segments, t.onBoundaries code.toList = true) →
      ∃ out, result = .ok out ∧ Spliced 0 code.toList segments out.toList ∧
        replaceEach? code.toList segments = some out.toList
  /-- Otherwise the first that lies outside the text is the error. -/
  outside : ∀ before s after, stand = before ++ s :: after →
    (∀ u ∈ before, ∃ t, Located code u t) → (¬ ∃ t, Located code s t) →
      result = .error (.rangeOutOfBounds s.span)
  /-- Or else the first with an end inside a character. -/
  insideCharacter : ∀ before t after,
    List.Forall₂ (Located code) stand (before ++ t :: after) →
    (∀ u ∈ before, u.onBoundaries code.toList = true) → t.onBoundaries code.toList = false →
      result = .error (.segmentOutOfBounds t.span.start t.span.stop)

theorem evaluated_evaluatedCode {code : String} {steps : List Step}
    (hfits : StandingFit code steps) :
    Evaluated code (standingEvaluations steps) (evaluatedCode code steps) where
  replaced segments hlocated hends := by
    obtain ⟨rfl, hin⟩ := eq_filterMap_of_forall₂ hfits hlocated
    have hmisfit : misfit? code.toList 0 (replacements code steps) = none := by
      rw [misfit?_replacements hfits, List.find?_eq_none]
      intro t ht
      simp [hends t ht]
    obtain ⟨out, hout, hspliced⟩ := splice_of_misfit?_eq_none hmisfit
    refine ⟨out, ?_, hspliced, hspliced.replaceEach? [] rfl⟩
    rw [evaluatedCode_of_substitutions (substitutions_eq_ok hin), hout]
  outside before s after hstand hbefore hs := by
    have hmem : ∀ u ∈ before ++ s :: after, (ofText code.toList).fitsRange u.span = true := by
      rw [← hstand]
      exact hfits
    have hfind : (standingEvaluations steps).find? (fun s => !isInText code s) = some s := by
      rw [List.find?_eq_some_iff_append]
      have hnot : isInText code s = false := by
        rw [← Bool.not_eq_true, isInText_iff_exists_located (hmem s (by simp))]
        exact hs
      refine ⟨by rw [hnot]; rfl, before, after, hstand, fun u hu => ?_⟩
      have hin := (isInText_iff_exists_located (hmem u (by simp [hu]))).mpr (hbefore u hu)
      rw [hin]
      rfl
    unfold evaluatedCode
    rw [substitutions_eq_error hfind]
    rfl
  insideCharacter before t after hlocated hbefore ht := by
    obtain ⟨hsegments, hin⟩ := eq_filterMap_of_forall₂ hfits hlocated
    have hmisfit : misfit? code.toList 0 (replacements code steps) = some t := by
      rw [misfit?_replacements hfits, replacements, ← hsegments, List.find?_eq_some_iff_append]
      refine ⟨by rw [ht]; rfl, before, after, rfl, fun u hu => ?_⟩
      rw [hbefore u hu]
      rfl
    rw [evaluatedCode_of_substitutions (substitutions_eq_ok hin)]
    exact splice_of_misfit?_eq_some hmisfit

/-- **The source with the current statement's values in place.** Take the evaluations that the current
statement has recorded, and of them those that no later one conflicts with. As far as the sums of their
lines and columns fit machine words, the values take the places of the ranges, or the first range that
does not allow it is the error; what is handed to the splice is in order in any case. -/
theorem evaluatedCode_spec (code : String) (steps : List Step) :
    ∃ evaluated stand, EvaluationsOf (statementWindow steps) evaluated ∧ Stand evaluated stand ∧
      ((∀ s ∈ stand, (ofText code.toList).fitsRange s.span = true) →
        Evaluated code stand (evaluatedCode code steps) ∧
        ∀ segments, substitutions code steps = .ok segments → InOrder segments) := by
  refine ⟨evaluations steps, standingEvaluations steps, evaluationsOf_filterMap _,
    stand_standing _, fun hfits => ⟨evaluated_evaluatedCode hfits, fun segments h => ?_⟩⟩
  rw [eq_replacements_of_substitutions h]
  exact inOrder_replacements hfits

/-- A sum whose second summand is evaluated before its first. -/
def sumSteps : List Step :=
  [{ action := .statement, range := some ⟨⟨1, 1⟩, ⟨1, 6⟩⟩ },
    { action := .eval, range := some ⟨⟨1, 5⟩, ⟨1, 6⟩⟩, value := some ⟨"int", .int 3⟩ },
    { action := .expression, range := some ⟨⟨1, 1⟩, ⟨1, 2⟩⟩, value := some ⟨"int", .int 2⟩ }]

/-- Both summands are replaced by their values. -/
theorem sumSteps_evaluatedCode : ∃ evaluated stand,
    EvaluationsOf (statementWindow sumSteps) evaluated ∧ Stand evaluated stand ∧
    stand = [⟨⟨⟨1, 1⟩, ⟨1, 2⟩⟩, "2"⟩, ⟨⟨⟨1, 5⟩, ⟨1, 6⟩⟩, "3"⟩] ∧
    evaluatedCode "x + y" sumSteps = .ok "2 + 3" := by
  obtain ⟨evaluated, stand, hevaluated, hstand, hspec⟩ := evaluatedCode_spec "x + y" sumSteps
  have hrecorded : evaluated = [⟨⟨⟨1, 5⟩, ⟨1, 6⟩⟩, "3"⟩, ⟨⟨⟨1, 1⟩, ⟨1, 2⟩⟩, "2"⟩] := by
    rw [hevaluated.eq_filterMap]
    decide +kernel
  have heq : stand = [⟨⟨⟨1, 1⟩, ⟨1, 2⟩⟩, "2"⟩, ⟨⟨⟨1, 5⟩, ⟨1, 6⟩⟩, "3"⟩] := by
    rw [hrecorded] at hstand
    exact hstand.unique (stand_of_perm (by decide) (.swap _ _ _) (by decide))
  refine ⟨evaluated, stand, hevaluated, hstand, heq, ?_⟩
  rw [heq] at hspec
  obtain ⟨out, hout, -, hreplaced⟩ := (hspec (by decide +kernel)).1.replaced
    [⟨⟨0, 1⟩, "2"⟩, ⟨⟨4, 5⟩, "3"⟩]
    (.cons ⟨⟨by decide, by decide, by decide⟩, rfl⟩
      (.cons ⟨⟨by decide, by decide, by decide⟩, rfl⟩ .nil)) (by decide)
  have htext : replaceEach? "x + y".toList [⟨⟨0, 1⟩, "2"⟩, ⟨⟨4, 5⟩, "3"⟩] =
      some "2 + 3".toList := by decide +kernel
  rw [htext, Option.some_inj, String.toList_inj] at hreplaced
  rw [hout, hreplaced]

/-- An evaluation of the first line, and one without width in the greatest column of the second. -/
def columnBeyondSteps : List Step :=
  [{ action := .statement },
    { action := .eval, range := some ⟨⟨1, 1⟩, ⟨1, 3⟩⟩, value := some ⟨"int", .int 7⟩ },
    { action := .eval, value := some ⟨"int", .int 8⟩
      range := some ⟨⟨2, 18446744073709551615⟩, ⟨2, 18446744073709551615⟩⟩ }]

theorem standingEvaluations_columnBeyondSteps : standingEvaluations columnBeyondSteps =
    [⟨⟨⟨1, 1⟩, ⟨1, 3⟩⟩, "7"⟩,
      ⟨⟨⟨2, 18446744073709551615⟩, ⟨2, 18446744073709551615⟩⟩, "8"⟩] := by
  have hrecorded : evaluations columnBeyondSteps = [⟨⟨⟨1, 1⟩, ⟨1, 3⟩⟩, "7"⟩,
      ⟨⟨⟨2, 18446744073709551615⟩, ⟨2, 18446744073709551615⟩⟩, "8"⟩] := by decide +kernel
  refine (stand_standing (evaluations columnBeyondSteps)).unique ?_
  rw [hrecorded]
  exact stand_of_perm (by decide) (.refl _) (by decide)

/-- Both stand, and the second lies outside the text. What is handed to the splice is out of order all
the same, and its order is the error. -/
theorem evaluatedCode_columnBeyond :
    standingEvaluations columnBeyondSteps =
      [⟨⟨⟨1, 1⟩, ⟨1, 3⟩⟩, "7"⟩,
        ⟨⟨⟨2, 18446744073709551615⟩, ⟨2, 18446744073709551615⟩⟩, "8"⟩] ∧
    ¬ IsPosition threeLines.toList ⟨2, 18446744073709551615⟩ ∧
    substitutions threeLines columnBeyondSteps = .ok [⟨⟨0, 2⟩, "7"⟩, ⟨⟨1, 1⟩, "8"⟩] ∧
    evaluatedCode threeLines columnBeyondSteps = .error (.segmentOutOfBounds 1 1) := by
  have hstand := standingEvaluations_columnBeyondSteps
  have hsubstitutions : substitutions threeLines columnBeyondSteps =
      .ok [⟨⟨0, 2⟩, "7"⟩, ⟨⟨1, 1⟩, "8"⟩] := by
    unfold standingEvaluations evaluations at hstand
    rw [substitutions, nonOverlapping_eq_standing, hstand]
    decide +kernel
  refine ⟨hstand, not_isPosition_threeLines (by decide), hsubstitutions, ?_⟩
  rw [evaluatedCode_of_substitutions hsubstitutions]
  decide +kernel

end Retrace
