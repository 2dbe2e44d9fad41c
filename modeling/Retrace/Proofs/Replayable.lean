import Retrace.Proofs.EvaluatedCode
import Retrace.Proofs.Loading
import Retrace.Proofs.Window

/-!
# Replaying a loaded trace

Loading checks that the ends of a range are positions of the text, counted in bytes; replacing it
takes ends between characters. Every evaluation stands at the moment it is recorded, so a loaded
trace can be shown at all of its steps exactly when no evaluation begins or ends inside a character.
A text of one-byte characters leaves no such place. All this is said of evaluations with sums of lines
and columns that fit machine words.

* `BetweenCharacters`: an evaluation's range begins and ends between characters.
* `Trace.Replayable`: the source can be shown with values in place after any number of steps.
* `evaluatedCode_of_isInText`: with all ranges in the text, only an end inside a character is an
  error.
* `mem_standingEvaluations_append_self`: an evaluation stands when it is recorded.
* `Trace.replayable_spec`: which loaded traces can be replayed, and how the others fail.
-/

namespace Retrace

/-- A segment's range lies in a text with both ends between characters. -/
def BetweenCharacters (code : String) (s : Segment Location) : Prop :=
  ∃ t, Located code s t ∧ t.onBoundaries code.toList = true

/-- After any number of its steps, the trace's source can be shown with values in place. -/
def Trace.Replayable (trace : Trace) : Prop :=
  ∀ shown, shown <+: trace.steps → ∃ out, evaluatedCode trace.code shown = .ok out

/-- With characters of one byte every position lies between two of them. -/
theorem Text.isBoundary_of_le_byteSize {s : List Char} (hs : ∀ c ∈ s, c.utf8Size = 1) {n : Nat}
    (h : n ≤ byteSize s) : isBoundary s n = true := by
  induction s generalizing n with
  | nil =>
    obtain rfl := Nat.le_zero.mp h
    rfl
  | cons c s ih =>
    obtain ⟨hc, hs⟩ := List.forall_mem_cons.mp hs
    cases n with
    | zero => rfl
    | succ n =>
      have hsize : n + 1 = byteSize [c] + n := by
        rw [byteSize, byteSize, hc]
        omega
      rw [byteSize, hc] at h
      rw [hsize, ← List.singleton_append, isBoundary_append]
      exact ih hs (by omega)

/-! ## An evaluation when it is recorded -/

theorem suffix_sinceStatement {α : Type} (step : α → Step) (later older : List α) :
    later <:+ sinceStatement step later older := by
  induction older generalizing later with
  | nil => exact List.suffix_refl later
  | cons x older ih =>
    rw [sinceStatement]
    split
    · exact List.suffix_cons x later
    · exact (List.suffix_cons x later).trans (ih (x :: later))

theorem isExpression_of_evaluation? {s : Step} {e : Segment Location} (h : evaluation? s = some e) :
    s.isExpression = true := by
  unfold evaluation? at h
  split at h
  · assumption
  · cases h

/-- An evaluation's segment has the range of its step. -/
theorem range_of_evaluation? {s : Step} {e : Segment Location} (h : evaluation? s = some e) :
    s.range = some e.span := by
  unfold evaluation? at h
  split at h
  · split at h
    · next hrange _ =>
      obtain rfl := Option.some.inj h
      exact hrange
    · cases h
  · cases h

theorem Step.weight_of_isExpression {s : Step} (h : s.isExpression = true) : s.weight = 0 := by
  unfold Step.isExpression at h
  unfold Step.weight Step.isInvocation Step.isReturn
  revert h
  cases s.action <;> decide

/-- An evaluation is the last step of its statement's window. -/
theorem exists_statementWindow_append (steps : List Step) {s : Step} (h : s.isExpression = true) :
    ∃ before, statementWindow (steps ++ [s]) = before ++ [s] := by
  have hrecord : Frames.ofItems id (steps ++ [s]) =
      ⟨s :: (Frames.ofItems id steps).recent, (Frames.ofItems id steps).callers⟩ := by
    unfold Frames.ofItems
    rw [List.foldl_append, List.foldl_cons, List.foldl_nil]
    exact Frames.record_of_weight_eq_zero _ (Step.weight_of_isExpression h)
  unfold statementWindow windowBy
  rw [hrecord, sinceStatement]
  split
  · exact ⟨[], rfl⟩
  · obtain ⟨before, hbefore⟩ := suffix_sinceStatement id [s] (Frames.ofItems id steps).recent
    exact ⟨before, hbefore.symm⟩

/-- An evaluation stands when it is recorded, whatever stood before it. -/
theorem mem_standingEvaluations_append_self {steps : List Step} {s : Step} {e : Segment Location}
    (h : evaluation? s = some e) : e ∈ standingEvaluations (steps ++ [s]) := by
  obtain ⟨before, hbefore⟩ := exists_statementWindow_append steps (isExpression_of_evaluation? h)
  refine mem_standingEvaluations.mpr ⟨before.filterMap evaluation?, [], ?_, by simp⟩
  rw [evaluations, hbefore, List.filterMap_append, List.filterMap_cons_some h]
  rfl

theorem mem_of_mem_statementWindow {steps : List Step} {s : Step} (h : s ∈ statementWindow steps) :
    s ∈ steps := by
  rcases mem_of_mem_sinceStatement h with h | h
  · exact absurd h List.not_mem_nil
  · exact Frames.mem_of_mem_items (List.mem_append_left _ h)

/-- What stands was recorded by a step. -/
theorem exists_evaluation?_of_mem_standingEvaluations {steps : List Step} {e : Segment Location}
    (h : e ∈ standingEvaluations steps) : ∃ s ∈ steps, evaluation? s = some e := by
  obtain ⟨earlier, later, heq, -⟩ := mem_standingEvaluations.mp h
  have hmem : e ∈ evaluations steps := by
    rw [heq]
    exact List.mem_append_right earlier List.mem_cons_self
  obtain ⟨s, hs, he⟩ := List.mem_filterMap.mp hmem
  exact ⟨s, mem_of_mem_statementWindow hs, he⟩

theorem exists_isPrefix_of_mem {α : Type} {x : α} {xs : List α} (h : x ∈ xs) :
    ∃ before, before ++ [x] <+: xs := by
  obtain ⟨before, after, rfl⟩ := List.append_of_mem h
  exact ⟨before, after, List.append_cons before x after |>.symm⟩

/-! ## Evaluations that lie in the text -/

theorem isInText_of_liesIn {code : String} {e : Segment Location}
    (h : SourceRange.LiesIn e.span code.toList) : isInText code e = true :=
  (SourceRange.liesIn_iff.mp h).2

/-- When all that stands lies in the text, it is replaced, unless an end is inside a character: the
first with such an end is the error. -/
theorem evaluatedCode_of_isInText {code : String} {steps : List Step}
    (hfits : StandingFit code steps) (h : ∀ s ∈ standingEvaluations steps, isInText code s = true) :
    ((∀ s ∈ standingEvaluations steps, BetweenCharacters code s) ∧
      ∃ out, evaluatedCode code steps = .ok out) ∨
    ∃ s ∈ standingEvaluations steps, ∃ t, Located code s t ∧ t.onBoundaries code.toList = false ∧
      evaluatedCode code steps = .error (.segmentOutOfBounds t.span.start t.span.stop) := by
  have hmisfit := misfit?_replacements hfits
  rw [evaluatedCode_of_substitutions (substitutions_eq_ok h)]
  cases hfind : (replacements code steps).find? fun t => !t.onBoundaries code.toList with
  | none =>
    obtain ⟨out, hout, -⟩ := Segment.splice_of_misfit?_eq_none (hmisfit.trans hfind)
    refine Or.inl ⟨fun s hs => ?_, out, hout⟩
    obtain ⟨t, ht⟩ := (isInText_iff_exists_located (hfits s hs)).mp (h s hs)
    have hmem : t ∈ replacements code steps :=
      List.mem_filterMap.mpr ⟨s, hs, (locate?_eq_some_iff (hfits s hs)).mpr ht⟩
    exact ⟨t, ht, by simpa using List.find?_eq_none.mp hfind t hmem⟩
  | some t =>
    obtain ⟨s, hs, hlocate⟩ := List.mem_filterMap.mp (List.mem_of_find?_eq_some hfind)
    exact Or.inr ⟨s, hs, t, (locate?_eq_some_iff (hfits s hs)).mp hlocate,
      by simpa using List.find?_some hfind,
      Segment.splice_of_misfit?_eq_some (hmisfit.trans hfind)⟩

/-- The offsets of an evaluation are told by its range. -/
theorem Located.unique {code : String} {s : Segment Location} {t u : Segment Nat}
    (hfits : (LineIndex.ofText code.toList).fitsRange s.span = true) (ht : Located code s t)
    (hu : Located code s u) : t = u :=
  Option.some.inj
    (((locate?_eq_some_iff hfits).mpr ht).symm.trans ((locate?_eq_some_iff hfits).mpr hu))

/-! ## Loaded traces -/

namespace Trace

variable {trace : Trace}

/-- The sums for the ranges of evaluations fit. -/
def EvaluationsFit (trace : Trace) : Prop :=
  ∀ s ∈ trace.steps, ∀ e, IsEvaluation s e →
    (LineIndex.ofText trace.code.toList).fitsRange e.span = true

/-- At any point of a trace, what stands is an evaluation of one of its steps. -/
theorem exists_isEvaluation {shown : List Step} (hshown : shown <+: trace.steps)
    {e : Segment Location} (he : e ∈ standingEvaluations shown) :
    ∃ s ∈ shown, s ∈ trace.steps ∧ IsEvaluation s e := by
  obtain ⟨s, hs, he⟩ := exists_evaluation?_of_mem_standingEvaluations he
  exact ⟨s, hs, hshown.subset hs, evaluation?_eq_some_iff.mp he⟩

theorem EvaluationsFit.standingFit (hfits : trace.EvaluationsFit) {shown : List Step}
    (hshown : shown <+: trace.steps) : StandingFit trace.code shown := by
  intro e he
  obtain ⟨s, -, hs, he⟩ := exists_isEvaluation hshown he
  exact hfits s hs e he

/-- At any point of a loaded trace, all that stands lies in the text. -/
theorem InText.isInText (h : trace.InText) {shown : List Step} (hshown : shown <+: trace.steps) :
    ∀ e ∈ standingEvaluations shown, Retrace.isInText trace.code e = true := by
  intro e he
  obtain ⟨s, -, hs, he⟩ := exists_isEvaluation hshown he
  exact isInText_of_liesIn (h.ranges s hs _ he.range)

/-- A trace can be replayed exactly when no evaluation ends inside a character. -/
theorem InText.replayable_iff (h : trace.InText) (hfits : trace.EvaluationsFit) :
    trace.Replayable ↔ ∀ s ∈ trace.steps, ∀ e, IsEvaluation s e →
      BetweenCharacters trace.code e := by
  constructor
  · intro hreplay s hs e he
    obtain ⟨before, hshown⟩ := exists_isPrefix_of_mem hs
    rcases evaluatedCode_of_isInText (hfits.standingFit hshown) (h.isInText hshown) with
      ⟨hall, -⟩ | ⟨-, -, t, -, -, herror⟩
    · exact hall e (mem_standingEvaluations_append_self (evaluation?_eq_some_iff.mpr he))
    · obtain ⟨out, hout⟩ := hreplay _ hshown
      rw [herror] at hout
      cases hout
  · intro hall shown hshown
    rcases evaluatedCode_of_isInText (hfits.standingFit hshown) (h.isInText hshown) with
      ⟨-, hok⟩ | ⟨e, he, t, ht, hends, -⟩
    · exact hok
    · obtain ⟨s, -, hs, he⟩ := exists_isEvaluation hshown he
      obtain ⟨u, hu, hbetween⟩ := hall s hs e he
      rw [hu.unique (hfits s hs e he) ht, hends] at hbetween
      cases hbetween

/-- With characters of one byte no evaluation ends inside one. -/
theorem InText.betweenCharacters_of_utf8Size (h : trace.InText) (hfits : trace.EvaluationsFit)
    (hcode : ∀ c ∈ trace.code.toList, c.utf8Size = 1) {s : Step} (hs : s ∈ trace.steps)
    {e : Segment Location} (he : IsEvaluation s e) : BetweenCharacters trace.code e := by
  obtain ⟨t, ht⟩ := (isInText_iff_exists_located (hfits s hs e he)).mp
    (isInText_of_liesIn (h.ranges s hs _ he.range))
  have hsize : t.span.stop ≤ Text.byteSize trace.code.toList :=
    ht.spans.size.trans_eq (Text.length_bytes _)
  refine ⟨t, ht, ?_⟩
  rw [Segment.onBoundaries, Text.isBoundary_of_le_byteSize hcode (ht.spans.forward.trans hsize),
    Text.isBoundary_of_le_byteSize hcode hsize, Bool.and_true]

/-- How a trace replays. -/
structure Replays (trace : Trace) : Prop where
  /-- It can be replayed to the end just when all its evaluations begin and end between characters. -/
  replayable_iff : trace.Replayable ↔
    ∀ s ∈ trace.steps, ∀ e, IsEvaluation s e → BetweenCharacters trace.code e
  /-- So can every trace whose source has characters of one byte only. -/
  ofBytes : (∀ c ∈ trace.code.toList, c.utf8Size = 1) → trace.Replayable
  /-- Where the source cannot be shown, an evaluation recorded by then begins or ends inside a
  character, and the error gives its offsets. -/
  fails : ∀ shown, shown <+: trace.steps → ∀ error, evaluatedCode trace.code shown = .error error →
    ∃ s ∈ shown, ∃ e t, IsEvaluation s e ∧ Located trace.code e t ∧
      t.onBoundaries trace.code.toList = false ∧
      error = .segmentOutOfBounds t.span.start t.span.stop

/-- **Which loaded traces can be replayed to the end**, for evaluations with sums that fit machine
words. No range of a loaded trace is then outside the text. -/
theorem replayable_spec {text : String} (h : ofText text = .ok trace)
    (hfits : trace.EvaluationsFit) : trace.Replays := by
  have hin := inText_of_ofText h
  have hiff := hin.replayable_iff hfits
  refine ⟨hiff, fun hcode => ?_, fun shown hshown error herror => ?_⟩
  · exact hiff.mpr fun s hs e he => hin.betweenCharacters_of_utf8Size hfits hcode hs he
  · rcases evaluatedCode_of_isInText (hfits.standingFit hshown) (hin.isInText hshown) with
      ⟨-, out, hout⟩ | ⟨e, he, t, ht, hends, hsplice⟩
    · rw [hout] at herror
      cases herror
    · rw [hsplice] at herror
      obtain ⟨s, hs, -, he⟩ := exists_isEvaluation hshown he
      exact ⟨s, hs, e, t, he, ht, hends, (Except.error.inj herror).symm⟩

end Trace

/-- The text of a trace that evaluates the source's one character, of two bytes, up to a column. -/
def characterTrace (last : String) : String :=
  "\x7b\"code\":\"é\",\"steps\":[\x7b\"action\":\"eval\",\"location\":[1,1,1," ++ last ++
    "],\"dataType\":\"int\",\"dataValue\":7\x7d]\x7d"

/-- The one step of that trace, which ends before a location. -/
def characterEvaluation (stop : Location) : Step :=
  { action := .eval, range := some ⟨⟨1, 1⟩, stop⟩, value := some ⟨"int", .int 7⟩ }

/-- The one evaluation of that trace. -/
theorem isEvaluation_characterEvaluation_iff {stop : Location} {e : Segment Location} :
    IsEvaluation (characterEvaluation stop) e ↔ e = ⟨⟨⟨1, 1⟩, stop⟩, "7"⟩ := by
  rw [← evaluation?_eq_some_iff]
  exact Option.some_inj.trans eq_comm

/-- Evaluated as a whole, the character is replaced. -/
theorem characterTrace_replayable : ∃ trace, Trace.ofText (characterTrace "2") = .ok trace ∧
    trace.EvaluationsFit ∧ trace.Replayable ∧ evaluatedCode trace.code trace.steps = .ok "7" := by
  have hresult : (Trace.ofText (characterTrace "2")).toOption.map (fun t => (t.code, t.steps)) =
      some ("é", [characterEvaluation ⟨1, 3⟩]) := by decide +kernel
  obtain ⟨trace, hload, hcode, hsteps⟩ := exists_ofText_eq_ok hresult
  have hfits : trace.EvaluationsFit := by
    unfold Trace.EvaluationsFit
    simp only [hcode, hsteps, List.forall_mem_singleton, isEvaluation_characterEvaluation_iff,
      forall_eq]
    decide
  refine ⟨trace, hload, hfits, (Trace.replayable_spec hload hfits).replayable_iff.mpr ?_, ?_⟩
  · simp only [hcode, hsteps, List.forall_mem_singleton, isEvaluation_characterEvaluation_iff,
      forall_eq]
    exact ⟨⟨⟨0, 2⟩, "7"⟩, ⟨⟨by decide, by decide, by decide⟩, rfl⟩, by decide⟩
  · rw [hcode, hsteps]
    decide +kernel

/-- Evaluated up to its first byte, it is loaded all the same and then cannot be shown. -/
theorem characterTrace_not_replayable : ∃ trace, Trace.ofText (characterTrace "1") = .ok trace ∧
    evaluatedCode trace.code trace.steps = .error (.segmentOutOfBounds 0 1) ∧
    ¬ trace.Replayable := by
  have hresult : (Trace.ofText (characterTrace "1")).toOption.map (fun t => (t.code, t.steps)) =
      some ("é", [characterEvaluation ⟨1, 2⟩]) := by decide +kernel
  obtain ⟨trace, hload, hcode, hsteps⟩ := exists_ofText_eq_ok hresult
  have herror : evaluatedCode trace.code trace.steps = .error (.segmentOutOfBounds 0 1) := by
    rw [hcode, hsteps]
    decide +kernel
  refine ⟨trace, hload, herror, fun hreplay => ?_⟩
  obtain ⟨out, hout⟩ := hreplay trace.steps (List.prefix_refl _)
  rw [herror] at hout
  cases hout

end Retrace
