import Retrace.Proofs.Notifying
import Retrace.Proofs.Replayable

/-!
# Where recorded ranges lie

A recorder never sees the source. A location in a metadata text is checked by itself: it starts from one
and runs forwards. The trace is then built from the steps and the source, and that asks of a step no more
than that its node is known. So ranges and scopes that come from nodes lie in the text when the nodes'
ranges do, but a location that was announced with a step is taken as it is, and one outside the text
is found out only when the source is shown with the value in its place.

* `Notification.location_of_parse`: what is checked of a location in a metadata text.
* `Recorder.announcedRanges`: the locations that requests bring along.
* `Recorder.Recorded`: a step that a template makes, or a line of output; `recorded_of_mem_performAll`
  says that all recorded steps are such.
* `Recorder.Originates`: the same without the value, which is all that ranges depend on.
* `Trace.exists_rangeOutOfBounds_iff`: showing a trace meets a range outside the text just when some
  evaluation has one, a range for which no offsets are found.
* `Recorder.finish_ranges`: which ranges of a recorded trace lie in the text.
-/

namespace Retrace

/-! ## Locations in metadata -/

/-- A range that starts from the first line and column and runs forwards. -/
structure SourceRange.RunsForwards (r : SourceRange) : Prop where
  line : 1 ≤ r.start.line
  column : 1 ≤ r.start.column
  forwards : r.start ≤ r.stop

namespace Notification

theorem runsForwards_of_location? {value : String} {r : SourceRange} (h : location? value = some r) :
    r.RunsForwards := by
  obtain ⟨⟨sl, sc, el, ec⟩, -, h⟩ := Option.bind_eq_some_iff.mp h
  obtain ⟨hnot, h⟩ := Option.ite_none_left_eq_some.mp h
  obtain rfl := Option.some.inj h
  obtain ⟨hline, hcolumn, hforwards⟩ := not_or.mp hnot |>.imp_right not_or.mp
  exact ⟨Nat.pos_of_ne_zero hline, Nat.pos_of_ne_zero hcolumn, not_lt.mp hforwards⟩

theorem Draft.location_of_add {draft next : Draft} {pair : Pair} (h : draft.add pair = .ok next) :
    next.location = draft.location ∨ ∃ r, next.location = some r ∧ r.RunsForwards := by
  unfold add at h
  split at h
  · split at h <;> cases h
    exact .inl rfl
  · cases h
    exact .inl rfl
  · cases h
    exact .inl rfl
  · split at h
    · next range hrange =>
      cases h
      exact .inr ⟨range, rfl, runsForwards_of_location? hrange⟩
    · cases h
  · split at h <;> cases h
    exact .inl rfl
  · cases h
    exact .inl rfl

theorem Draft.location_of_foldlM {ps : List Pair} {draft last : Draft}
    (hdraft : ∀ r, draft.location = some r → r.RunsForwards)
    (h : ps.foldlM Draft.add draft = .ok last) :
    ∀ r, last.location = some r → r.RunsForwards := by
  induction ps generalizing draft with
  | nil =>
    cases h
    exact hdraft
  | cons pair ps ih =>
    obtain ⟨next, hadd, hrest⟩ := bind_eq_ok_iff.mp h
    refine ih (fun r hr => ?_) hrest
    rcases location_of_add hadd with hsame | ⟨r', hlocation, hr'⟩
    · exact hdraft r (hsame.symm.trans hr)
    · obtain rfl := Option.some.inj (hlocation.symm.trans hr)
      exact hr'

/-- The location in a metadata text starts from one and runs forwards. -/
theorem location_of_parse {metadata : String} {template : Notification}
    (h : parse metadata = .ok template) {r : SourceRange} (hr : template.location = some r) :
    r.RunsForwards := by
  obtain ⟨draft, hdraft, hfinish⟩ := bind_eq_ok_iff.mp h
  have hlocation : template.location = draft.location := by
    unfold Draft.finish at hfinish
    split at hfinish
    · cases hfinish
    · split at hfinish <;> cases hfinish
      rfl
  exact Draft.location_of_foldlM (fun _ hnone => by cases hnone) hdraft r (hlocation.symm.trans hr)

theorem Makes.eq_toStep {template : Notification} {payload : Option (List UInt8)} {s : Step}
    (h : template.Makes payload s) : ∃ value, s = { template.toStep with value := value } := by
  cases h with
  | bare => exact ⟨none, rfl⟩
  | valued => exact ⟨_, rfl⟩

end Notification

/-! ## Where recorded steps come from -/

namespace Recorder

/-- The locations of those templates. -/
def announcedRanges (requests : List Request) : List SourceRange :=
  (announced requests).filterMap Notification.location

/-- A step as one of some templates announces it, but for its value, or a line of output. -/
inductive Originates (templates : List Notification) : Step → Prop
  | announced {template : Notification} (h : template ∈ templates) (value : Option TypedValue) :
      Originates templates { template.toStep with value := value }
  | output (stream : Action) (line : String) :
      Originates templates { action := stream, text := some line }

/-- A step that one of some templates makes, or a line of output. -/
inductive Recorded (templates : List Notification) : Step → Prop
  | made {template : Notification} {payload : Option (List UInt8)} {s : Step}
      (h : template ∈ templates) (hmakes : template.Makes payload s) : Recorded templates s
  | output {stream : Action} (hstream : stream = .stdout ∨ stream = .stderr) (line : String) :
      Recorded templates { action := stream, text := some line }

theorem Recorded.mono {templates templates' : List Notification} {s : Step}
    (h : Recorded templates s) (hsub : templates ⊆ templates') : Recorded templates' s := by
  cases h with
  | made h hmakes => exact .made (hsub h) hmakes
  | output hstream line => exact .output hstream line

theorem Recorded.originates {templates : List Notification} {s : Step} (h : Recorded templates s) :
    Originates templates s := by
  cases h with
  | made h hmakes =>
    obtain ⟨value, rfl⟩ := hmakes.eq_toStep
    exact .announced h value
  | output hstream line => exact .output _ line

section OneRequest

variable {r : Recorder} {templates : List Notification} {s : Step}

theorem mem_steps_recordAll {steps : List Step} (h : s ∈ (r.recordAll steps).1.steps.toList) :
    s ∈ r.steps.toList ∨ s ∈ steps := by
  have hadd : ∀ {added : List Step}, s ∈ (r.add added).steps.toList → added ⊆ steps →
      s ∈ r.steps.toList ∨ s ∈ steps := fun h hsub => by
    rw [toList_add] at h
    exact (List.mem_append.mp h).imp_right fun h => hsub h
  rcases r.recordAll_cases steps with hcase | ⟨room, hcase⟩
  · rw [hcase] at h
    exact hadd h (List.Subset.refl steps)
  · rw [hcase] at h
    exact hadd h (List.take_subset room steps)

theorem mem_steps_recordTemplates {payloads : List (List UInt8)}
    (h : s ∈ (r.recordTemplates templates payloads).1.steps.toList) :
    s ∈ r.steps.toList ∨ Recorded templates s := by
  rcases makes_or_rejection templates payloads with ⟨steps, hmakes⟩ | ⟨e, hrejection⟩
  · rw [recordTemplates_of_makes hmakes] at h
    refine (mem_steps_recordAll h).imp_right fun hs => ?_
    obtain ⟨x, hx, hmakes⟩ := exists_of_mem_forall₂ hmakes hs
    have htemplate : x.1 ∈ templates := by
      rw [← map_fst_handOut templates payloads]
      exact List.mem_map_of_mem hx
    exact .made htemplate hmakes
  · rw [recordTemplates_of_rejection hrejection] at h
    exact .inl h

theorem mem_steps_print {stream : Action} {line : String}
    (hstream : stream = .stdout ∨ stream = .stderr)
    (h : s ∈ (r.print stream line).1.steps.toList) :
    s ∈ r.steps.toList ∨ Recorded templates s := by
  unfold print at h
  split at h
  · exact .inl h
  · refine (mem_steps_recordAll h).imp_right fun hs => ?_
    rw [List.mem_singleton.mp hs]
    exact .output hstream (line ++ "\n")

/-- A request adds steps of the templates that it notifies about, or brings along, and output. -/
theorem mem_steps_perform {request : Request} (hregistered : ∀ reference,
      r.templatesOf reference ⊆ templates)
    (h : s ∈ (r.perform request).1.steps.toList) :
    s ∈ r.steps.toList ∨ Recorded (templates ++ request.announced?.toList) s := by
  cases request with
  | register reference template => exact .inl h
  | registerMetadata reference metadata =>
    rw [(steps_perform_of_not_records r rfl).1] at h
    exact .inl h
  | notify reference payloads =>
    rw [perform, notify] at h
    split at h
    · exact .inl h
    · split at h
      · exact .inl h
      · exact (mem_steps_recordTemplates h).imp_right fun hs =>
          hs.mono fun _ ht => List.mem_append_left _ (hregistered reference ht)
  | notifyMetadata metadata payloads =>
    rw [perform, notifyMetadata] at h
    split at h
    · exact .inl h
    · split at h
      · next template hparse =>
        refine (mem_steps_recordTemplates h).imp_right fun hs => hs.mono ?_
        rw [Request.announced?, hparse]
        exact List.subset_append_right templates [template]
      · exact .inl h
  | printOutput line => exact mem_steps_print (.inl rfl) h
  | printError line => exact mem_steps_print (.inr rfl) h

end OneRequest

/-- **Every recorded step is output, or one that an announced template makes.** -/
theorem recorded_of_mem_performAll {limit : Nat} {requests : List Request} {s : Step}
    (h : s ∈ ((new limit).performAll requests).1.steps.toList) :
    Recorded (announced requests) s := by
  induction requests using List.reverseRecOn with
  | nil => exact absurd h List.not_mem_nil
  | append_singleton requests request ih =>
    rw [performAll_append_singleton] at h
    rw [announced_append_singleton]
    have hregistered (reference : UInt32) :
        ((new limit).performAll requests).1.templatesOf reference ⊆ announced requests := by
      rw [templatesOf_performAll]
      exact registered_subset_announced reference requests
    rcases mem_steps_perform hregistered h with h | h
    · exact (ih h).mono (List.subset_append_left _ _)
    · exact h

end Recorder

/-! ## Ranges outside the text -/

/-- The source cannot be shown for a range outside the text just when that is the first such range of
the evaluations that stand. -/
theorem evaluatedCode_eq_rangeOutOfBounds_iff {code : String} {steps : List Step} {r : SourceRange} :
    evaluatedCode code steps = .error (.rangeOutOfBounds r) ↔
      ∃ e, (standingEvaluations steps).find? (fun e => !isInText code e) = some e ∧ e.span = r := by
  constructor
  · intro h
    rcases evaluatedCode_error_cases h with ⟨e, hfind, herror⟩ | ⟨start, stop, herror⟩
    · exact ⟨e, hfind, (SourceError.rangeOutOfBounds.inj herror).symm⟩
    · cases herror
  · rintro ⟨e, hfind, rfl⟩
    unfold evaluatedCode
    rw [substitutions_eq_error hfind]
    rfl

/-- Such a range is that of an evaluation recorded by then. -/
theorem exists_of_rangeOutOfBounds {code : String} {steps : List Step} {r : SourceRange}
    (h : evaluatedCode code steps = .error (.rangeOutOfBounds r)) :
    ∃ s ∈ steps, ∃ e, evaluation? s = some e ∧ e.span = r ∧
      (LineIndex.ofText code.toList).offsets? r = none := by
  obtain ⟨e, hfind, rfl⟩ := evaluatedCode_eq_rangeOutOfBounds_iff.mp h
  obtain ⟨s, hs, he⟩ :=
    exists_evaluation?_of_mem_standingEvaluations (List.mem_of_find?_eq_some hfind)
  have hout := List.find?_some hfind
  rw [Bool.not_eq_true', isInText, Option.isSome_eq_false_iff, Option.isNone_iff_eq_none] at hout
  exact ⟨s, hs, e, he, rfl, hout⟩

/-- An evaluation outside the text is met when it is recorded. -/
theorem exists_rangeOutOfBounds_append {code : String} (before : List Step) {s : Step}
    {e : Segment Location} (he : evaluation? s = some e)
    (hout : (LineIndex.ofText code.toList).offsets? e.span = none) :
    ∃ r, evaluatedCode code (before ++ [s]) = .error (.rangeOutOfBounds r) := by
  have hnot : (!isInText code e) = true := by
    rw [isInText, hout]
    rfl
  have hfound : ((standingEvaluations (before ++ [s])).find? fun e => !isInText code e).isSome :=
    List.find?_isSome.mpr ⟨e, mem_standingEvaluations_append_self he, hnot⟩
  obtain ⟨first, hfirst⟩ := Option.isSome_iff_exists.mp hfound
  exact ⟨first.span, evaluatedCode_eq_rangeOutOfBounds_iff.mpr ⟨first, hfirst, rfl⟩⟩

/-- **Showing a trace meets a range outside the text just when some evaluation has one.** -/
theorem Trace.exists_rangeOutOfBounds_iff (trace : Trace) :
    (∃ shown r, shown <+: trace.steps ∧
      evaluatedCode trace.code shown = .error (.rangeOutOfBounds r)) ↔
    ∃ s ∈ trace.steps, ∃ e, evaluation? s = some e ∧
      (LineIndex.ofText trace.code.toList).offsets? e.span = none := by
  constructor
  · rintro ⟨shown, r, hshown, herror⟩
    obtain ⟨s, hs, e, he, rfl, hout⟩ := exists_of_rangeOutOfBounds herror
    exact ⟨s, hshown.subset hs, e, he, hout⟩
  · rintro ⟨s, hs, e, he, hout⟩
    obtain ⟨before, hshown⟩ := exists_isPrefix_of_mem hs
    obtain ⟨r, herror⟩ := exists_rangeOutOfBounds_append before he hout
    exact ⟨before ++ [s], r, hshown, herror⟩

/-! ## Recorded traces -/

theorem SourceRange.LiesIn.runsForwards {r : SourceRange} {text : List Char} (h : r.LiesIn text) :
    r.RunsForwards := by
  obtain ⟨hforwards, span, hspan, -⟩ := h
  obtain ⟨hline, hcolumn⟩ := LineIndex.pos_of_offset? (LineIndex.offsets?_eq_some_iff.mp hspan).1
  exact ⟨hline, hcolumn, hforwards⟩

/-- A built trace has the steps that it was built from, placed by their nodes and labelled. -/
theorem Trace.mem_steps_of_build {code : String} {nodes : List SyntaxNode} {steps : List Step}
    {trace : Trace} (h : build code nodes steps = .ok trace) {t : Step} :
    t ∈ trace.steps ↔ ∃ s ∈ steps, t = Label.assignStep
      (Label.statementRanges (steps.map (Step.placed ⟨nodes⟩))) (s.placed ⟨nodes⟩) := by
  rw [eq_of_build h]
  simp only [Label.assign, List.map_map, List.mem_map, Function.comp_apply, eq_comm]

namespace Recorder

variable {limit : Nat} {requests : List Request} {code : String} {nodes : List SyntaxNode}
  {trace : Trace}

theorem scope_of_mem_performAll {s : Step}
    (h : s ∈ ((new limit).performAll requests).1.steps.toList) : s.scope = none := by
  cases (recorded_of_mem_performAll h).originates <;> rfl

theorem mem_announcedRanges_of_mem_performAll {s : Step}
    (h : s ∈ ((new limit).performAll requests).1.steps.toList) {r : SourceRange}
    (hr : s.range = some r) : r ∈ announcedRanges requests := by
  cases (recorded_of_mem_performAll h).originates with
  | announced htemplate value => exact List.mem_filterMap.mpr ⟨_, htemplate, hr⟩
  | output => cases hr

/-- Locations that come from metadata texts run forwards. -/
theorem runsForwards_of_mem_announcedRanges (hparsed : ∀ request ∈ requests, request.FromMetadata)
    {r : SourceRange} (h : r ∈ announcedRanges requests) : r.RunsForwards := by
  obtain ⟨template, htemplate, hr⟩ := List.mem_filterMap.mp h
  obtain ⟨metadata, hparse⟩ := exists_parse_of_mem_announced hparsed htemplate
  exact Notification.location_of_parse hparse hr

/-- Scopes come from nodes alone, and ranges from nodes or from what was announced. -/
theorem ranges_of_finish (hnodes : ∀ node ∈ nodes, node.range.LiesIn code.toList)
    (hfinish : ((new limit).performAll requests).1.finish code nodes = .ok trace) {t : Step}
    (ht : t ∈ trace.steps) :
    (∀ r, t.scope = some r → r.LiesIn code.toList) ∧
    ∀ r, t.range = some r → r.LiesIn code.toList ∨ r ∈ announcedRanges requests := by
  obtain ⟨s, hs, rfl⟩ := (Trace.mem_steps_of_build hfinish).mp ht
  obtain ⟨label, -, hlabelled⟩ := Label.assignStep_eq _ (s.placed ⟨nodes⟩)
  rw [hlabelled]
  have hnode {r : SourceRange} : (∃ node ∈ nodes, node.range = r) → r.LiesIn code.toList := by
    rintro ⟨node, hnode, rfl⟩
    exact hnodes node hnode
  refine ⟨fun r hr => ?_, fun r hr => ?_⟩
  · refine hnode ((Step.scope_placed hr).resolve_left fun hown => ?_)
    cases (scope_of_mem_performAll hs).symm.trans hown
  · exact (Step.range_placed hr).symm.imp hnode (mem_announcedRanges_of_mem_performAll hs)

/-- **Which ranges of a recorded trace lie in the text.** A trace cannot be built just when a node is
not known, and the first such node is the error; ranges are not looked at. When the nodes lie in the
text, so do all scopes of the trace, and all ranges but those that were announced as locations. If all
announced locations lie in the text, so does the whole trace, and no range is out of bounds when the
source is shown. Otherwise one is just when it is an evaluation's, and it is a location that was
announced. Those from metadata texts start from one and run forwards. -/
theorem finish_ranges (limit : Nat) (requests : List Request) (code : String)
    (nodes : List SyntaxNode) (hnodes : ∀ node ∈ nodes, node.range.LiesIn code.toList) :
    let r := ((new limit).performAll requests).1
    (∀ e, r.finish code nodes = .error e ↔
      ((r.steps.toList.map Step.node).flatMap (nodeFaults (nodes.map SyntaxNode.id))).head? =
        some e) ∧
    ∀ trace, r.finish code nodes = .ok trace →
      (∀ s ∈ trace.steps, ∀ range, s.scope = some range → range.LiesIn code.toList) ∧
      (∀ s ∈ trace.steps, ∀ range, s.range = some range →
        range.LiesIn code.toList ∨ range ∈ announcedRanges requests) ∧
      ((∀ range ∈ announcedRanges requests, range.LiesIn code.toList) →
        trace.InText ∧ ∀ shown range, shown <+: trace.steps →
          evaluatedCode trace.code shown ≠ .error (.rangeOutOfBounds range)) ∧
      ((∃ shown range, shown <+: trace.steps ∧
          evaluatedCode trace.code shown = .error (.rangeOutOfBounds range)) ↔
        ∃ s ∈ trace.steps, ∃ e, evaluation? s = some e ∧
          (LineIndex.ofText code.toList).offsets? e.span = none) ∧
      (∀ shown range, shown <+: trace.steps →
        evaluatedCode trace.code shown = .error (.rangeOutOfBounds range) →
          ¬ range.LiesIn code.toList ∧ range ∈ announcedRanges requests) ∧
      ((∀ request ∈ requests, request.FromMetadata) →
        ∀ s ∈ trace.steps, ∀ range, s.range = some range → range.RunsForwards) := by
  intro r
  refine ⟨fun e => ?_, fun trace hfinish => ?_⟩
  · rw [← error?_eq_some_iff, finish, Trace.error?_build]
  have hcode : trace.code = code := by rw [Trace.eq_of_build hfinish]
  have htree : trace.tree.nodes = nodes := by rw [Trace.eq_of_build hfinish]
  have hscopes := fun s hs => (ranges_of_finish hnodes hfinish (t := s) hs).1
  have hranges := fun s hs => (ranges_of_finish hnodes hfinish (t := s) hs).2
  have hmet : ∀ shown range, shown <+: trace.steps →
      evaluatedCode trace.code shown = .error (.rangeOutOfBounds range) →
        ¬ range.LiesIn code.toList ∧ range ∈ announcedRanges requests := by
    intro shown range hshown herror
    obtain ⟨s, hs, e, he, rfl, hnone⟩ := exists_of_rangeOutOfBounds herror
    rw [hcode] at hnone
    have hout : ¬ SourceRange.LiesIn e.span code.toList := by
      rintro ⟨-, span, hspan, -⟩
      cases hnone.symm.trans hspan
    exact ⟨hout, (hranges s (hshown.subset hs) _ (range_of_evaluation? he)).resolve_left hout⟩
  refine ⟨hscopes, hranges, fun hall => ⟨⟨?_, ?_, ?_⟩, ?_⟩, ?_, hmet, ?_⟩
  · rw [htree, hcode]
    exact hnodes
  · intro s hs range hrange
    rw [hcode]
    exact (hranges s hs range hrange).elim id (hall range)
  · rw [hcode]
    exact hscopes
  · intro shown range hshown herror
    obtain ⟨hout, hannounced⟩ := hmet shown range hshown herror
    exact hout (hall range hannounced)
  · rw [trace.exists_rangeOutOfBounds_iff, hcode]
  · intro hparsed s hs range hrange
    exact (hranges s hs range hrange).elim SourceRange.LiesIn.runsForwards
      (runsForwards_of_mem_announcedRanges hparsed)

/-- A parameter at a node and an evaluation that ends behind the text of a call `f(n);`. -/
def outsideEvaluation : List Request :=
  [.notifyMetadata "a=par;i=n;t=int;n=2" [[3, 0, 0, 0]],
    .notifyMetadata "a=eval;t=int;l=[1,1,1,9]" [[7, 0, 0, 0]]]

/-- The nodes of the call and of its argument. -/
def callNodes : List SyntaxNode := [⟨1, none, ⟨⟨1, 1⟩, ⟨1, 5⟩⟩⟩, ⟨2, some 1, ⟨⟨1, 3⟩, ⟨1, 4⟩⟩⟩]

theorem finish_outsideEvaluation : ∃ trace,
    ((new 10).performAll outsideEvaluation).1.finish "f(n);" callNodes = .ok trace ∧
    trace.code = "f(n);" ∧ trace.steps =
      [{ action := .parameter, node := some 2, range := some ⟨⟨1, 3⟩, ⟨1, 4⟩⟩,
          identifier := some "n", value := some ⟨"int", .int 3⟩, scope := some ⟨⟨1, 1⟩, ⟨1, 5⟩⟩ },
        { action := .eval, range := some ⟨⟨1, 1⟩, ⟨1, 10⟩⟩, value := some ⟨"int", .int 7⟩ }] := by
  have hsteps : ((new 10).performAll outsideEvaluation).1.steps.toList =
      [{ action := .parameter, node := some 2, identifier := some "n",
          value := some ⟨"int", .int 3⟩ },
        { action := .eval, range := some ⟨⟨1, 1⟩, ⟨1, 10⟩⟩, value := some ⟨"int", .int 7⟩ }] := by
    decide +kernel
  rw [finish, hsteps]
  exact ⟨_, rfl, rfl, rfl⟩

theorem liesIn_callNodes : ∀ node ∈ callNodes, node.range.LiesIn "f(n);".toList := by
  simp only [SourceRange.liesIn_iff]
  decide +kernel

/-- The parameter's range and scope lie in the text and both ranges run forwards, but the source cannot
always be shown. -/
theorem outsideEvaluation_ranges : (∀ node ∈ callNodes, node.range.LiesIn "f(n);".toList) ∧
    ∃ trace, ((new 10).performAll outsideEvaluation).1.finish "f(n);" callNodes = .ok trace ∧
      SourceRange.LiesIn ⟨⟨1, 1⟩, ⟨1, 5⟩⟩ trace.code.toList ∧
      (∀ s ∈ trace.steps, ∀ range, s.range = some range → range.RunsForwards) ∧
      ∃ shown range, shown <+: trace.steps ∧
        evaluatedCode trace.code shown = .error (.rangeOutOfBounds range) := by
  obtain ⟨trace, hfinish, hcode, hsteps⟩ := finish_outsideEvaluation
  obtain ⟨-, hfinished⟩ := finish_ranges 10 outsideEvaluation "f(n);" callNodes liesIn_callNodes
  obtain ⟨hscopes, -, -, hmet, -, hforwards⟩ := hfinished trace hfinish
  refine ⟨liesIn_callNodes, trace, hfinish, ?_, hforwards ?_, hmet.mpr ?_⟩
  · rw [hcode]
    exact hscopes _ (hsteps ▸ List.mem_cons_self) _ rfl
  · simp [outsideEvaluation, Request.FromMetadata]
  · exact ⟨_, hsteps ▸ List.mem_cons_of_mem _ List.mem_cons_self, _, rfl, by decide +kernel⟩

/-- The evaluation has a range in the trace that the text does not have. -/
theorem outsideEvaluation_not_surfaced : (∀ node ∈ callNodes, node.range.LiesIn "f(n);".toList) ∧
    ∃ trace, ((new 10).performAll outsideEvaluation).1.finish "f(n);" callNodes = .ok trace ∧
      (∃ s ∈ trace.steps, s.range = some ⟨⟨1, 1⟩, ⟨1, 10⟩⟩) ∧
      (LineIndex.ofText trace.code.toList).offsets? ⟨⟨1, 1⟩, ⟨1, 10⟩⟩ = none ∧
      evaluatedCode trace.code trace.steps =
        .error (.rangeOutOfBounds ⟨⟨1, 1⟩, ⟨1, 10⟩⟩) := by
  obtain ⟨trace, hfinish, hcode, hsteps⟩ := finish_outsideEvaluation
  refine ⟨liesIn_callNodes, trace, hfinish, ⟨_, hsteps ▸ List.mem_cons_of_mem _ List.mem_cons_self,
    rfl⟩, ?_, ?_⟩
  · rw [hcode]
    decide +kernel
  · rw [hcode, hsteps]
    decide +kernel

end Recorder

end Retrace
