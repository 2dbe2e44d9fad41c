import Retrace.Proofs.Loading
import Retrace.Proofs.Window
import Retrace.Session

/-!
# No look-ahead

The last thing that building a trace does is to label the statements, and a label tells the rank of a
statement among all of its line, later ones included. Everything else about a step comes from the
step itself and its node, and nothing that is shown of a run reads the label. So what is shown at
some point of a run cannot tell how the run goes on.

* `Step.unlabelled`: a step without its statement's label.
* `statementWindow_unlabelled`, `current_unlabelled`, `ofSteps_unlabelled`: the window, the variables
  and the call tree do not depend on labels.
* `ShownAlike`: two lists of steps have the same views.
* `shownAlike_of_unlabelled_eq`: labels apart, equal steps are shown alike.
* `Trace.build_without_lookAhead`: runs that begin alike are shown alike for as long.
-/

namespace Retrace

/-! ## Steps without labels -/

/-- A step without the label of its statement; other steps have none of their own. -/
def Step.unlabelled (s : Step) : Step := if s.isStatement then { s with label := none } else s

namespace Step

variable (s : Step)

@[simp] theorem action_unlabelled : s.unlabelled.action = s.action := by
  unfold unlabelled; split <;> rfl

@[simp] theorem range_unlabelled : s.unlabelled.range = s.range := by
  unfold unlabelled; split <;> rfl

@[simp] theorem identifier_unlabelled : s.unlabelled.identifier = s.identifier := by
  unfold unlabelled; split <;> rfl

@[simp] theorem value_unlabelled : s.unlabelled.value = s.value := by
  unfold unlabelled; split <;> rfl

@[simp] theorem scope_unlabelled : s.unlabelled.scope = s.scope := by
  unfold unlabelled; split <;> rfl

@[simp] theorem text_unlabelled : s.unlabelled.text = s.text := by
  unfold unlabelled; split <;> rfl

@[simp] theorem isStatement_unlabelled : s.unlabelled.isStatement = s.isStatement := by
  simp [isStatement]

@[simp] theorem isExpression_unlabelled : s.unlabelled.isExpression = s.isExpression := by
  simp [isExpression]

@[simp] theorem isParameter_unlabelled : s.unlabelled.isParameter = s.isParameter := by
  simp [isParameter]

@[simp] theorem isDeclaration_unlabelled : s.unlabelled.isDeclaration = s.isDeclaration := by
  simp [isDeclaration]

@[simp] theorem isAssignment_unlabelled : s.unlabelled.isAssignment = s.isAssignment := by
  simp [isAssignment]

@[simp] theorem isOutput_unlabelled : s.unlabelled.isOutput = s.isOutput := by
  simp [isOutput]

theorem unlabelled_of_not_isStatement {s : Step} (h : ¬ s.isStatement = true) :
    s.unlabelled = s := if_neg h

end Step

/-- Labelling changes nothing but the labels of statements. -/
theorem Label.unlabelled_assignStep (ranges : List SourceRange) (s : Step) :
    (assignStep ranges s).unlabelled = s.unlabelled := by
  unfold assignStep
  split
  · next _ hrange =>
    have hstatement : s.isStatement = true := (Option.ite_none_right_eq_some.mp hrange).1
    unfold Step.unlabelled
    rw [if_pos hstatement]
    exact if_pos hstatement
  · rfl

/-! ## Views without labels -/

section Items

variable {α : Type} {f g : α → Step}

theorem Frames.record_congr (h : ∀ x, (f x).action = (g x).action) (frames : Frames α) (x : α) :
    frames.record f x = frames.record g x := by
  unfold record Step.isInvocation Step.isReturn
  rw [h]

theorem sinceStatement_congr (h : ∀ x, (f x).action = (g x).action) (later older : List α) :
    sinceStatement f later older = sinceStatement g later older := by
  induction older generalizing later with
  | nil => rfl
  | cons x older ih =>
    unfold sinceStatement Step.isStatement
    rw [h, ih]

/-- Which items are in the window is a matter of actions alone. -/
theorem windowBy_congr (h : ∀ x, (f x).action = (g x).action) (xs : List α) :
    windowBy f xs = windowBy g xs := by
  have hrecord : Frames.record f = Frames.record g :=
    funext fun frames => funext fun x => frames.record_congr h x
  unfold windowBy Frames.ofItems
  rw [hrecord, sinceStatement_congr h]

end Items

variable (steps : List Step)

theorem statementWindow_unlabelled :
    statementWindow (steps.map Step.unlabelled) =
      (statementWindow steps).map Step.unlabelled := by
  unfold statementWindow
  rw [← windowBy_map, windowBy_congr fun s => s.action_unlabelled]
  rfl

theorem currentStatement?_unlabelled :
    currentStatement? (steps.map Step.unlabelled) =
      (currentStatement? steps).map Step.unlabelled := by
  unfold currentStatement?
  rw [statementWindow_unlabelled, List.head?_map, Option.filter_map]
  simp [Function.comp_def]

theorem activeRange?_unlabelled : activeRange? (steps.map Step.unlabelled) = activeRange? steps := by
  unfold activeRange?
  rw [currentStatement?_unlabelled]
  cases currentStatement? steps with
  | some statement => exact statement.range_unlabelled
  | none =>
    rw [statementWindow_unlabelled, ← List.map_reverse, List.filter_map, List.findSome?_map]
    simp [Function.comp_def]

theorem evaluation?_unlabelled (s : Step) : evaluation? s.unlabelled = evaluation? s := by
  simp [evaluation?]

theorem substitutions_unlabelled (code : String) :
    substitutions code (steps.map Step.unlabelled) = substitutions code steps := by
  unfold substitutions
  rw [statementWindow_unlabelled, List.filterMap_map]
  simp only [Function.comp_def, evaluation?_unlabelled]

theorem evaluatedCode_unlabelled (code : String) :
    evaluatedCode code (steps.map Step.unlabelled) = evaluatedCode code steps := by
  unfold evaluatedCode
  rw [substitutions_unlabelled]

theorem highlightMask_unlabelled (code : String) (block : Char) :
    highlightMask code (steps.map Step.unlabelled) block = highlightMask code steps block := by
  have hrange : (currentStatement? (steps.map Step.unlabelled)).bind Step.range =
      (currentStatement? steps).bind Step.range := by
    rw [currentStatement?_unlabelled]
    cases currentStatement? steps with
    | none => rfl
    | some statement => exact statement.range_unlabelled
  unfold highlightMask maskStatement
  rw [hrange, substitutions_unlabelled]

namespace Variable

theorem introduced?_unlabelled (s : Step) : introduced? s.unlabelled = introduced? s := by
  simp [introduced?, Step.introducesVariable]

theorem lastAssignment?_unlabelled (name : String) :
    lastAssignment? name (steps.map Step.unlabelled) =
      (lastAssignment? name steps).map Step.unlabelled := by
  induction steps with
  | nil => rfl
  | cons s steps ih =>
    rw [List.map_cons, lastAssignment?, lastAssignment?, ih, Option.map_or]
    simp

theorem lastIntroduction?_unlabelled (name : String) :
    lastIntroduction? name (steps.map Step.unlabelled) =
      (lastIntroduction? name steps).map (Prod.map Step.unlabelled (List.map Step.unlabelled)) := by
  induction steps with
  | nil => rfl
  | cons s steps ih =>
    rw [List.map_cons, lastIntroduction?, lastIntroduction?, ih, Option.map_or,
      introduced?_unlabelled]
    split <;> rfl

theorem ofIntroduction_unlabelled (name : String) (introduction : Step) :
    ofIntroduction name introduction.unlabelled (steps.map Step.unlabelled) =
      ofIntroduction name introduction steps := by
  unfold ofIntroduction
  rw [lastAssignment?_unlabelled]
  cases lastAssignment? name steps <;> simp

theorem current_unlabelled : current (steps.map Step.unlabelled) = current steps := by
  have hnames : introducedNames (steps.map Step.unlabelled) = introducedNames steps := by
    unfold introducedNames
    rw [List.filterMap_map]
    simp only [Function.comp_def, introduced?_unlabelled]
  unfold current
  simp only [hnames, lastIntroduction?_unlabelled, Option.map_map, Function.comp_def, Prod.map,
    ofIntroduction_unlabelled]

end Variable

theorem written_unlabelled :
    Session.written (steps.map Step.unlabelled) = Session.written steps := by
  unfold Session.written
  rw [List.filter_map, List.filterMap_map]
  simp [Function.comp_def]

namespace CallTree

/-- A statement leaves the builder as it is, and other steps keep their labels. -/
theorem Builder.record_unlabelled (b : Builder) (index : Nat) (s : Step) :
    b.record index s.unlabelled = b.record index s := by
  by_cases h : s.isStatement = true
  · have haction : s.action = .statement := beq_iff_eq.mp h
    simp [record, Step.isInvocation, Step.isParameter, Step.isReturn, haction]
  · rw [Step.unlabelled_of_not_isStatement h]

theorem Builder.recordAll_unlabelled (b : Builder) (index : Nat) :
    b.recordAll index (steps.map Step.unlabelled) = b.recordAll index steps := by
  induction steps generalizing b index with
  | nil => rfl
  | cons s steps ih =>
    simp only [List.map_cons, recordAll, record_unlabelled, ih]

theorem ofSteps_unlabelled : ofSteps (steps.map Step.unlabelled) = ofSteps steps := by
  unfold ofSteps
  rw [Builder.recordAll_unlabelled]

end CallTree

/-! ## Runs that begin alike -/

/-- All that can be shown of a source after some steps is the same after others. -/
structure ShownAlike (code : String) (steps steps' : List Step) : Prop where
  evaluated : evaluatedCode code steps = evaluatedCode code steps'
  highlighted : ∀ block, highlightMask code steps block = highlightMask code steps' block
  current : Variable.current steps = Variable.current steps'
  visible : ∀ active, Variable.visible steps active = Variable.visible steps' active
  active : activeRange? steps = activeRange? steps'
  written : Session.written steps = Session.written steps'
  calls : CallTree.ofSteps steps = CallTree.ofSteps steps'

/-- Steps that are equal up to labels are shown alike. -/
theorem shownAlike_of_unlabelled_eq (code : String) {steps steps' : List Step}
    (h : steps.map Step.unlabelled = steps'.map Step.unlabelled) : ShownAlike code steps steps' := by
  have hcurrent : Variable.current steps = Variable.current steps' := by
    rw [← Variable.current_unlabelled, h, Variable.current_unlabelled]
  exact {
    evaluated := by rw [← evaluatedCode_unlabelled, h, evaluatedCode_unlabelled]
    highlighted := fun block => by rw [← highlightMask_unlabelled, h, highlightMask_unlabelled]
    current := hcurrent
    visible := fun active => by cases active <;> simp only [Variable.visible, hcurrent]
    active := by rw [← activeRange?_unlabelled, h, activeRange?_unlabelled]
    written := by rw [← written_unlabelled, h, written_unlabelled]
    calls := by rw [← CallTree.ofSteps_unlabelled, h, CallTree.ofSteps_unlabelled] }

/-- Up to labels, each step of a trace is the step that it was built from, placed by its node. -/
theorem Trace.unlabelled_steps_of_build {code : String} {nodes : List SyntaxNode}
    {trace : Trace} {steps : List Step} (h : build code nodes steps = .ok trace) (n : Nat) :
    (trace.steps.take n).map Step.unlabelled =
      (steps.take n).map fun s => (s.placed ⟨nodes⟩).unlabelled := by
  rw [eq_of_build h]
  simp [Label.assign, List.map_take, Function.comp_def, Label.unlabelled_assignStep]

/-- **What is shown of a run does not depend on how it goes on.** When two runs of one source have the
same first `k` steps, their traces have the same first `k` steps up to the labels of statements. Up to
there the source with values and its mask, the variables, the range in force, what was written and
the calls are the same, and so is whatever a session shows. -/
theorem Trace.build_without_lookAhead {code : String} {nodes : List SyntaxNode}
    {steps steps' : List Step} {k : Nat} {trace trace' : Trace}
    (hagree : steps.take k = steps'.take k) (h : build code nodes steps = .ok trace)
    (h' : build code nodes steps' = .ok trace') :
    (trace.steps.take k).map Step.unlabelled = (trace'.steps.take k).map Step.unlabelled ∧
    trace.code = trace'.code ∧
    (∀ n, n ≤ k → ShownAlike trace.code (trace.steps.take n) (trace'.steps.take n)) ∧
    ∀ (session : Session) (cursor : Nat), cursor < k →
      let s := { session.load trace with cursor := cursor }
      let s' := { session.load trace' with cursor := cursor }
      s.output = s'.output ∧ s.evaluatedCode = s'.evaluatedCode ∧
      s.highlightMask = s'.highlightMask ∧ s.visibleVariables = s'.visibleVariables ∧
      s.callTree = s'.callTree := by
  have hcode : trace.code = trace'.code := by rw [eq_of_build h, eq_of_build h']
  have hsteps (n : Nat) (hn : n ≤ k) :
      (trace.steps.take n).map Step.unlabelled = (trace'.steps.take n).map Step.unlabelled := by
    have htake : steps.take n = steps'.take n := by
      rw [← Nat.min_eq_left hn, ← List.take_take, hagree, List.take_take]
    rw [unlabelled_steps_of_build h, unlabelled_steps_of_build h', htake]
  have hshown (n : Nat) (hn : n ≤ k) := shownAlike_of_unlabelled_eq trace.code (hsteps n hn)
  refine ⟨hsteps k (Nat.le_refl k), hcode, hshown, ?_⟩
  intro session cursor hcursor s s'
  have hviews : ShownAlike trace.code s.visibleSteps s'.visibleSteps := hshown (cursor + 1) hcursor
  refine ⟨congrArg (session.config.outputBanner ++ ·) hviews.written, ?_, ?_, ?_, hviews.calls⟩
  · exact hviews.evaluated.trans (congrArg (evaluatedCode · s'.visibleSteps) hcode)
  · exact (hviews.highlighted _).trans
      (congrArg (highlightMask · s'.visibleSteps session.config.highlightBlock) hcode)
  · unfold Session.visibleVariables
    rw [hviews.visible, hviews.active, hviews.current]
    rfl

/-- The second statement of a line, run first, and a variable declared in it. -/
def secondStatement : List Step :=
  [{ action := .statement, node := some 2 },
    { action := .declaration, node := some 2, identifier := some "b", value := some ⟨"int", .int 7⟩ }]

/-- The first statement of the line, run after it. -/
def firstStatement : List Step := [{ action := .statement, node := some 1 }]

/-- The line and its two statements. -/
def twoStatements : List SyntaxNode :=
  [⟨0, none, ⟨⟨1, 1⟩, ⟨1, 6⟩⟩⟩, ⟨1, some 0, ⟨⟨1, 1⟩, ⟨1, 3⟩⟩⟩, ⟨2, some 0, ⟨⟨1, 4⟩, ⟨1, 6⟩⟩⟩]

/-- When the run comes to the first statement later on, the second one's label is another, and all else
is shown as before. -/
theorem secondStatement_without_lookAhead : ∃ trace trace',
    Trace.build "a; b;" twoStatements secondStatement = .ok trace ∧
    Trace.build "a; b;" twoStatements (secondStatement ++ firstStatement) = .ok trace' ∧
    trace.steps.head?.bind Step.label = some "l1:1" ∧
    trace'.steps.head?.bind Step.label = some "l1:2" ∧
    Variable.current (trace'.steps.take 2) = [⟨"b", "int", some (.int 7), some ⟨⟨1, 1⟩, ⟨1, 6⟩⟩⟩] ∧
    ShownAlike trace.code (trace.steps.take 2) (trace'.steps.take 2) := by
  have hagree : secondStatement.take 2 =
      (secondStatement ++ firstStatement).take 2 := rfl
  have hshown (trace trace' : Trace)
      (h : Trace.build "a; b;" twoStatements secondStatement = .ok trace)
      (h' : Trace.build "a; b;" twoStatements (secondStatement ++ firstStatement) = .ok trace') :=
    (Trace.build_without_lookAhead hagree h h').2.2.1 2 (Nat.le_refl 2)
  exact ⟨_, _, rfl, rfl, by decide +kernel, by decide +kernel, by decide +kernel,
    hshown _ _ rfl rfl⟩

end Retrace
