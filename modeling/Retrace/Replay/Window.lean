import Retrace.Step

/-!
# The statement window

Invocations open call frames and returns close them; the steps of a call that has returned drop out
with its frame. What is being executed is the part of the innermost open frame from its last
statement on, or the whole frame before its first statement. A return without an open call changes
nothing.

Everything here works on any items that stand for steps, such as steps with their positions.

Models `current_statement_window`, `current_statement` and `active_range`.

* `Frames.record`: one more step.
* `statementWindow`: the steps of the statement that is being executed.
* `windowBy_map`: the window does not depend on what the steps are accompanied by.
* `currentStatement?`, `activeRange?`: that statement, and the range that execution is confined to.
-/

namespace Retrace

/-- The open call frames: the steps of the innermost one, newest first, and those of its callers. -/
structure Frames (α : Type) where
  recent : List α
  callers : List (List α)
  deriving Repr

section Items

variable {α β : Type} (step : α → Step)

namespace Frames

/-- The outermost frame alone, before any step. -/
def empty : Frames α := ⟨[], []⟩

/-- The frames after one more step. -/
def record (frames : Frames α) (x : α) : Frames α :=
  if (step x).isInvocation then ⟨[], frames.recent :: frames.callers⟩
  else if (step x).isReturn then
    match frames.callers with
    | [] => frames
    | caller :: callers => ⟨caller, callers⟩
  else ⟨x :: frames.recent, frames.callers⟩

/-- The frames after a list of steps. -/
def ofItems (xs : List α) : Frames α := xs.foldl (record step) empty

/-- The frames with every item replaced. -/
def map (f : α → β) (frames : Frames α) : Frames β :=
  ⟨frames.recent.map f, frames.callers.map (List.map f)⟩

theorem map_record (f : β → α) (frames : Frames β) (x : β) :
    (frames.record (step ∘ f) x).map f = (frames.map f).record step (f x) := by
  unfold record
  simp only [Function.comp]
  by_cases hi : (step (f x)).isInvocation = true
  · rw [if_pos hi, if_pos hi]
    rfl
  · rw [if_neg hi, if_neg hi]
    by_cases hr : (step (f x)).isReturn = true
    · rw [if_pos hr, if_pos hr]
      obtain ⟨recent, callers⟩ := frames
      cases callers <;> rfl
    · rw [if_neg hr, if_neg hr]
      rfl

theorem map_ofItems (f : β → α) (xs : List β) :
    (ofItems (step ∘ f) xs).map f = ofItems step (xs.map f) := by
  have key : ∀ (xs : List β) (frames : Frames β),
      (xs.foldl (record (step ∘ f)) frames).map f =
        (xs.map f).foldl (record step) (frames.map f) := by
    intro xs
    induction xs with
    | nil => exact fun _ => rfl
    | cons x xs ih =>
      intro frames
      rw [List.foldl_cons, ih, List.map_cons, List.foldl_cons, map_record]
  exact key xs empty

end Frames

/-- The part of a frame from its last statement on, from the newest step back; `later` comes after
it. -/
def sinceStatement (later : List α) : List α → List α
  | [] => later
  | x :: older => if (step x).isStatement then x :: later else sinceStatement (x :: later) older

theorem map_sinceStatement (f : β → α) (later older : List β) :
    (sinceStatement (step ∘ f) later older).map f =
      sinceStatement step (later.map f) (older.map f) := by
  induction older generalizing later with
  | nil => rfl
  | cons x older ih =>
    unfold sinceStatement
    simp only [Function.comp, List.map_cons]
    by_cases h : (step (f x)).isStatement = true
    · rw [if_pos h, if_pos h, List.map_cons]
    · rw [if_neg h, if_neg h]
      exact ih (x :: later)

/-- The items of the statement that is being executed. -/
def windowBy (xs : List α) : List α := sinceStatement step [] (Frames.ofItems step xs).recent

theorem windowBy_map (f : β → α) (xs : List β) :
    (windowBy (step ∘ f) xs).map f = windowBy step (xs.map f) := by
  unfold windowBy
  rw [map_sinceStatement, ← Frames.map_ofItems]
  rfl

end Items

/-- The steps of the statement that is being executed. -/
def statementWindow (steps : List Step) : List Step := windowBy id steps

/-- The statement that is being executed, when the innermost frame has reached one. -/
def currentStatement? (steps : List Step) : Option Step :=
  (statementWindow steps).head?.filter Step.isStatement

/-- The range that execution is confined to: the statement's, or before a call's first statement the
scope of its last parameter that has one. -/
def activeRange? (steps : List Step) : Option SourceRange :=
  match currentStatement? steps with
  | some statement => statement.range
  | none => ((statementWindow steps).reverse.filter Step.isParameter).findSome? Step.scope

end Retrace
