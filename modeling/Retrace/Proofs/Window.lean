import Retrace.Proofs.Balance
import Retrace.Replay.Source

/-!
# Completed calls and the statement window

A call that has returned takes its frames with it. The frames that it opens stand above those of its
caller, and as long as its returns stay within the calls made since, nothing below is touched. So the
window of the caller's statement, and all that is read off it, is what it was without the call.

* `Frames.foldl_record_above`: a run that returns only from given frames and its own leaves the frames
  below alone.
* `Frames.foldl_record_completedCall`: a completed call leaves the frames as they were.
* `windowBy_completedCall`: the window with and without a completed call.
* `completedCall_leaves_no_trace`: the same for the statement, its range, its text and its mask.
-/

namespace Retrace

section Items

variable {α : Type} {step : α → Step}

namespace Frames

theorem record_of_isInvocation (frames : Frames α) {x : α} (h : (step x).isInvocation = true) :
    frames.record step x = ⟨[], frames.recent :: frames.callers⟩ := by
  rw [record, if_pos h]

theorem record_of_isReturn (recent caller : List α) (callers : List (List α)) {x : α}
    (h : (step x).isReturn = true) :
    record step ⟨recent, caller :: callers⟩ x = ⟨caller, callers⟩ := by
  rw [record, if_neg (Step.not_isInvocation_of_isReturn h), if_pos h]

theorem record_of_isReturn_nil (recent : List α) {x : α} (h : (step x).isReturn = true) :
    record step ⟨recent, []⟩ x = ⟨recent, []⟩ := by
  rw [record, if_neg (Step.not_isInvocation_of_isReturn h), if_pos h]

theorem record_of_weight_eq_zero (frames : Frames α) {x : α} (h : (step x).weight = 0) :
    frames.record step x = ⟨x :: frames.recent, frames.callers⟩ := by
  rw [record, if_neg (Step.not_isInvocation_of_weight h), if_neg (Step.not_isReturn_of_weight h)]

/-- The frames after steps that return from none but the innermost `above.length` calls: those below
stay as they are, and the height follows the balance. -/
theorem foldl_record_above (base : List (List α)) (xs : List α) (recent : List α)
    (above : List (List α)) (h : ReturnsWithin above.length (xs.map step)) :
    ∃ recent' above', xs.foldl (record step) ⟨recent, above ++ base⟩ = ⟨recent', above' ++ base⟩ ∧
      (above'.length : Int) = above.length + balance (xs.map step) := by
  induction xs generalizing recent above with
  | nil =>
    refine ⟨recent, above, rfl, ?_⟩
    rw [List.map_nil, balance_nil]
    omega
  | cons x xs ih =>
    rw [List.map_cons] at h ⊢
    obtain ⟨-, hrest⟩ := returnsWithin_cons.mp h
    rw [List.foldl_cons, balance_cons]
    rcases (step x).weight_cases with ⟨hi, hw⟩ | ⟨hr, hw⟩ | hw
    · have hrest' : ReturnsWithin (recent :: above).length (xs.map step) := by
        rw [hw] at hrest
        exact_mod_cast hrest
      obtain ⟨recent', above', hrun, hlen⟩ := ih [] (recent :: above) hrest'
      rw [record_of_isInvocation _ hi]
      refine ⟨recent', above', hrun, ?_⟩
      rw [List.length_cons] at hlen
      omega
    · -- the return closes a call above the base: with none it would not stay within them
      have hnil := hrest [] List.nil_prefix
      rw [balance_nil, hw] at hnil
      cases above with
      | nil =>
        rw [List.length_nil] at hnil
        omega
      | cons caller above =>
        have hrest' : ReturnsWithin above.length (xs.map step) := by
          rw [hw, List.length_cons] at hrest
          have hdepth : ((above.length + 1 : Nat) : Int) + -1 = above.length := by omega
          rwa [hdepth] at hrest
        obtain ⟨recent', above', hrun, hlen⟩ := ih caller above hrest'
        rw [List.cons_append, record_of_isReturn _ _ _ hr]
        refine ⟨recent', above', hrun, ?_⟩
        rw [List.length_cons]
        omega
    · have hrest' : ReturnsWithin above.length (xs.map step) := by
        rwa [hw, Int.add_zero] at hrest
      obtain ⟨recent', above', hrun, hlen⟩ := ih (x :: recent) above hrest'
      rw [record_of_weight_eq_zero _ hw]
      refine ⟨recent', above', hrun, ?_⟩
      omega

/-- A completed call leaves the frames as they were, whatever returns there were before. -/
theorem foldl_record_completedCall (frames : Frames α) {b : List α}
    (hb : CompletedCall (b.map step)) : b.foldl (record step) frames = frames := by
  obtain ⟨s, body, r, hmap, hs, hr, hbody⟩ := completedCall_iff.mp hb
  obtain ⟨x, tail, rfl, rfl, htail⟩ := List.map_eq_cons_iff.mp hmap
  obtain ⟨inner, last, rfl, rfl, hlast⟩ := List.map_eq_append_iff.mp htail
  obtain ⟨y, rest, rfl, rfl, hrest⟩ := List.map_eq_cons_iff.mp hlast
  obtain rfl := List.map_eq_nil_iff.mp hrest
  obtain ⟨recent, callers⟩ := frames
  -- during the body the caller's frames are the base and nothing of the call's own is above it
  obtain ⟨recent', above', hrun, hlen⟩ :=
    foldl_record_above (recent :: callers) inner [] [] (returnsWithin_zero.mpr hbody.matched)
  rw [hbody.closed, List.length_nil] at hlen
  obtain rfl : above' = [] := List.eq_nil_of_length_eq_zero (by omega)
  rw [List.nil_append] at hrun
  rw [List.foldl_cons, record_of_isInvocation _ hs, List.foldl_append, hrun, List.foldl_cons,
    record_of_isReturn _ _ _ hr, List.foldl_nil]

end Frames

/-! ## Members of a window -/

theorem mem_of_mem_sinceStatement {later older : List α} {x : α}
    (h : x ∈ sinceStatement step later older) : x ∈ later ∨ x ∈ older := by
  induction older generalizing later with
  | nil => exact .inl h
  | cons y older ih =>
    rw [sinceStatement] at h
    split at h
    · rcases List.mem_cons.mp h with rfl | h
      · exact .inr List.mem_cons_self
      · exact .inl h
    · rcases ih h with h | h
      · rcases List.mem_cons.mp h with rfl | h
        · exact .inr List.mem_cons_self
        · exact .inl h
      · exact .inr (List.mem_cons_of_mem y h)

/-- A frame without a statement is in the window as a whole. -/
theorem sinceStatement_of_forall_not {later older : List α}
    (h : ∀ x ∈ older, ¬ (step x).isStatement = true) :
    sinceStatement step later older = older.reverse ++ later := by
  induction older generalizing later with
  | nil => rfl
  | cons y older ih =>
    obtain ⟨hy, holder⟩ := List.forall_mem_cons.mp h
    rw [sinceStatement, if_neg hy, ih holder, List.reverse_cons, List.append_assoc]
    rfl

namespace Frames

/-- All that is in open frames. -/
def items (frames : Frames α) : List α := frames.recent ++ frames.callers.flatten

theorem mem_items_record {frames : Frames α} {x y : α} (h : y ∈ (frames.record step x).items) :
    y = x ∨ y ∈ frames.items := by
  rcases (step x).weight_cases with ⟨hi, -⟩ | ⟨hr, -⟩ | hw
  · rw [record_of_isInvocation _ hi] at h
    exact .inr h
  · obtain ⟨recent, callers⟩ := frames
    cases callers with
    | nil =>
      rw [record_of_isReturn_nil _ hr] at h
      exact .inr h
    | cons caller callers =>
      rw [record_of_isReturn _ _ _ hr] at h
      exact .inr (List.mem_append_right recent h)
  · rw [record_of_weight_eq_zero _ hw] at h
    exact List.mem_cons.mp h

theorem mem_of_mem_items {xs : List α} {y : α} (h : y ∈ (ofItems step xs).items) : y ∈ xs := by
  induction xs using List.reverseRecOn with
  | nil => exact h
  | append_singleton xs x ih =>
    unfold ofItems at h
    rw [List.foldl_append] at h
    rcases mem_items_record h with rfl | h
    · exact List.mem_append_right xs List.mem_cons_self
    · exact List.mem_append_left [x] (ih h)

end Frames

/-! ## The window without a completed call -/

/-- The window is the same with and without a completed call. -/
theorem windowBy_completedCall (p s : List α) {b : List α} (hb : CompletedCall (b.map step)) :
    windowBy step (p ++ b ++ s) = windowBy step (p ++ s) := by
  unfold windowBy Frames.ofItems
  rw [List.foldl_append, List.foldl_append, Frames.foldl_record_completedCall _ hb,
    ← List.foldl_append]

end Items

theorem statementWindow_completedCall (p s : List Step) {b : List Step} (hb : CompletedCall b) :
    statementWindow (p ++ b ++ s) = statementWindow (p ++ s) := by
  refine windowBy_completedCall p s ?_
  rwa [List.map_id]

theorem currentStatement?_congr {steps steps' : List Step}
    (h : statementWindow steps = statementWindow steps') :
    currentStatement? steps = currentStatement? steps' := by
  unfold currentStatement?
  rw [h]

theorem activeRange?_congr {steps steps' : List Step}
    (h : statementWindow steps = statementWindow steps') :
    activeRange? steps = activeRange? steps' := by
  unfold activeRange?
  rw [currentStatement?_congr h, h]

theorem substitutions_congr (code : String) {steps steps' : List Step}
    (h : statementWindow steps = statementWindow steps') :
    substitutions code steps = substitutions code steps' := by
  unfold substitutions
  rw [h]

theorem evaluatedCode_congr (code : String) {steps steps' : List Step}
    (h : statementWindow steps = statementWindow steps') :
    evaluatedCode code steps = evaluatedCode code steps' := by
  unfold evaluatedCode
  rw [substitutions_congr code h]

theorem highlightMask_congr (code : String) (block : Char) {steps steps' : List Step}
    (h : statementWindow steps = statementWindow steps') :
    highlightMask code steps block = highlightMask code steps' block := by
  unfold highlightMask maskStatement
  rw [currentStatement?_congr h, substitutions_congr code h]

/-- **A completed call leaves no trace in its caller.** Whatever steps come before it and after it, the
current statement's window, the statement, the active range, the evaluated text of every source and
its mask are the same with the call and without it. -/
theorem completedCall_leaves_no_trace (p b s : List Step) (hb : CompletedCall b) :
    statementWindow (p ++ b ++ s) = statementWindow (p ++ s) ∧
    currentStatement? (p ++ b ++ s) = currentStatement? (p ++ s) ∧
    activeRange? (p ++ b ++ s) = activeRange? (p ++ s) ∧
    (∀ code, evaluatedCode code (p ++ b ++ s) = evaluatedCode code (p ++ s)) ∧
    ∀ code block, highlightMask code (p ++ b ++ s) block = highlightMask code (p ++ s) block := by
  have hwindow := statementWindow_completedCall p s hb
  exact ⟨hwindow, currentStatement?_congr hwindow, activeRange?_congr hwindow,
    fun code => evaluatedCode_congr code hwindow,
    fun code block => highlightMask_congr code block hwindow⟩

/-- A call that reaches a statement, evaluates in it, calls itself and returns from both. -/
def recursiveCall : List Step :=
  [{ action := .invocation }, { action := .statement, node := some 1 },
    { action := .eval, node := some 2 }, { action := .invocation },
    { action := .statement, node := some 1 }, { action := .ret }, { action := .ret }]

/-- Between a statement and an evaluation of it, after a return too many, the recursive call leaves a
window of those two steps. -/
theorem recursiveCall_leaves_no_trace :
    CompletedCall recursiveCall ∧
    statementWindow ([{ action := .ret }, { action := .statement, node := some 3 }] ++
        recursiveCall ++ [{ action := .expression, node := some 4 }]) =
      [{ action := .statement, node := some 3 }, { action := .expression, node := some 4 }] := by
  have hcall : CompletedCall recursiveCall :=
    completedCall_of_balanced rfl rfl (show Balanced recursiveCall.tail.dropLast by decide)
  refine ⟨hcall, ?_⟩
  rw [(completedCall_leaves_no_trace _ recursiveCall _ hcall).1]
  decide

end Retrace
