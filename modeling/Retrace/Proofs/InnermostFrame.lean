import Retrace.Proofs.CallFrames

/-!
# The innermost frame by depth

The frames are kept as a stack, and those of calls that have returned are thrown away. What the stack
holds can be told from the depth of the run alone, the number of open calls, which a return without an
open call leaves at zero: a frame holds the steps recorded at its depth since which the depth has never
been lower.

* `callDepth`: the number of calls open after some steps.
* `framePlaces`: the steps of the frame at a level; `innermostPlaces` those at the depth of the end.
* `placedFrames_eq`: the stack holds just these, level by level.
* `statementWindow_spec`: the window and the current statement, read off the depth.
-/

namespace Retrace

/-! ## Depth -/

/-- The number of open calls after one more step. A return without an open call leaves it at zero. -/
def Step.depthAfter (depth : Nat) (s : Step) : Nat :=
  if s.isInvocation then depth + 1 else if s.isReturn then depth - 1 else depth

/-- The number of calls open after some steps. -/
def callDepth (steps : List Step) : Nat := steps.foldl Step.depthAfter 0

theorem callDepth_append_singleton (steps : List Step) (s : Step) :
    callDepth (steps ++ [s]) = s.depthAfter (callDepth steps) := by
  unfold callDepth
  rw [List.foldl_append]
  rfl

theorem Step.depthAfter_of_isInvocation {s : Step} (h : s.isInvocation = true) (depth : Nat) :
    s.depthAfter depth = depth + 1 := by
  rw [depthAfter, if_pos h]

theorem Step.depthAfter_of_isReturn {s : Step} (h : s.isReturn = true) (depth : Nat) :
    s.depthAfter depth = depth - 1 := by
  rw [depthAfter, if_neg (not_isInvocation_of_isReturn h), if_pos h]

theorem Step.depthAfter_of_weight_eq_zero {s : Step} (h : s.weight = 0) (depth : Nat) :
    s.depthAfter depth = depth := by
  rw [depthAfter, if_neg (not_isInvocation_of_weight h), if_neg (not_isReturn_of_weight h)]

/-! ## Steps of a frame -/

/-- Since a step was recorded the depth has never been lower than it was then. -/
def Occurrence.StaysOpen (o : Occurrence) : Prop :=
  ∀ q, q <+: o.after → callDepth o.before ≤ callDepth (o.before ++ o.step :: q)

instance (o : Occurrence) : Decidable o.StaysOpen :=
  decidable_of_iff (∀ q ∈ o.after.inits, callDepth o.before ≤ callDepth (o.before ++ o.step :: q))
    (forall_congr' fun q => by rw [List.mem_inits])

/-- The steps of the frame at a level in their places: those recorded at that depth, neither invocations
nor returns, since which the depth has never been lower. -/
def framePlaces (steps : List Step) (level : Nat) : List Occurrence :=
  (occurrences steps).filter fun o =>
    !o.step.isCallEvent && decide (callDepth o.before = level ∧ o.StaysOpen)

/-- The steps of the frame at the depth of the end, in their places. -/
def innermostPlaces (steps : List Step) : List Occurrence := framePlaces steps (callDepth steps)

theorem mem_framePlaces {steps : List Step} {level : Nat} {o : Occurrence} :
    o ∈ framePlaces steps level ↔ steps = o.before ++ o.step :: o.after ∧
      o.step.isCallEvent = false ∧ callDepth o.before = level ∧ o.StaysOpen := by
  unfold framePlaces
  rw [List.mem_filter, mem_occurrences, Bool.and_eq_true, Bool.not_eq_true', decide_eq_true_eq]

theorem staysOpen_widen {steps : List Step} {o : Occurrence} (h : o ∈ occurrences steps) (s : Step) :
    (o.widen s).StaysOpen ↔ callDepth o.before ≤ callDepth (steps ++ [s]) ∧ o.StaysOpen := by
  have hsteps : steps ++ [s] = o.before ++ o.step :: (o.after ++ [s]) := by
    conv_lhs => rw [mem_occurrences.mp h]
    rw [List.append_assoc, List.cons_append]
  unfold Occurrence.StaysOpen
  dsimp only [Occurrence.widen]
  rw [hsteps]
  constructor
  · intro hopen
    exact ⟨hopen _ List.prefix_rfl, fun q hq => hopen q (hq.trans (List.prefix_append _ _))⟩
  · rintro ⟨hend, hopen⟩ q hq
    rcases List.prefix_concat_iff.mp hq with rfl | hq
    · exact hend
    · exact hopen q hq

/-- Above the depth of the end no frame is left. -/
theorem framePlaces_of_lt {steps : List Step} {level : Nat} (h : callDepth steps < level) :
    framePlaces steps level = [] := by
  refine List.eq_nil_iff_forall_not_mem.mpr fun o ho => ?_
  obtain ⟨hsteps, -, hlevel, hopen⟩ := mem_framePlaces.mp ho
  have hend := hopen o.after List.prefix_rfl
  rw [← hsteps] at hend
  omega

/-- A further step leaves alone the frames that the depth does not fall below. -/
theorem framePlaces_append_singleton {steps : List Step} {level : Nat} {s : Step}
    (h : level ≤ callDepth (steps ++ [s])) :
    framePlaces (steps ++ [s]) level = (framePlaces steps level).map (Occurrence.widen s) ++
      if s.weight = 0 ∧ callDepth steps = level then [⟨steps, s, []⟩] else [] := by
  unfold framePlaces
  rw [occurrences_append_singleton, List.filter_append, List.filter_map]
  congr 2
  · refine List.filter_congr fun o ho => ?_
    simp only [Function.comp, staysOpen_widen ho]
    congr 2
    refine propext (and_congr_right fun hlevel => and_iff_right ?_)
    change callDepth o.before = level at hlevel
    omega
  · by_cases hw : s.weight = 0
    · have hevent : s.isCallEvent = false := by
        rw [← Bool.not_eq_true, Step.isCallEvent_iff]
        exact not_not_intro hw
      have hopen : Occurrence.StaysOpen ⟨steps, s, []⟩ := fun q hq => by
        rw [List.prefix_nil.mp hq, callDepth_append_singleton, Step.depthAfter_of_weight_eq_zero hw]
      by_cases hlevel : callDepth steps = level <;> simp [hevent, hopen, hw, hlevel]
    · simp [Step.isCallEvent_iff.mpr hw, hw]

/-! ## The stack of frames -/

/-- The frames of the callers, the innermost first, when their levels are those below a given one. -/
def callerPlaces (steps : List Step) : Nat → List (List Occurrence)
  | 0 => []
  | level + 1 => (framePlaces steps level).reverse :: callerPlaces steps level

theorem length_callerPlaces (steps : List Step) (level : Nat) :
    (callerPlaces steps level).length = level := by
  induction level with
  | zero => rfl
  | succ level ih => rw [callerPlaces, List.length_cons, ih]

/-- Frames below one that the depth neither falls to nor leaves are only widened. -/
theorem reverse_framePlaces_append_singleton {steps : List Step} {level : Nat} {s : Step}
    (h : level ≤ callDepth (steps ++ [s])) (hnew : ¬ (s.weight = 0 ∧ callDepth steps = level)) :
    (framePlaces (steps ++ [s]) level).reverse =
      (framePlaces steps level).reverse.map (Occurrence.widen s) := by
  rw [framePlaces_append_singleton h, if_neg hnew, List.append_nil, List.map_reverse]

theorem callerPlaces_append_singleton {steps : List Step} {s : Step} {level : Nat}
    (h : level ≤ callDepth (steps ++ [s])) (hle : level ≤ callDepth steps) :
    callerPlaces (steps ++ [s]) level =
      (callerPlaces steps level).map (List.map (Occurrence.widen s)) := by
  induction level with
  | zero => rfl
  | succ level ih =>
    rw [callerPlaces, callerPlaces, ih (by omega) (by omega),
      reverse_framePlaces_append_singleton (by omega) (by omega), List.map_cons]

/-- **The stack holds the frames of all levels up to the depth.** -/
theorem placedFrames_eq (steps : List Step) :
    placedFrames steps = ⟨(innermostPlaces steps).reverse, callerPlaces steps (callDepth steps)⟩ := by
  induction steps using List.reverseRecOn with
  | nil => rfl
  | append_singleton steps s ih =>
    have hdepth := callDepth_append_singleton steps s
    rw [placedFrames_append_singleton, ih]
    unfold Frames.map innermostPlaces
    dsimp only
    rcases s.weight_cases with ⟨hi, hw⟩ | ⟨hr, hw⟩ | hw
    · -- a new frame stands above all others
      rw [Step.depthAfter_of_isInvocation hi] at hdepth
      have hempty : (framePlaces (steps ++ [s]) (callDepth steps + 1)).reverse = [] := by
        rw [reverse_framePlaces_append_singleton (by omega) (by omega),
          framePlaces_of_lt (Nat.lt_succ_self (callDepth steps))]
        rfl
      rw [Frames.record_of_isInvocation _ hi, hdepth, hempty, callerPlaces,
        callerPlaces_append_singleton (by omega) (by omega),
        reverse_framePlaces_append_singleton (by omega) (by omega)]
    · rw [Step.depthAfter_of_isReturn hr] at hdepth
      rw [hdepth]
      cases hlevel : callDepth steps with
      | zero =>
        -- with no call open nothing happens
        rw [callerPlaces, List.map_nil, Frames.record_of_isReturn_nil _ hr, callerPlaces,
          reverse_framePlaces_append_singleton (by omega) (by omega)]
      | succ level =>
        rw [callerPlaces, List.map_cons, Frames.record_of_isReturn _ _ _ hr, Nat.add_sub_cancel,
          callerPlaces_append_singleton (by omega) (by omega),
          reverse_framePlaces_append_singleton (by omega) (by omega)]
    · rw [Step.depthAfter_of_weight_eq_zero hw] at hdepth
      rw [Frames.record_of_weight_eq_zero _ hw, hdepth,
        callerPlaces_append_singleton (by omega) (Nat.le_refl _),
        framePlaces_append_singleton (by omega), if_pos ⟨hw, rfl⟩, List.reverse_append,
        ← List.map_reverse]
      rfl

/-! ## The window -/

section Items

variable {α : Type} {step : α → Step}

/-- What is newer than a frame's last statement is in the window. -/
theorem sinceStatement_of_statement {x : α} (h : (step x).isStatement = true) {newer : List α}
    (hnewer : ∀ y ∈ newer, ¬ (step y).isStatement = true) (later older : List α) :
    sinceStatement step later (newer ++ x :: older) = x :: (newer.reverse ++ later) := by
  induction newer generalizing later with
  | nil => rw [List.nil_append, sinceStatement, if_pos h, List.reverse_nil, List.nil_append]
  | cons y newer ih =>
    obtain ⟨hy, hnewer⟩ := List.forall_mem_cons.mp hnewer
    rw [List.cons_append, sinceStatement, if_neg hy, ih hnewer, List.reverse_cons, List.append_assoc,
      List.singleton_append]

end Items

theorem windowPlaces_eq (steps : List Step) :
    windowPlaces steps = sinceStatement Occurrence.step [] (innermostPlaces steps).reverse := by
  unfold windowPlaces windowBy
  rw [← placedFrames, placedFrames_eq]

/-- From its last statement on the innermost frame is the window. -/
theorem statementWindow_of_last_statement {steps : List Step} {o : Occurrence}
    {earlier later : List Occurrence} (h : innermostPlaces steps = earlier ++ o :: later)
    (ho : o.step.isStatement = true) (hlater : ∀ o ∈ later, ¬ o.step.isStatement = true) :
    statementWindow steps = (o :: later).map Occurrence.step := by
  have hreverse : (innermostPlaces steps).reverse = later.reverse ++ o :: earlier.reverse := by
    rw [h, List.reverse_append, List.reverse_cons, List.append_assoc, List.singleton_append]
  rw [← map_step_windowPlaces, windowPlaces_eq, hreverse,
    sinceStatement_of_statement ho (fun o ho => hlater o (List.mem_reverse.mp ho)),
    List.reverse_reverse, List.append_nil]

/-- Without a statement the innermost frame is the window as a whole. -/
theorem statementWindow_of_no_statement {steps : List Step}
    (h : ∀ o ∈ innermostPlaces steps, ¬ o.step.isStatement = true) :
    statementWindow steps = (innermostPlaces steps).map Occurrence.step := by
  rw [← map_step_windowPlaces, windowPlaces_eq,
    sinceStatement_of_forall_not (fun o ho => h o (List.mem_reverse.mp ho)), List.reverse_reverse,
    List.append_nil]

/-- A list of places has a last statement, or none at all. -/
theorem exists_last_statement_or (places : List Occurrence) :
    (∃ earlier o later, places = earlier ++ o :: later ∧ o.step.isStatement = true ∧
      ∀ o ∈ later, ¬ o.step.isStatement = true) ∨
    ∀ o ∈ places, ¬ o.step.isStatement = true := by
  induction places with
  | nil => exact .inr fun o ho => absurd ho List.not_mem_nil
  | cons o places ih =>
    rcases ih with ⟨earlier, x, later, rfl, hx, hlater⟩ | hnone
    · exact .inl ⟨o :: earlier, x, later, rfl, hx, hlater⟩
    · by_cases ho : o.step.isStatement = true
      · exact .inl ⟨[], o, places, rfl, ho, hnone⟩
      · exact .inr (List.forall_mem_cons.mpr ⟨ho, hnone⟩)

/-- The current statement is the last one of the innermost frame. -/
theorem currentStatement?_eq_getLast? (steps : List Step) :
    currentStatement? steps =
      (((innermostPlaces steps).map Occurrence.step).filter Step.isStatement).getLast? := by
  unfold currentStatement?
  rcases exists_last_statement_or (innermostPlaces steps) with
    ⟨earlier, o, later, hplaces, ho, hlater⟩ | hnone
  · have hlast : ((later.map Occurrence.step).filter Step.isStatement) = [] :=
      List.filter_eq_nil_iff.mpr (List.forall_mem_map.mpr hlater)
    rw [statementWindow_of_last_statement hplaces ho hlater, hplaces, List.map_append, List.map_cons,
      List.filter_append, List.filter_cons_of_pos ho, hlast, List.getLast?_concat,
      List.head?_cons, Option.filter_some, if_pos ho]
  · have hfilter : ((innermostPlaces steps).map Occurrence.step).filter Step.isStatement = [] :=
      List.filter_eq_nil_iff.mpr (List.forall_mem_map.mpr hnone)
    rw [statementWindow_of_no_statement hnone, hfilter]
    cases hplaces : innermostPlaces steps with
    | nil => rfl
    | cons o places =>
      have ho := hnone o (by rw [hplaces]; exact List.mem_cons_self)
      rw [List.map_cons, List.head?_cons, Option.filter_some, if_neg ho]
      rfl

/-! ## Returns without an open call -/

theorem length_callers_ofItems (steps : List Step) :
    (Frames.ofItems id steps).callers.length = callDepth steps := by
  have hmap := Frames.map_ofItems id Occurrence.step (occurrences steps)
  rw [map_step_occurrences] at hmap
  rw [← hmap]
  change ((placedFrames steps).map Occurrence.step).callers.length = callDepth steps
  rw [placedFrames_eq]
  exact (List.length_map _).trans (length_callerPlaces steps (callDepth steps))

/-- A return without an open call leaves the frames as they are, then and from then on. -/
theorem ofItems_append_return {p s : List Step} {r : Step} (hr : r.isReturn = true)
    (hp : callDepth p = 0) : Frames.ofItems id (p ++ r :: s) = Frames.ofItems id (p ++ s) := by
  have hcallers := length_callers_ofItems p
  rw [hp] at hcallers
  have hrecord : (Frames.ofItems id p).record id r = Frames.ofItems id p := by
    generalize Frames.ofItems id p = frames at hcallers
    obtain ⟨recent, callers⟩ := frames
    obtain rfl := List.eq_nil_of_length_eq_zero hcallers
    exact Frames.record_of_isReturn_nil recent hr
  unfold Frames.ofItems at hrecord ⊢
  rw [List.foldl_append, List.foldl_append, List.foldl_cons, hrecord]

/-- **The window and the current statement, read off the depth.** A step that is neither invocation nor
return is in the innermost open frame exactly when the depth at the end is the one at the step and was
never lower since; the frame holds these steps as they were recorded. The window is the frame from its
last statement on, or the whole of it when it has none, and the current statement is that last
statement, or none. A return without an open call changes nothing. -/
theorem statementWindow_spec (steps : List Step) :
    (placedFrames steps).recent.reverse = innermostPlaces steps ∧
    (innermostPlaces steps).Sublist (occurrences steps) ∧
    (∀ o, o ∈ innermostPlaces steps ↔ steps = o.before ++ o.step :: o.after ∧
      (o.step.isInvocation = false ∧ o.step.isReturn = false) ∧ callDepth o.before = callDepth steps ∧
      ∀ q, q <+: o.after → callDepth o.before ≤ callDepth (o.before ++ o.step :: q)) ∧
    (∀ earlier o later, innermostPlaces steps = earlier ++ o :: later →
      o.step.isStatement = true → (∀ o ∈ later, ¬ o.step.isStatement = true) →
      statementWindow steps = (o :: later).map Occurrence.step) ∧
    ((∀ o ∈ innermostPlaces steps, ¬ o.step.isStatement = true) →
      statementWindow steps = (innermostPlaces steps).map Occurrence.step) ∧
    currentStatement? steps =
      (((innermostPlaces steps).map Occurrence.step).filter Step.isStatement).getLast? ∧
    ∀ p r s, steps = p ++ r :: s → r.isReturn = true → callDepth p = 0 →
      Frames.ofItems id steps = Frames.ofItems id (p ++ s) ∧
      statementWindow steps = statementWindow (p ++ s) ∧
      currentStatement? steps = currentStatement? (p ++ s) := by
  refine ⟨?_, List.filter_sublist, fun o => ?_, fun _ _ _ => statementWindow_of_last_statement,
    statementWindow_of_no_statement, currentStatement?_eq_getLast? steps, ?_⟩
  · rw [placedFrames_eq, List.reverse_reverse]
  · rw [← Bool.or_eq_false_iff]
    exact mem_framePlaces
  · rintro p r s rfl hr hp
    have hframes := ofItems_append_return (s := s) hr hp
    have hwindow : statementWindow (p ++ r :: s) = statementWindow (p ++ s) := by
      unfold statementWindow windowBy
      rw [hframes]
    exact ⟨hframes, hwindow, currentStatement?_congr hwindow⟩

end Retrace
