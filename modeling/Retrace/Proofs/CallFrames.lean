import Retrace.Proofs.OpenCalls
import Retrace.Proofs.Window

/-!
# Frames and calls in step

Two things follow the calls of a run. The frames of the statement window forget a call when it returns;
the builder of the call tree keeps it, and holds the open ones as a chain. After every prefix the two are
in step: frame by frame they stand for the same open calls. So the path of running calls through a tree
leads to the call that the statement window belongs to.

* `InStep`: frames and open calls that stand for the same calls, with the same parameters.
* `InStep.record`, `inStep_of_recordAll`: one step keeps that up, and so does a run.
* `windowPlaces`: the statement window with the place of each of its steps.
* `CallTree.activePath_agrees_with_window`: the path, the open calls and the window of the same steps.
-/

namespace Retrace

open CallTree CallTree.Builder

/-! ## What a step does to the open calls -/

namespace CallTree.Builder

/-- What one step does to the open calls. -/
theorem record_cases {s : Step} {b b' : Builder} {index : Nat} (h : b.record index s = .ok b') :
    (s.isInvocation = true ∧ b'.opened = Call.opened b.nextId s :: b.opened) ∨
    (s.isReturn = true ∧ ∃ c rest, b.opened = c :: rest ∧
      b'.opened = (attach { c with returns := c.returns ++ [s] } rest b.roots).1) ∨
    (s.isParameter = true ∧ ∃ c rest, b.opened = c :: rest ∧
      b'.opened = { c with parameters := c.parameters ++ [s] } :: rest) ∨
    (s.weight = 0 ∧ (s.isParameter = true → b.opened = []) ∧ b'.opened = b.opened) := by
  unfold record at h
  split at h
  · next hi =>
    cases h
    exact .inl ⟨hi, rfl⟩
  · next hi =>
    split at h
    · next hp =>
      split at h
      · next hopened =>
        cases h
        exact .inr (.inr (.inr ⟨Step.weight_of_isParameter hp, fun _ => hopened, rfl⟩))
      · next c rest hopened =>
        cases h
        exact .inr (.inr (.inl ⟨hp, c, rest, hopened, rfl⟩))
    · next hp =>
      split at h
      · next hr =>
        split at h
        · cases h
        · next c rest hopened =>
          cases h
          exact .inr (.inl ⟨hr, c, rest, hopened, rfl⟩)
      · next hr =>
        cases h
        refine .inr (.inr (.inr ⟨?_, fun h => absurd h hp, rfl⟩))
        rw [Step.weight, if_neg hi, if_neg hr]

end CallTree.Builder

/-! ## Frames and open calls in step -/

/-- Frames and open calls that stand for the same calls, the innermost first. Below the frames of the
open calls lies that of the steps outside all calls. A frame holds what was recorded while the calls
from its own down were the open ones, and its parameters are those noted in its call. -/
inductive InStep : List (List Occurrence) → List Call → Prop
  | outside {frame : List Occurrence} (places : ∀ o ∈ frame, openCalls o.before = []) :
      InStep [frame] []
  | within {frame : List Occurrence} {frames : List (List Occurrence)} {c : Call} {rest : List Call}
      (places : ∀ o ∈ frame, openCalls o.before = (c :: rest).map Call.id)
      (parameters : (frame.reverse.map Occurrence.step).filter Step.isParameter = c.parameters)
      (below : InStep frames rest) : InStep (frame :: frames) (c :: rest)

namespace InStep

theorem places {frame : List Occurrence} {frames : List (List Occurrence)} {opened : List Call}
    (h : InStep (frame :: frames) opened) :
    ∀ o ∈ frame, openCalls o.before = opened.map Call.id := by
  cases h with
  | outside hplaces => exact hplaces
  | within hplaces _ _ => exact hplaces

theorem parameters {frame : List Occurrence} {frames : List (List Occurrence)} {c : Call}
    {rest : List Call} (h : InStep (frame :: frames) (c :: rest)) :
    (frame.reverse.map Occurrence.step).filter Step.isParameter = c.parameters := by
  cases h with
  | within _ hparameters _ => exact hparameters

/-- A further step leaves the frames' own steps and what came before them as they are. -/
theorem widen (s : Step) {frames : List (List Occurrence)} {opened : List Call}
    (h : InStep frames opened) : InStep (frames.map (List.map (Occurrence.widen s))) opened := by
  have hbefore {frame : List Occurrence} {ids : List Nat}
      (hplaces : ∀ o ∈ frame, openCalls o.before = ids) :
      ∀ o ∈ frame.map (Occurrence.widen s), openCalls o.before = ids := fun o ho => by
    obtain ⟨o', ho', rfl⟩ := List.mem_map.mp ho
    exact hplaces o' ho'
  induction h with
  | outside hplaces => exact outside (hbefore hplaces)
  | within hplaces hparameters _ ih =>
    refine within (hbefore hplaces) ?_ ih
    rw [← hparameters, ← List.map_reverse, List.map_map]
    rfl

/-- A step that is no parameter joins the innermost frame. -/
theorem note {frame : List Occurrence} {frames : List (List Occurrence)} {opened : List Call}
    (h : InStep (frame :: frames) opened) {o : Occurrence}
    (ho : openCalls o.before = opened.map Call.id)
    (hp : o.step.isParameter = true → opened = []) : InStep ((o :: frame) :: frames) opened := by
  have hcons {ids : List Nat} (hids : openCalls o.before = ids)
      (hplaces : ∀ x ∈ frame, openCalls x.before = ids) :
      ∀ x ∈ o :: frame, openCalls x.before = ids := List.forall_mem_cons.mpr ⟨hids, hplaces⟩
  cases h with
  | outside hplaces => exact outside (hcons ho hplaces)
  | within hplaces hparameters below =>
    refine within (hcons ho hplaces) ?_ below
    rw [List.reverse_cons, List.map_append, List.filter_append, hparameters, List.map_singleton,
      List.filter_cons_of_neg fun h => List.cons_ne_nil _ _ (hp h), List.filter_nil, List.append_nil]

/-- A parameter joins the innermost frame and is noted in the innermost call. -/
theorem noteParameter {frame : List Occurrence} {frames : List (List Occurrence)} {c : Call}
    {rest : List Call} (h : InStep (frame :: frames) (c :: rest)) {o : Occurrence}
    (ho : openCalls o.before = (c :: rest).map Call.id) (hp : o.step.isParameter = true) :
    InStep ((o :: frame) :: frames)
      ({ c with parameters := c.parameters ++ [o.step] } :: rest) := by
  cases h with
  | within hplaces hparameters below =>
    refine within (List.forall_mem_cons.mpr ⟨ho, hplaces⟩) ?_ below
    rw [List.reverse_cons, List.map_append, List.filter_append, hparameters, List.map_singleton,
      List.filter_cons_of_pos hp, List.filter_nil]

/-- A call that returns leaves its caller's frame and parameters as they are. -/
theorem attach {frames : List (List Occurrence)} {opened : List Call} (h : InStep frames opened)
    (c : Call) (roots : List Call) : InStep frames (Builder.attach c opened roots).1 := by
  cases h with
  | outside hplaces => exact outside hplaces
  | within hplaces hparameters below => exact within hplaces hparameters below

/-- **One step keeps frames and open calls in step.** -/
theorem record {frames : Frames Occurrence} {b b' : Builder} {index : Nat} {o : Occurrence}
    (h : InStep (frames.recent :: frames.callers) b.opened)
    (ho : openCalls o.before = b.opened.map Call.id) (hrecord : b.record index o.step = .ok b') :
    InStep ((frames.record Occurrence.step o).recent :: (frames.record Occurrence.step o).callers)
      b'.opened := by
  rcases record_cases hrecord with ⟨hi, hopened⟩ | ⟨hr, c, rest, hopened, hopened'⟩ |
    ⟨hp, c, rest, hopened, hopened'⟩ | ⟨hw, hp, hopened⟩
  · rw [Frames.record_of_isInvocation _ hi, hopened]
    exact within (fun _ h => absurd h List.not_mem_nil) rfl h
  · rw [hopened] at h
    obtain ⟨recent, callers⟩ := frames
    cases h with
    | within _ _ below =>
      -- below the frame of the call that returns stands at least that of the steps outside calls
      cases callers with
      | nil => cases below
      | cons caller callers =>
        rw [Frames.record_of_isReturn _ _ _ hr, hopened']
        exact below.attach _ _
  · rw [Frames.record_of_weight_eq_zero _ (Step.weight_of_isParameter hp), hopened']
    rw [hopened] at h ho
    exact h.noteParameter ho hp
  · rw [Frames.record_of_weight_eq_zero _ hw, hopened]
    exact h.note ho hp

end InStep

/-! ## A run -/

/-- The frames of steps in their places. -/
def placedFrames (steps : List Step) : Frames Occurrence :=
  Frames.ofItems Occurrence.step (occurrences steps)

theorem placedFrames_append_singleton (steps : List Step) (s : Step) :
    placedFrames (steps ++ [s]) =
      ((placedFrames steps).map (Occurrence.widen s)).record Occurrence.step ⟨steps, s, []⟩ := by
  have hmap : (placedFrames steps).map (Occurrence.widen s) =
      Frames.ofItems Occurrence.step ((occurrences steps).map (Occurrence.widen s)) :=
    Frames.map_ofItems Occurrence.step (Occurrence.widen s) (occurrences steps)
  rw [hmap]
  unfold placedFrames Frames.ofItems
  rw [occurrences_append_singleton, List.foldl_append]
  rfl

/-- **A run keeps frames and open calls in step.** -/
theorem inStep_of_recordAll {steps : List Step} {b : Builder}
    (h : Builder.empty.recordAll 0 steps = .ok b) :
    InStep ((placedFrames steps).recent :: (placedFrames steps).callers) b.opened := by
  induction steps using List.reverseRecOn generalizing b with
  | nil =>
    cases h
    exact .outside fun _ h => absurd h List.not_mem_nil
  | append_singleton steps s ih =>
    rw [recordAll_append] at h
    cases hrun : Builder.empty.recordAll 0 steps with
    | error e =>
      rw [hrun] at h
      cases h
    | ok b₀ =>
      rw [hrun] at h
      change b₀.recordAll (0 + steps.length) [s] = .ok b at h
      rw [recordAll] at h
      cases hrecord : b₀.record (0 + steps.length) s with
      | error e =>
        rw [hrecord] at h
        cases h
      | ok b₁ =>
        rw [hrecord] at h
        cases h
        rw [placedFrames_append_singleton]
        let frames := (placedFrames steps).map (Occurrence.widen s)
        have hbefore : InStep (frames.recent :: frames.callers) b₀.opened := (ih hrun).widen s
        exact hbefore.record (o := ⟨steps, s, []⟩) (built_of_recordAll hrun).openCalls_eq hrecord

/-! ## The window -/

/-- The steps of the statement window in their places. -/
def windowPlaces (steps : List Step) : List Occurrence := windowBy Occurrence.step (occurrences steps)

theorem map_step_windowPlaces (steps : List Step) :
    (windowPlaces steps).map Occurrence.step = statementWindow steps := by
  have hmap := windowBy_map id Occurrence.step (occurrences steps)
  rw [map_step_occurrences] at hmap
  exact hmap

theorem mem_recent_of_mem_windowPlaces {steps : List Step} {o : Occurrence}
    (h : o ∈ windowPlaces steps) : o ∈ (placedFrames steps).recent :=
  (mem_of_mem_sinceStatement h).resolve_left List.not_mem_nil

/-- Before its first statement a frame's window is the whole frame. -/
theorem statementWindow_of_forall_not {steps : List Step}
    (h : ∀ o ∈ (placedFrames steps).recent, ¬ o.step.isStatement = true) :
    statementWindow steps = (placedFrames steps).recent.reverse.map Occurrence.step := by
  rw [← map_step_windowPlaces]
  unfold windowPlaces windowBy
  rw [← placedFrames, sinceStatement_of_forall_not h, List.append_nil]

/-! ## The two together -/

namespace CallTree

/-- **The path of running calls and the statement window agree.** While the outermost call runs, the
path through the tree holds all calls whose return was not recorded, each one deeper than the one
before; they are the open calls of the steps, and as many as there are invocations more than returns.
Every step of the window was recorded while the last call of the path was the innermost open one, and
before that call's first statement the parameters in the window are those of the call. Once the
outermost call is finished the path is that call alone, and the window lies outside all calls. -/
theorem activePath_agrees_with_window {steps : List Step} {t : Call}
    (h : ofSteps steps = .ok (some t)) :
    (windowPlaces steps).map Occurrence.step = statementWindow steps ∧
    (t.isFinished = false →
      t.preorder.filter Call.isRunning = t.activePath.zipIdx.map Prod.swap ∧
      t.activePath.map Call.id = (openCalls steps).reverse ∧
      t.activePath.length + returns steps = invocations steps ∧
      ∃ c, t.activePath.getLast? = some c ∧
        (∀ o ∈ windowPlaces steps, (openCalls o.before).head? = some c.id) ∧
        ((∀ o ∈ occurrences steps, (openCalls o.before).head? = some c.id →
            o.step.isStatement = false) →
          (statementWindow steps).filter Step.isParameter = c.parameters)) ∧
    (t.isFinished = true →
      t.activePath = [t] ∧ ∀ o ∈ windowPlaces steps, openCalls o.before = []) := by
  obtain ⟨b, hrun, hclose⟩ := exists_closeAll_of_ofSteps h
  have hbuilt := built_of_recordAll hrun
  have hstep := inStep_of_recordAll hrun
  refine ⟨map_step_windowPlaces steps, ?_⟩
  cases hopened : b.opened with
  | nil =>
    obtain ⟨hfinished, hpath⟩ := activePath_of_opened_nil hbuilt hopened hclose
    refine ⟨fun hrunning => ?_, fun _ => ⟨hpath, fun o ho => ?_⟩⟩
    · rw [hfinished] at hrunning
      exact Bool.noConfusion hrunning
    · rw [hopened] at hstep
      exact hstep.places o (mem_recent_of_mem_windowPlaces ho)
  | cons c rest =>
    obtain ⟨hrunning, hruns, hlast, hids⟩ := activePath_of_opened_cons hbuilt hopened hclose
    rw [hopened] at hstep
    have hplaces : ∀ o ∈ (placedFrames steps).recent, (openCalls o.before).head? = some c.id :=
      fun o ho => by
        rw [hstep.places o ho]
        rfl
    refine ⟨fun _ => ⟨hruns, hids, ?_, c, hlast, fun o ho => ?_, fun hnone => ?_⟩, fun hfinished => ?_⟩
    · have hheight := hbuilt.height
      have hlength := congrArg List.length hids
      rw [List.length_map, List.length_reverse, hbuilt.openCalls_eq, List.length_map] at hlength
      unfold balance at hheight
      omega
    · exact hplaces o (mem_recent_of_mem_windowPlaces ho)
    · rw [statementWindow_of_forall_not fun o ho => ?_]
      · exact hstep.parameters
      · have hmem : o ∈ occurrences steps := Frames.mem_of_mem_items (List.mem_append_left _ ho)
        rw [hnone o hmem (hplaces o ho)]
        exact Bool.false_ne_true
    · rw [hrunning] at hfinished
      exact Bool.noConfusion hfinished

/-- A call in which one call has returned, and another has a parameter and reached no statement. -/
def callInProgress : List Step :=
  [{ action := .invocation, identifier := some "main" }, { action := .statement },
    { action := .invocation, identifier := some "f" }, { action := .statement }, { action := .ret },
    { action := .invocation, identifier := some "g" },
    { action := .parameter, identifier := some "n" }, { action := .eval }]

/-- The path leads from the first call to the third, whose parameter is the one in the window. -/
theorem callInProgress_activePath :
    ∃ t, ofSteps callInProgress = .ok (some t) ∧ t.isFinished = false ∧
      t.activePath.map Call.id = [0, 2] ∧
      ∃ c, t.activePath.getLast? = some c ∧
        c.parameters = [{ action := .parameter, identifier := some "n" }] := by
  let f : Call := ⟨1, { action := .invocation, identifier := some "f" }, [], [{ action := .ret }], []⟩
  let g : Call := ⟨2, { action := .invocation, identifier := some "g" },
    [{ action := .parameter, identifier := some "n" }], [], []⟩
  let main : Call := ⟨0, { action := .invocation, identifier := some "main" }, [], [], [f, g]⟩
  have htree : ofSteps callInProgress = .ok (some main) := by cbv
  obtain ⟨-, hrunning, -⟩ := activePath_agrees_with_window htree
  obtain ⟨-, hids, -, c, hlast, -, hparameters⟩ := hrunning rfl
  obtain rfl : c = g := Option.some.inj (hlast.symm.trans rfl)
  refine ⟨main, htree, rfl, hids.trans (by decide), g, hlast, ?_⟩
  rw [← hparameters (by decide)]
  decide

end CallTree

end Retrace
