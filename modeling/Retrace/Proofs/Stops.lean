import Mathlib.Data.List.Infix
import Retrace.Proofs.Moves
import Retrace.Proofs.Search

/-!
# Stops

A session that is stepped in its own mode rests at certain positions only: the steps of the mode, or the
first step when there is none, and the last step of all. Forward leads to the next stop from anywhere;
backward leads to the step of the mode before, so that it undoes a step forward where the mode has steps.

* `stops`, `mem_stops`, `pairwise_stops`: the stops in order.
* `Session.forwardTarget?_eq_some_iff`: a step forward leads to the next stop.
* `Session.head?_stops`, `Session.stops_eq_append_last`: the first stop and the last.
* `Session.performAll_of_mem_stops`: moves in the configured mode keep the cursor on stops.
* `Session.backward_forward`, `Session.forward_backward`: at a stop each step undoes the other.
* `Session.stepping_spec`: all of it for a session that has been run.
-/

namespace Retrace

open Search (Hit)

variable {mode : StepMode} {steps : List Step} {i : Nat}

/-! ## The stops of a mode -/

/-- The positions of the steps that a mode stops at. -/
def hits (mode : StepMode) (steps : List Step) : List Nat :=
  (List.range steps.length).filter fun i => decide (Hit mode.stopsAt steps i)

/-- The positions of the mode's steps, or zero when there are none. -/
def modeStops (mode : StepMode) (steps : List Step) : List Nat :=
  if hits mode steps = [] then [0] else hits mode steps

/-- The positions where a session rests: the mode's own, and then the last of all when it is not among
them. -/
def stops (mode : StepMode) (steps : List Step) : List Nat :=
  if steps.length - 1 ∈ modeStops mode steps then modeStops mode steps
  else modeStops mode steps ++ [steps.length - 1]

theorem mem_hits : i ∈ hits mode steps ↔ Hit mode.stopsAt steps i := by
  unfold hits
  rw [List.mem_filter, List.mem_range, decide_eq_true_eq]
  exact ⟨And.right, fun h => ⟨h.lt_length, h⟩⟩

theorem hits_eq_nil_iff : hits mode steps = [] ↔ ∀ j, ¬ Hit mode.stopsAt steps j := by
  rw [List.eq_nil_iff_forall_not_mem]
  exact forall_congr' fun j => not_congr mem_hits

theorem mem_modeStops :
    i ∈ modeStops mode steps ↔
      Hit mode.stopsAt steps i ∨ (i = 0 ∧ ∀ j, ¬ Hit mode.stopsAt steps j) := by
  unfold modeStops
  split
  · next hnone =>
    have hnone := hits_eq_nil_iff.mp hnone
    rw [List.mem_singleton]
    exact ⟨fun hi => .inr ⟨hi, hnone⟩, fun h => h.elim (fun hit => absurd hit (hnone i)) And.left⟩
  · next hsome =>
    rw [mem_hits]
    exact ⟨.inl, fun h => h.resolve_right fun hi => hsome (hits_eq_nil_iff.mpr hi.2)⟩

theorem mem_stops :
    i ∈ stops mode steps ↔ Hit mode.stopsAt steps i ∨ i = steps.length - 1 ∨
      (i = 0 ∧ ∀ j, ¬ Hit mode.stopsAt steps j) := by
  unfold stops
  split
  · next hlast =>
    rw [mem_modeStops] at hlast ⊢
    constructor
    · rintro (hit | hi)
      · exact .inl hit
      · exact .inr (.inr hi)
    · rintro (hit | rfl | hi)
      · exact .inl hit
      · exact hlast
      · exact .inr hi
  · rw [List.mem_append, List.mem_singleton, mem_modeStops, or_right_comm, or_assoc]

theorem lt_length_of_mem_stops (hsteps : steps ≠ []) (h : i ∈ stops mode steps) :
    i < steps.length := by
  have hpos := List.length_pos_iff.mpr hsteps
  rcases mem_stops.mp h with hit | rfl | ⟨rfl, -⟩
  · exact hit.lt_length
  · omega
  · exact hpos

theorem last_mem_stops (mode : StepMode) (steps : List Step) :
    steps.length - 1 ∈ stops mode steps :=
  mem_stops.mpr (.inr (.inl rfl))

namespace Session

variable {s : Session}

/-- The stops of a session in its own mode. -/
def stops (s : Session) : List Nat := Retrace.stops s.config.stepMode s.steps

/-! ## Where a step leads -/

theorem next_stop_of_forwardTarget? (hsteps : s.steps ≠ []) (h : s.forwardTarget? mode = some i) :
    s.cursor < i ∧ i ∈ Retrace.stops mode s.steps ∧
      ∀ j, s.cursor < j → j < i → j ∉ Retrace.stops mode s.steps := by
  have hlt := lt_of_forwardTarget? h
  -- a stop short of the target is no last step and not the first, so it is a step of the mode
  suffices key : i ∈ Retrace.stops mode s.steps ∧
      ∀ j, s.cursor < j → j < i → ¬ Hit mode.stopsAt s.steps j by
    refine ⟨hlt.1, key.1, fun j hj hji hstop => ?_⟩
    rcases mem_stops.mp hstop with hit | hlast | ⟨hzero, -⟩
    · exact key.2 j hj hji hit
    · omega
    · omega
  unfold forwardTarget? at h
  rcases Option.or_eq_some_iff.mp h with h | ⟨hnone, h⟩
  · obtain ⟨-, hit, hbetween⟩ := Search.next?_eq_some_iff.mp h
    exact ⟨mem_stops.mpr (.inl hit), hbetween⟩
  · rw [lastIndex?_of_ne_nil hsteps] at h
    obtain rfl : s.steps.length - 1 = i := Option.some.inj (Option.filter_eq_some_iff.mp h).1
    exact ⟨last_mem_stops mode s.steps, fun j hj _ => Search.next?_eq_none_iff.mp hnone j hj⟩

/-- **A step forward leads to the next stop**, from wherever the cursor is. -/
theorem forwardTarget?_eq_some_iff (hsteps : s.steps ≠ []) :
    s.forwardTarget? mode = some i ↔ s.cursor < i ∧ i ∈ Retrace.stops mode s.steps ∧
      ∀ j, s.cursor < j → j < i → j ∉ Retrace.stops mode s.steps := by
  refine ⟨next_stop_of_forwardTarget? hsteps, fun ⟨hlt, hstop, hbetween⟩ => ?_⟩
  have hbound := lt_length_of_mem_stops hsteps hstop
  cases h : s.forwardTarget? mode with
  | none =>
    have hend := forwardTarget?_eq_none_iff.mp h
    unfold isAtEnd at hend
    rw [lastIndex?_of_ne_nil hsteps] at hend
    have := of_decide_eq_true hend
    omega
  | some k =>
    obtain ⟨hk, hkstop, hkbetween⟩ := next_stop_of_forwardTarget? hsteps h
    rcases Nat.lt_trichotomy k i with hki | rfl | hik
    · exact absurd hkstop (hbetween k hk hki)
    · rfl
    · exact absurd hstop (hkbetween i hlt hik)

theorem startOf_mem_stops (mode : StepMode) (steps : List Step) :
    startOf mode steps ∈ Retrace.stops mode steps := by
  refine mem_stops.mpr ?_
  unfold startOf
  cases h : Search.first? mode.stopsAt steps with
  | none => exact .inr (.inr ⟨rfl, Search.first?_eq_none_iff.mp h⟩)
  | some k => exact .inl (Search.first?_eq_some_iff.mp h).1

/-! ## The stops in their order -/

theorem target_mem_stops (hsteps : s.steps ≠ []) (hcursor : s.cursor ∈ s.stops) :
    (s.forwardTarget? s.config.stepMode).getD s.cursor ∈ s.stops ∧
    (s.backwardTarget? s.config.stepMode).getD s.cursor ∈ s.stops := by
  constructor
  · cases h : s.forwardTarget? s.config.stepMode with
    | none => exact hcursor
    | some i => exact (next_stop_of_forwardTarget? hsteps h).2.1
  · cases h : s.backwardTarget? s.config.stepMode with
    | none => exact hcursor
    | some i => exact mem_stops.mpr (.inl (Search.previous?_eq_some_iff.mp h).2.1)

/-- **A move in the configured mode leads from stop to stop.** -/
theorem perform_of_mem_stops {m : Move} (hm : m.InMode s.config.stepMode) (hs : s.started = true)
    (hsteps : s.steps ≠ []) (hcursor : s.cursor ∈ s.stops) :
    ∃ cursor ∈ s.stops, s.perform m = { s with cursor := cursor } := by
  obtain ⟨hforward, hbackward⟩ := target_mem_stops hsteps hcursor
  cases m with
  | run => exact ⟨s.cursor, hcursor, congrArg Prod.fst (run_of_started hs)⟩
  | forward => exact ⟨_, hforward, moveTo_eq_cursor⟩
  | backward => exact ⟨_, hbackward, moveTo_eq_cursor⟩
  | forwardBy mode =>
    cases hm
    exact ⟨_, hforward, moveTo_eq_cursor⟩
  | backwardBy mode =>
    cases hm
    exact ⟨_, hbackward, moveTo_eq_cursor⟩
  | rewind => exact ⟨_, startOf_mem_stops _ _, rfl⟩
  | jumpToEnd =>
    refine ⟨_, ?_, rfl⟩
    rw [lastIndex?_of_ne_nil hsteps]
    exact last_mem_stops _ _

theorem performAll_of_mem_stops {moves : List Move} (hmoves : ∀ m ∈ moves, m.InMode s.config.stepMode)
    (hs : s.started = true) (hsteps : s.steps ≠ []) (hcursor : s.cursor ∈ s.stops) :
    ∃ cursor ∈ s.stops, s.performAll moves = { s with cursor := cursor } := by
  induction moves using List.reverseRecOn with
  | nil => exact ⟨s.cursor, hcursor, rfl⟩
  | append_singleton moves m ih =>
    obtain ⟨cursor, hcursor', hperform⟩ := ih fun m hm => hmoves m (List.mem_append_left _ hm)
    rw [performAll_append, hperform]
    exact perform_of_mem_stops (s := { s with cursor := cursor })
      (hmoves m (List.mem_append_right _ List.mem_cons_self)) hs hsteps hcursor'

/-- The first run puts the cursor on a stop of the configured mode. -/
theorem run_new_of_steps_ne_nil (producer : Producer) (config : Config)
    (hsteps : (new producer config).run.1.steps ≠ []) :
    (new producer config).run.1.config = config ∧
      (new producer config).run.1.cursor ∈ (new producer config).run.1.stops := by
  rcases run_of_not_started (s := new producer config) rfl with
    ⟨trace, -, hrun⟩ | ⟨-, e, hrun⟩ <;> rw [hrun] at hsteps ⊢
  · exact ⟨rfl, startOf_mem_stops config.stepMode trace.steps⟩
  · exact absurd rfl hsteps

/-- Moves in its configured mode leave a session with steps on a stop. -/
theorem cursor_mem_stops (producer : Producer) {config : Config} {moves : List Move}
    (hmoves : ∀ m ∈ moves, m.InMode config.stepMode)
    (hsteps : ((new producer config).performAll moves).steps ≠ []) :
    ((new producer config).performAll moves).cursor ∈
      ((new producer config).performAll moves).stops := by
  -- without a run there are no steps
  have hrun : .run ∈ moves := by
    refine Decidable.byContradiction fun h => hsteps ?_
    rw [performAll_new_of_not_mem producer config h]
    rfl
  obtain ⟨before, after, rfl, hbefore⟩ := List.eq_append_cons_of_mem hrun
  obtain ⟨cursor, hafter, -⟩ :=
    performAll_of_started after (started_run (new producer config)) (inRange_run (.inl rfl))
  have hsplit : (new producer config).performAll (before ++ .run :: after) =
      (new producer config).run.1.performAll after := by
    rw [performAll_append, performAll_new_of_not_mem producer config hbefore]
    rfl
  rw [hsplit, hafter] at hsteps
  obtain ⟨hconfig, hstop⟩ := run_new_of_steps_ne_nil producer config hsteps
  have hmode : ∀ m ∈ after, m.InMode (new producer config).run.1.config.stepMode := fun m hm => by
    rw [hconfig]
    exact hmoves m (List.mem_append_right _ (List.mem_cons_of_mem _ hm))
  obtain ⟨cursor', hcursor', hperform⟩ :=
    performAll_of_mem_stops hmode (started_run _) hsteps hstop
  rw [hsplit, hperform]
  exact hcursor'

/-! ## There and back -/

theorem moveTo_eq_of_snd {target : Option Nat} (h : (s.moveTo target).2 = true) :
    ∃ i, target = some i ∧ s.moveTo target = ({ s with cursor := i }, true) := by
  obtain ⟨i, rfl, -⟩ := moveTo_of_snd_eq_true h
  exact ⟨i, rfl, rfl⟩

/-- A stop that is not the last is a step of the mode, if the mode has steps. -/
theorem hit_of_mem_stops (hmode : ∃ j, Hit mode.stopsAt steps j) (h : i ∈ Retrace.stops mode steps)
    (hlast : i < steps.length - 1) : Hit mode.stopsAt steps i := by
  rcases mem_stops.mp h with hit | rfl | ⟨-, hnone⟩
  · exact hit
  · omega
  · obtain ⟨j, hj⟩ := hmode
    exact absurd hj (hnone j)

/-- **A step backward undoes a step forward**, from a stop of a mode that has steps. -/
theorem backward_forward (hmode : ∃ j, Hit s.config.stepMode.stopsAt s.steps j)
    (hcursor : s.cursor ∈ s.stops) (h : s.forward.2 = true) : s.forward.1.backward = (s, true) := by
  have hsteps : s.steps ≠ [] := hmode.elim fun _ hit => hit.ne_nil
  obtain ⟨i, hi, hmove⟩ := moveTo_eq_of_snd h
  obtain ⟨hlt, -, hbetween⟩ := next_stop_of_forwardTarget? hsteps hi
  have hbound := (lt_of_forwardTarget? hi).2
  have hback : Search.previous? s.config.stepMode.stopsAt s.steps i = some s.cursor :=
    Search.previous?_eq_some_iff.mpr ⟨hlt, hit_of_mem_stops hmode hcursor (by omega),
      fun j hj hji hit => hbetween j hj hji (mem_stops.mpr (.inl hit))⟩
  rw [forward, forwardBy, hmove]
  unfold backward backwardBy backwardTarget?
  dsimp only
  rw [hback]
  rfl

/-- **A step forward undoes a step backward**, from a stop of a mode that has steps. -/
theorem forward_backward (hmode : ∃ j, Hit s.config.stepMode.stopsAt s.steps j)
    (hcursor : s.cursor ∈ s.stops) (h : s.backward.2 = true) :
    s.backward.1.forward = (s, true) := by
  have hsteps : s.steps ≠ [] := hmode.elim fun _ hit => hit.ne_nil
  obtain ⟨i, hi, hmove⟩ := moveTo_eq_of_snd h
  obtain ⟨hlt, -, hbetween⟩ := Search.previous?_eq_some_iff.mp hi
  have hbound := lt_length_of_mem_stops hsteps hcursor
  have hforth : forwardTarget? { s with cursor := i } s.config.stepMode = some s.cursor :=
    (forwardTarget?_eq_some_iff (s := { s with cursor := i }) hsteps).mpr
      ⟨hlt, hcursor, fun j hj hjc hstop =>
        hbetween j hj hjc (hit_of_mem_stops hmode hstop (by omega))⟩
  rw [backward, backwardBy, hmove]
  unfold forward forwardBy
  dsimp only
  rw [hforth]
  rfl

/-- Without a step of the mode there is the first step, the last one, and no way back. -/
theorem stepping_of_no_hit (hsteps : s.steps ≠ [])
    (hnone : ∀ j, ¬ Hit s.config.stepMode.stopsAt s.steps j) :
    (∀ i, i ∈ s.stops ↔ i = 0 ∨ i = s.steps.length - 1) ∧ s.backward = (s, false) ∧
    (s.cursor = 0 → s.steps.length ≠ 1 →
      s.forward = ({ s with cursor := s.steps.length - 1 }, true)) := by
  have hstops (i : Nat) : i ∈ s.stops ↔ i = 0 ∨ i = s.steps.length - 1 := by
    unfold stops
    rw [mem_stops, or_iff_right (hnone i), and_iff_left hnone, or_comm]
  refine ⟨hstops, ?_, fun hcursor hone => ?_⟩
  · have hback : s.backwardTarget? s.config.stepMode = none :=
      Search.previous?_eq_none_iff.mpr fun j _ => hnone j
    rw [backward, backwardBy, hback]
    rfl
  · have hpos := List.length_pos_iff.mpr hsteps
    have hforth : s.forwardTarget? s.config.stepMode = some (s.steps.length - 1) :=
      (forwardTarget?_eq_some_iff hsteps).mpr ⟨by omega, last_mem_stops _ _, fun j hj hjl hstop => by
        rcases (hstops j).mp hstop with rfl | rfl <;> omega⟩
    rw [forward, forwardBy, hforth]
    rfl

/-- **Stepping back undoes stepping forward.** Whatever moves in its configured mode have brought a
session to some steps, its cursor is on a stop. When the mode has steps, a step forward and a step
backward from there undo one another. When it has none, the stops are the first step and the last one,
a step forward leads from the one to the other, and there is no step backward. -/
theorem stepping_spec (producer : Producer) (config : Config) (moves : List Move)
    (hmoves : ∀ m ∈ moves, m.InMode config.stepMode) :
    let s := (new producer config).performAll moves
    s.steps ≠ [] →
      s.cursor ∈ s.stops ∧
      ((∃ step ∈ s.steps, s.config.stepMode.stopsAt step = true) →
        (s.forward.2 = true → s.forward.1.backward = (s, true)) ∧
        (s.backward.2 = true → s.backward.1.forward = (s, true))) ∧
      ((¬ ∃ step ∈ s.steps, s.config.stepMode.stopsAt step = true) →
        (∀ i, i ∈ s.stops ↔ i = 0 ∨ i = s.steps.length - 1) ∧ s.backward = (s, false) ∧
        (s.cursor = 0 → s.steps.length ≠ 1 →
          s.forward = ({ s with cursor := s.steps.length - 1 }, true))) := by
  intro s hsteps
  have hcursor : s.cursor ∈ s.stops := cursor_mem_stops producer hmoves hsteps
  refine ⟨hcursor, fun hmode => ?_, fun hmode => ?_⟩ <;> rw [← Search.exists_hit_iff] at hmode
  · exact ⟨backward_forward hmode hcursor, forward_backward hmode hcursor⟩
  · exact stepping_of_no_hit hsteps (not_exists.mp hmode)

end Session

/-- A declaration, a statement and a line of output. -/
def shortTrace : Trace where
  code := "x;"
  tree := ⟨[]⟩
  steps := [{ action := .declaration }, { action := .statement },
    { action := .stdout, text := some "1\n" }]
  types := []

/-- From the last step of the short trace the statement is one step back, and the end one step on. -/
theorem shortTrace_stepping :
    let s := (Session.new (.recorded (some shortTrace)) {}).performAll [.run, .jumpToEnd]
    s.cursor = 2 ∧ s.backward.1.cursor = 1 ∧ s.cursor ∈ s.stops ∧
      s.backward.1.forward = (s, true) := by
  intro s
  have hmoves : ∀ m ∈ [Move.run, .jumpToEnd], m.InMode ({} : Config).stepMode := by
    simp [Move.InMode]
  obtain ⟨hstop, hthere, -⟩ :=
    Session.stepping_spec (.recorded (some shortTrace)) {} _ hmoves (List.cons_ne_nil _ _)
  have hstatement : ∃ step ∈ s.steps, s.config.stepMode.stopsAt step = true := ⟨_, .tail _ (.head _), rfl⟩
  exact ⟨rfl, rfl, hstop, (hthere hstatement).2 rfl⟩

end Retrace
