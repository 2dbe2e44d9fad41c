import Mathlib.Data.List.Infix
import Retrace.Session

/-!
# Sessions under moves

A session is made, run and moved about in any order. Its trace comes from the first run, and only when
the producer gives one that is not too long; every other move changes nothing but the cursor, and keeps
it on a step.

* `Move`, `Session.perform`, `Session.performAll`: what can be done to a session.
* `Session.perform_of_ne_run`, `Session.run_of_not_started`: what one move can do.
* `Session.performAll_of_started`, `Session.performAll_new_of_mem`: what any number of moves can do.
* `Session.forwardTarget?_eq_none_iff`: there is a step forward unless the session is at its end.
* `Session.performAll_spec`: all of it for a new session.
-/

namespace Retrace

/-- What can be done to a session. -/
inductive Move where
  | run
  | forward
  | backward
  | forwardBy (mode : StepMode)
  | backwardBy (mode : StepMode)
  | rewind
  | jumpToEnd
  deriving DecidableEq, Repr

/-- A move that names a mode names this one. -/
def Move.InMode (mode : StepMode) : Move → Prop
  | .forwardBy m | .backwardBy m => m = mode
  | _ => True

/-- The trace that a producer gives a session next: none when it fails, or when there are too many
steps. -/
def Producer.admitted? (p : Producer) (limit : Nat) : Option Trace :=
  match p.produce.1 with
  | .ok trace => if trace.steps.length ≤ limit then some trace else none
  | .error _ => none

theorem Producer.admitted?_eq_some_iff {p : Producer} {limit : Nat} {trace : Trace} :
    p.admitted? limit = some trace ↔ p.produce.1 = .ok trace ∧ trace.steps.length ≤ limit := by
  unfold admitted?
  cases p.produce.1 with
  | error e => exact ⟨nofun, nofun⟩
  | ok given =>
    dsimp only
    rw [Option.ite_none_right_eq_some, Except.ok.injEq, Option.some.injEq]
    constructor
    · rintro ⟨hlimit, rfl⟩
      exact ⟨rfl, hlimit⟩
    · rintro ⟨rfl, hlimit⟩
      exact ⟨hlimit, rfl⟩

namespace Session

/-- The session after a move. -/
def perform (s : Session) : Move → Session
  | .run => s.run.1
  | .forward => s.forward.1
  | .backward => s.backward.1
  | .forwardBy mode => (s.forwardBy mode).1
  | .backwardBy mode => (s.backwardBy mode).1
  | .rewind => s.rewind
  | .jumpToEnd => s.jumpToEnd

/-- The session after moves. -/
def performAll (s : Session) (moves : List Move) : Session := moves.foldl perform s

/-- What a session has of its trace. -/
def contents (s : Session) : String × SyntaxTree × List Step := (s.code, s.tree, s.steps)

/-- The cursor is on a step, or at zero. -/
def InRange (s : Session) : Prop := s.cursor = 0 ∨ s.cursor < s.steps.length

variable {s : Session} {mode : StepMode}

/-! ## Where moves lead -/

theorem lastIndex?_of_eq_nil (h : s.steps = []) : s.lastIndex? = none := by
  rw [lastIndex?, h]
  rfl

theorem lastIndex?_of_ne_nil (h : s.steps ≠ []) : s.lastIndex? = some (s.steps.length - 1) := by
  rw [lastIndex?, if_neg (by rwa [List.isEmpty_iff])]

theorem startOf_inRange (mode : StepMode) (steps : List Step) :
    startOf mode steps = 0 ∨ startOf mode steps < steps.length := by
  unfold startOf Search.first?
  cases h : steps.findIdx? mode.stopsAt with
  | none => exact .inl rfl
  | some i => exact .inr (List.findIdx?_eq_some_iff_getElem.mp h).1

theorem moveTo_eq_cursor {target : Option Nat} :
    (s.moveTo target).1 = { s with cursor := target.getD s.cursor } := by
  cases target <;> rfl

theorem moveTo_of_snd_eq_true {target : Option Nat} (h : (s.moveTo target).2 = true) :
    ∃ i, target = some i ∧ (s.moveTo target).1 = { s with cursor := i } := by
  cases target with
  | none => exact absurd h Bool.false_ne_true
  | some i => exact ⟨i, rfl, rfl⟩

theorem moveTo_of_snd_eq_false {target : Option Nat} (h : (s.moveTo target).2 = false) :
    (s.moveTo target).1 = s := by
  cases target with
  | none => rfl
  | some i => exact absurd h.symm Bool.false_ne_true

theorem snd_moveTo_eq_false_iff {target : Option Nat} : (s.moveTo target).2 = false ↔ target = none := by
  cases target with
  | none => exact ⟨fun _ => rfl, fun _ => rfl⟩
  | some i => exact ⟨nofun, nofun⟩

/-- There is a step forward exactly as long as a step lies behind the cursor, whatever the mode. -/
theorem forwardTarget?_eq_none_iff : s.forwardTarget? mode = none ↔ s.isAtEnd = true := by
  unfold forwardTarget? isAtEnd
  rw [Option.or_eq_none_iff]
  by_cases hsteps : s.steps = []
  · rw [lastIndex?_of_eq_nil hsteps]
    refine ⟨fun _ => rfl, fun _ => ⟨?_, rfl⟩⟩
    rw [Search.next?, hsteps, List.drop_nil]
    rfl
  · rw [lastIndex?_of_ne_nil hsteps]
    dsimp only
    rw [Option.filter_eq_none_iff, decide_eq_true_eq]
    constructor
    · rintro ⟨-, hlast⟩
      have := hlast _ rfl
      rw [decide_eq_true_eq] at this
      omega
    · intro hend
      refine ⟨Option.eq_none_iff_forall_ne_some.mpr fun i hi => ?_, fun last hlast => ?_⟩
      · have := Search.lt_of_next? hi
        omega
      · cases hlast
        rw [decide_eq_true_eq]
        omega

theorem backwardTarget?_eq_none_iff :
    s.backwardTarget? mode = none ↔ s.isAtStartBy mode = true := by
  rw [isAtStartBy, Option.isNone_iff_eq_none]

/-! ## One move -/

theorem inRange_moveTo {target : Option Nat} (h : s.InRange)
    (htarget : ∀ i, target = some i → i < s.steps.length) :
    target.getD s.cursor = 0 ∨ target.getD s.cursor < s.steps.length := by
  cases target with
  | none => exact h
  | some i => exact .inr (htarget i rfl)

/-- **A move other than a run changes nothing but the cursor**, and keeps it in range. -/
theorem perform_of_ne_run {m : Move} (hm : m ≠ .run) (h : s.InRange) :
    ∃ cursor, s.perform m = { s with cursor := cursor } ∧ (cursor = 0 ∨ cursor < s.steps.length) := by
  have hforward (mode : StepMode) : ∃ cursor, (s.forwardBy mode).1 = { s with cursor := cursor } ∧
      (cursor = 0 ∨ cursor < s.steps.length) :=
    ⟨_, moveTo_eq_cursor, inRange_moveTo h fun _ hi => (lt_of_forwardTarget? hi).2⟩
  have hbackward (mode : StepMode) : ∃ cursor, (s.backwardBy mode).1 = { s with cursor := cursor } ∧
      (cursor = 0 ∨ cursor < s.steps.length) :=
    ⟨_, moveTo_eq_cursor, inRange_moveTo h fun _ hi => (lt_of_backwardTarget? hi).2⟩
  cases m with
  | run => exact absurd rfl hm
  | forward => exact hforward s.config.stepMode
  | backward => exact hbackward s.config.stepMode
  | forwardBy mode => exact hforward mode
  | backwardBy mode => exact hbackward mode
  | rewind => exact ⟨_, rfl, startOf_inRange _ _⟩
  | jumpToEnd =>
    refine ⟨_, rfl, ?_⟩
    by_cases hsteps : s.steps = []
    · rw [lastIndex?_of_eq_nil hsteps]
      exact .inl rfl
    · rw [lastIndex?_of_ne_nil hsteps]
      have := List.length_pos_iff.mpr hsteps
      exact .inr (by rw [Option.getD_some]; omega)

theorem run_of_started (h : s.started = true) : s.run = (s, .ok ()) := by
  rw [run, if_pos h]

/-- The session once its producer was asked. -/
def asked (s : Session) : Session := { s with producer := s.producer.produce.2, started := true }

/-- The first run loads the trace that the producer gives, or fails and leaves all as it was. -/
theorem run_of_not_started (h : s.started = false) :
    (∃ trace, s.producer.admitted? s.config.stepLimit = some trace ∧
      s.run = (s.asked.load trace, .ok ())) ∨
    (s.producer.admitted? s.config.stepLimit = none ∧ ∃ e, s.run = (s.asked, .error e)) := by
  unfold run Producer.admitted?
  rw [if_neg (by rw [h]; exact Bool.false_ne_true)]
  dsimp only
  cases s.producer.produce.1 with
  | error e => exact .inr ⟨rfl, e, rfl⟩
  | ok trace =>
    by_cases hlimit : trace.steps.length ≤ s.config.stepLimit
    · refine .inl ⟨trace, if_pos hlimit, ?_⟩
      dsimp only
      rw [if_neg (Nat.not_lt.mpr hlimit)]
      rfl
    · refine .inr ⟨if_neg hlimit, .stepLimitExceeded s.config.stepLimit, ?_⟩
      dsimp only
      rw [if_pos (Nat.lt_of_not_le hlimit)]
      rfl

theorem started_run (s : Session) : s.run.1.started = true := by
  cases h : s.started with
  | true => rwa [run_of_started h]
  | false =>
    rcases run_of_not_started h with ⟨trace, -, hrun⟩ | ⟨-, e, hrun⟩ <;> rw [hrun] <;> rfl

theorem inRange_run (h : s.InRange) : s.run.1.InRange := by
  cases hs : s.started with
  | true => rwa [run_of_started hs]
  | false =>
    rcases run_of_not_started hs with ⟨trace, -, hrun⟩ | ⟨-, e, hrun⟩ <;> rw [hrun]
    · exact startOf_inRange _ _
    · exact h

/-! ## Any number of moves -/

theorem performAll_append (s : Session) (before after : List Move) :
    s.performAll (before ++ after) = (s.performAll before).performAll after :=
  List.foldl_append

/-- **A session that has run keeps everything but the cursor**, further runs included. -/
theorem performAll_of_started (moves : List Move) (hs : s.started = true) (h : s.InRange) :
    ∃ cursor, s.performAll moves = { s with cursor := cursor } ∧
      (cursor = 0 ∨ cursor < s.steps.length) := by
  induction moves using List.reverseRecOn with
  | nil => exact ⟨s.cursor, rfl, h⟩
  | append_singleton moves m ih =>
    obtain ⟨cursor, hmoves, hcursor⟩ := ih
    rw [performAll_append, hmoves]
    by_cases hm : m = .run
    · subst hm
      exact ⟨cursor, congrArg Prod.fst (run_of_started (s := { s with cursor := cursor }) hs), hcursor⟩
    · exact perform_of_ne_run (s := { s with cursor := cursor }) hm hcursor

/-- Before the first run there is nowhere to move to. -/
theorem performAll_new_of_not_mem (producer : Producer) (config : Config) {moves : List Move}
    (h : .run ∉ moves) : (new producer config).performAll moves = new producer config := by
  induction moves with
  | nil => rfl
  | cons m moves ih =>
    obtain ⟨hm, hmoves⟩ := not_or.mp (mt List.mem_cons.mpr h)
    obtain ⟨cursor, hperform, hcursor⟩ :=
      perform_of_ne_run (s := new producer config) (Ne.symm hm) (.inl rfl)
    obtain rfl : cursor = 0 := hcursor.resolve_right (Nat.not_lt_zero cursor)
    change ((new producer config).perform m).performAll moves = new producer config
    rw [hperform]
    exact ih hmoves

/-- **The first run decides what a session holds**, and every move after it only moves the cursor. -/
theorem performAll_new_of_mem (producer : Producer) (config : Config) {moves : List Move}
    (h : .run ∈ moves) :
    ∃ cursor, (new producer config).performAll moves =
        { (new producer config).run.1 with cursor := cursor } ∧
      (cursor = 0 ∨ cursor < (new producer config).run.1.steps.length) := by
  obtain ⟨before, after, rfl, hbefore⟩ := List.eq_append_cons_of_mem h
  rw [performAll_append, performAll_new_of_not_mem producer config hbefore]
  exact performAll_of_started after (started_run _) (inRange_run (.inl rfl))

theorem inRange_performAll_new (producer : Producer) (config : Config) (moves : List Move) :
    ((new producer config).performAll moves).InRange := by
  by_cases h : .run ∈ moves
  · obtain ⟨cursor, hmoves, hcursor⟩ := performAll_new_of_mem producer config h
    rw [hmoves]
    exact hcursor
  · rw [performAll_new_of_not_mem producer config h]
    exact .inl rfl

/-! ## A new session -/

theorem run_new_eq_ok_iff (producer : Producer) (config : Config) :
    (new producer config).run.2 = .ok () ↔
      ∃ trace, producer.produce.1 = .ok trace ∧ trace.steps.length ≤ config.stepLimit := by
  simp only [← Producer.admitted?_eq_some_iff]
  rcases run_of_not_started (s := new producer config) rfl with
    ⟨trace, htrace, hrun⟩ | ⟨hnone, e, hrun⟩
  · rw [hrun]
    exact ⟨fun _ => ⟨trace, htrace⟩, fun _ => rfl⟩
  · rw [hrun]
    refine ⟨nofun, fun ⟨trace, htrace⟩ => ?_⟩
    cases hnone.symm.trans htrace

/-- A run that succeeds loads the trace, and one that fails leaves the session without one. -/
theorem contents_run_new (producer : Producer) (config : Config) :
    (∀ trace, producer.produce.1 = .ok trace → (new producer config).run.2 = .ok () →
      (new producer config).run.1.contents = (trace.code, trace.tree, trace.steps)) ∧
    ∀ e, (new producer config).run.2 = .error e →
      (new producer config).run.1.contents = (new producer config).contents ∧
      (new producer config).run.1.cursor = (new producer config).cursor := by
  rcases run_of_not_started (s := new producer config) rfl with
    ⟨trace, htrace, hrun⟩ | ⟨-, e, hrun⟩ <;> rw [hrun]
  · refine ⟨fun given hgiven _ => ?_, nofun⟩
    cases (Producer.admitted?_eq_some_iff.mp htrace).1.symm.trans hgiven
    rfl
  · exact ⟨nofun, fun _ _ => ⟨rfl, rfl⟩⟩

/-- The first run asks the producer once. -/
theorem producer_run_new (producer : Producer) (config : Config) :
    (new producer config).run.1.producer = producer.produce.2 := by
  rcases run_of_not_started (s := new producer config) rfl with
    ⟨trace, -, hrun⟩ | ⟨-, e, hrun⟩ <;> rw [hrun] <;> rfl

/-- What a session has of its trace changes only when the first run succeeds. -/
theorem of_contents_perform_ne {s : Session} (h : s.InRange) {m : Move}
    (hm : (s.perform m).contents ≠ s.contents) :
    m = .run ∧ s.started = false ∧ s.run.2 = .ok () := by
  by_cases hrun : m = .run
  · subst hrun
    refine ⟨rfl, ?_⟩
    cases hs : s.started with
    | true => exact absurd (congrArg (contents ∘ Prod.fst) (run_of_started hs)) hm
    | false =>
      rcases run_of_not_started hs with ⟨trace, -, hrun⟩ | ⟨-, e, hrun⟩
      · exact ⟨rfl, by rw [hrun]⟩
      · exact absurd (congrArg (contents ∘ Prod.fst) hrun) hm
  · obtain ⟨cursor, hperform, -⟩ := perform_of_ne_run hrun h
    rw [hperform] at hm
    exact absurd rfl hm

/-- **Sessions under moves.** After any moves the cursor of a session is on a step, or at zero when
there is none. Code, tree and steps are those of a new session until the first run and from then on
those that the first run left; they change at that run only, when it succeeds, which it does exactly
when the producer gives a trace within the limit. When it fails all stays as in a new session, and
every later run succeeds without a request and without a change. A step forward is refused at the end
only and a step backward at its start only; a refused step leaves the session as it is, and any other
moves the cursor its way. -/
theorem performAll_spec (producer : Producer) (config : Config) (moves : List Move) :
    let fresh := new producer config
    let s := fresh.performAll moves
    ((s.steps = [] → s.cursor = 0) ∧ (s.steps ≠ [] → s.cursor < s.steps.length)) ∧
    (.run ∉ moves → s = fresh) ∧
    (.run ∈ moves → s.contents = fresh.run.1.contents ∧ s.producer = producer.produce.2 ∧
      s.run = (s, .ok ())) ∧
    (∀ m, (s.perform m).contents ≠ s.contents → m = .run ∧ .run ∉ moves ∧ s.run.2 = .ok ()) ∧
    ((fresh.run.2 = .ok () ↔
        ∃ trace, producer.produce.1 = .ok trace ∧ trace.steps.length ≤ config.stepLimit) ∧
      (∀ trace, producer.produce.1 = .ok trace → fresh.run.2 = .ok () →
        fresh.run.1.contents = (trace.code, trace.tree, trace.steps)) ∧
      ∀ e, fresh.run.2 = .error e →
        fresh.run.1.contents = fresh.contents ∧ fresh.run.1.cursor = fresh.cursor) ∧
    ∀ mode,
      ((s.forwardBy mode).2 = false ↔ s.isAtEnd = true) ∧
      ((s.forwardBy mode).2 = false → (s.forwardBy mode).1 = s) ∧
      ((s.forwardBy mode).2 = true → s.cursor < (s.forwardBy mode).1.cursor) ∧
      ((s.backwardBy mode).2 = false ↔ s.isAtStartBy mode = true) ∧
      ((s.backwardBy mode).2 = false → (s.backwardBy mode).1 = s) ∧
      ((s.backwardBy mode).2 = true → (s.backwardBy mode).1.cursor < s.cursor) := by
  intro fresh s
  have hrange : s.InRange := inRange_performAll_new producer config moves
  have hbefore : .run ∉ moves → s = fresh := performAll_new_of_not_mem producer config
  have hafter (h : .run ∈ moves) : s.started = true ∧ s.contents = fresh.run.1.contents ∧
      s.producer = producer.produce.2 := by
    obtain ⟨cursor, hmoves, -⟩ := performAll_new_of_mem producer config h
    change s = _ at hmoves
    rw [hmoves]
    exact ⟨started_run fresh, rfl, producer_run_new producer config⟩
  refine ⟨⟨fun hsteps => ?_, fun hsteps => ?_⟩, hbefore, fun h => ?_, fun m hm => ?_,
    ⟨run_new_eq_ok_iff producer config, contents_run_new producer config⟩, fun mode => ?_⟩
  · refine hrange.resolve_right fun hlt => ?_
    rw [hsteps] at hlt
    exact Nat.not_lt_zero _ hlt
  · have := List.length_pos_iff.mpr hsteps
    unfold InRange at hrange
    omega
  · obtain ⟨hstarted, hcontents, hproducer⟩ := hafter h
    exact ⟨hcontents, hproducer, run_of_started hstarted⟩
  · obtain ⟨hrun, hstarted, hok⟩ := of_contents_perform_ne hrange hm
    refine ⟨hrun, fun h => ?_, hok⟩
    rw [(hafter h).1] at hstarted
    exact Bool.noConfusion hstarted
  · refine ⟨snd_moveTo_eq_false_iff.trans forwardTarget?_eq_none_iff, moveTo_of_snd_eq_false,
      fun h => ?_, snd_moveTo_eq_false_iff.trans backwardTarget?_eq_none_iff,
      moveTo_of_snd_eq_false, fun h => ?_⟩
    · obtain ⟨i, hi, hmove⟩ := moveTo_of_snd_eq_true h
      rw [forwardBy, hmove]
      exact (lt_of_forwardTarget? hi).1
    · obtain ⟨i, hi, hmove⟩ := moveTo_of_snd_eq_true h
      rw [backwardBy, hmove]
      exact (lt_of_backwardTarget? hi).1

end Session

end Retrace
