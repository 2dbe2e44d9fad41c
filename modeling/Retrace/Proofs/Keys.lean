import Retrace.Proofs.Moves
import Retrace.Proofs.Search
import Retrace.Viewer.App

/-!
# Keys

Keys step a session in the mode of the viewer. One of them changes this mode, so that the cursor need not be
on a step that the mode stops at, and every key does from there what it does from elsewhere. Two keys repeat a
step until it is refused, which it is in the end, and a digit stands for as many steps forward.

* `Session.MovesTo`: only the cursor has moved, and it is in range.
* `Session.Repeats`: a step repeated until it is refused, with the number of times it is made.
* `Session.Repeats.eq_jumpToEnd`, `Session.Repeats.eq_startBy`: where repeated steps lead.
* `Session.repeats_forwardToEnd`, `Session.repeats_backwardToStart`: repeated steps come to an end.
* `Viewer.App.press_digit`, `Viewer.App.forwardTimes_eq`: a digit and the presses that it stands for.
* `Viewer.App.movesTo_press`, `Viewer.App.movesTo_pressAll`: keys move the cursor and nothing else.
* `Viewer.App.pressAll_spec`: all of it after any keys.
-/

namespace Retrace

open Search (Hit)

namespace Session

/-- A step is repeated until it is refused: beginning at `s` it is made `n` times, and at `t` it is
refused. -/
inductive Repeats (step : Session → Session × Bool) : Nat → Session → Session → Prop
  | refused {s t : Session} (h : step s = (t, false)) : Repeats step 0 s t
  | made {n : Nat} {s t u : Session} (h : step s = (t, true)) (rest : Repeats step n t u) :
      Repeats step (n + 1) s u

/-- A session that is another one but for the cursor, and has this on a step, or at zero. -/
def MovesTo (s t : Session) : Prop := t = { s with cursor := t.cursor } ∧ t.InRange

/-- The position of the first step of a mode if that lies before the cursor, and else the cursor. -/
def startBy (s : Session) (mode : StepMode) : Nat :=
  ((Search.first? mode.stopsAt s.steps).filter fun first => first < s.cursor).getD s.cursor

variable {s t u : Session} {mode : StepMode} {target : Option Nat} {n i : Nat}

theorem moveTo_eq_true_iff :
    s.moveTo target = (t, true) ↔ ∃ i, target = some i ∧ { s with cursor := i } = t := by
  cases target with
  | none => exact ⟨fun h => absurd (congrArg Prod.snd h) Bool.false_ne_true, nofun⟩
  | some i =>
    constructor
    · intro h
      exact ⟨i, rfl, congrArg Prod.fst h⟩
    · rintro ⟨_, ⟨⟩, rfl⟩
      rfl

theorem moveTo_eq_false_iff : s.moveTo target = (t, false) ↔ target = none ∧ s = t := by
  cases target with
  | none =>
    constructor
    · intro h
      exact ⟨rfl, congrArg Prod.fst h⟩
    · rintro ⟨-, rfl⟩
      rfl
  | some i => exact ⟨fun h => absurd (congrArg Prod.snd h).symm Bool.false_ne_true, nofun⟩

theorem MovesTo.refl (hs : s.InRange) : s.MovesTo s := ⟨rfl, hs⟩

theorem MovesTo.trans (hst : s.MovesTo t) (htu : t.MovesTo u) : s.MovesTo u := by
  refine ⟨?_, htu.2⟩
  rw [htu.1, hst.1]

theorem movesTo_perform {m : Move} (hm : m ≠ .run) (hs : s.InRange) : s.MovesTo (s.perform m) := by
  obtain ⟨cursor, hperform, hcursor⟩ := perform_of_ne_run hm hs
  rw [hperform]
  exact ⟨rfl, hcursor⟩

/-! ## Forward to the end -/

theorem jumpToEnd_of_isAtEnd (hs : s.InRange) (h : s.isAtEnd = true) : s.jumpToEnd = s := by
  have hlast : s.lastIndex?.getD 0 = s.cursor := by
    unfold isAtEnd at h
    unfold InRange at hs
    by_cases hsteps : s.steps = []
    · rw [lastIndex?_of_eq_nil hsteps, Option.getD_none]
      rw [hsteps, List.length_nil] at hs
      omega
    · rw [lastIndex?_of_ne_nil hsteps] at h ⊢
      have hpos := List.length_pos_iff.mpr hsteps
      have hle := of_decide_eq_true h
      rw [Option.getD_some]
      omega
  rw [jumpToEnd, hlast]

/-- **Repeated steps forward lead to the last step**, whatever their mode is and wherever they begin. -/
theorem Repeats.eq_jumpToEnd (h : Repeats (·.forwardBy mode) n s t) (hs : s.InRange) :
    t = s.jumpToEnd ∧ s.cursor + n ≤ t.cursor := by
  induction h with
  | refused h =>
    obtain ⟨hnone, rfl⟩ := moveTo_eq_false_iff.mp h
    exact ⟨(jumpToEnd_of_isAtEnd hs (forwardTarget?_eq_none_iff.mp hnone)).symm, Nat.le_refl _⟩
  | made h _ ih =>
    obtain ⟨i, hi, rfl⟩ := moveTo_eq_true_iff.mp h
    obtain ⟨hlt, hbound⟩ := lt_of_forwardTarget? hi
    obtain ⟨hend, hle⟩ := ih (.inr hbound)
    dsimp only at hle
    exact ⟨hend, by omega⟩

theorem repeats_forwardToEnd (mode : StepMode) (s : Session) :
    ∃ n, Repeats (·.forwardBy mode) n s (Viewer.App.forwardToEnd mode s) := by
  fun_induction Viewer.App.forwardToEnd mode s with
  | case1 s hnone => exact ⟨0, .refused (moveTo_eq_false_iff.mpr ⟨hnone, rfl⟩)⟩
  | case2 s target htarget _ ih =>
    obtain ⟨n, hrest⟩ := ih
    exact ⟨n + 1, .made (moveTo_eq_true_iff.mpr ⟨target, htarget, rfl⟩) hrest⟩

/-! ## Backward to the start -/

theorem startBy_of_lt (hfirst : Search.first? mode.stopsAt s.steps = some i) (hlt : i < s.cursor) :
    s.startBy mode = i := by
  rw [startBy, hfirst, Option.filter_some, if_pos (decide_eq_true hlt), Option.getD_some]

theorem startBy_of_forall (h : ∀ i, Search.first? mode.stopsAt s.steps = some i → ¬ i < s.cursor) :
    s.startBy mode = s.cursor := by
  have hnone : (Search.first? mode.stopsAt s.steps).filter (fun first => first < s.cursor) = none :=
    Option.filter_eq_none_iff.mpr fun i hfirst hlt => h i hfirst (of_decide_eq_true hlt)
  rw [startBy, hnone, Option.getD_none]

theorem startBy_of_isAtStartBy (h : s.isAtStartBy mode = true) : s.startBy mode = s.cursor := by
  have hnone := Search.previous?_eq_none_iff.mp (backwardTarget?_eq_none_iff.mpr h)
  exact startBy_of_forall fun i hfirst hlt => hnone i hlt (Search.first?_eq_some_iff.mp hfirst).1

theorem movesTo_startBy (hs : s.InRange) (mode : StepMode) :
    s.MovesTo { s with cursor := s.startBy mode } := by
  refine ⟨rfl, ?_⟩
  by_cases h : ∃ i, Search.first? mode.stopsAt s.steps = some i ∧ i < s.cursor
  · obtain ⟨i, hfirst, hlt⟩ := h
    rw [startBy_of_lt hfirst hlt]
    exact .inr (Search.first?_eq_some_iff.mp hfirst).1.lt_length
  · rw [startBy_of_forall fun i hfirst hlt => h ⟨i, hfirst, hlt⟩]
    exact hs

/-- The start lies the same from each step of the mode on the way to it. -/
theorem startBy_of_hit (hit : Hit mode.stopsAt s.steps i) (hlt : i < s.cursor) :
    startBy { s with cursor := i } mode = s.startBy mode := by
  cases hfirst : Search.first? mode.stopsAt s.steps with
  | none => exact absurd hit (Search.first?_eq_none_iff.mp hfirst i)
  | some first =>
    have hle : first ≤ i := Nat.not_lt.mp fun hbefore =>
      (Search.first?_eq_some_iff.mp hfirst).2 i hbefore hit
    rw [startBy_of_lt hfirst (Nat.lt_of_le_of_lt hle hlt)]
    rcases Nat.lt_or_eq_of_le hle with hbefore | rfl
    · exact startBy_of_lt (s := { s with cursor := i }) hfirst hbefore
    · refine startBy_of_forall (s := { s with cursor := first }) fun j hj => ?_
      cases hfirst.symm.trans hj
      exact Nat.lt_irrefl first

/-- **Repeated steps backward lead to the first step of their mode**, from wherever they begin behind it. -/
theorem Repeats.eq_startBy (h : Repeats (·.backwardBy mode) n s t) :
    t = { s with cursor := s.startBy mode } ∧ t.isAtStartBy mode = true ∧ t.cursor + n ≤ s.cursor := by
  induction h with
  | refused h =>
    obtain ⟨hnone, rfl⟩ := moveTo_eq_false_iff.mp h
    have hstart := backwardTarget?_eq_none_iff.mp hnone
    rw [startBy_of_isAtStartBy hstart]
    exact ⟨rfl, hstart, Nat.le_refl _⟩
  | made h _ ih =>
    obtain ⟨i, hi, rfl⟩ := moveTo_eq_true_iff.mp h
    obtain ⟨hlt, hit, -⟩ := Search.previous?_eq_some_iff.mp hi
    obtain ⟨hend, hstart, hle⟩ := ih
    rw [startBy_of_hit hit hlt] at hend
    dsimp only at hle
    exact ⟨hend, hstart, by omega⟩

theorem repeats_backwardToStart (mode : StepMode) (s : Session) :
    ∃ n, Repeats (·.backwardBy mode) n s (Viewer.App.backwardToStart mode s) := by
  fun_induction Viewer.App.backwardToStart mode s with
  | case1 s hnone => exact ⟨0, .refused (moveTo_eq_false_iff.mpr ⟨hnone, rfl⟩)⟩
  | case2 s target htarget _ ih =>
    obtain ⟨n, hrest⟩ := ih
    exact ⟨n + 1, .made (moveTo_eq_true_iff.mpr ⟨target, htarget, rfl⟩) hrest⟩

end Session

namespace Viewer.App

/-- The viewer after keys. -/
def pressAll (a : App) (keys : List Key) : App := keys.foldl press a

/-- How many of some presses of keys move the cursor. -/
def movingPresses (a : App) : List Key → Nat
  | [] => 0
  | k :: keys =>
    (if (a.press k).session.cursor = a.session.cursor then 0 else 1) + (a.press k).movingPresses keys

variable {a : App} {n : Nat}

theorem pressAll_cons (a : App) (k : Key) (keys : List Key) :
    a.pressAll (k :: keys) = (a.press k).pressAll keys := rfl

/-! ## Single steps -/

theorem session_press_right (a : App) :
    (a.press .right).session = (a.session.forwardBy a.mode).1 := by
  change a.paused.stepForward.session = (a.paused.session.forwardBy a.paused.mode).1
  unfold stepForward
  split
  · next h => rw [h, moved]
  · next h => rw [h, (Session.moveTo_eq_false_iff.mp h).2]

theorem mode_press_right (a : App) : (a.press .right).mode = a.mode := by
  change a.paused.stepForward.mode = a.paused.mode
  unfold stepForward
  split <;> rfl

theorem session_press_left (a : App) :
    (a.press .left).session = (a.session.backwardBy a.mode).1 := by
  change a.paused.stepBackward.session = (a.paused.session.backwardBy a.paused.mode).1
  unfold stepBackward
  split
  · next h => rw [h, moved]
  · next h => rw [h, (Session.moveTo_eq_false_iff.mp h).2]

/-! ## Digits -/

theorem forwardTimes_of_refused {s t : Session} {mode : StepMode} (h : s.forwardBy mode = (t, false))
    (n : Nat) : forwardTimes mode s n = (t, 0) := by
  cases n with
  | zero => rw [forwardTimes, (Session.moveTo_eq_false_iff.mp h).2]
  | succ n => rw [forwardTimes, h]

/-- **Steps made at once are steps made one by one**, those that are refused included; it is the presses
that move the cursor which are counted. -/
theorem forwardTimes_eq (a : App) (n : Nat) :
    forwardTimes a.mode a.session n = ((a.pressAll (List.replicate n .right)).session,
      a.movingPresses (List.replicate n .right)) := by
  induction n generalizing a with
  | zero => rfl
  | succ n ih =>
    have hrest := ih (a.press .right)
    rw [session_press_right, mode_press_right] at hrest
    rw [List.replicate_succ, pressAll_cons, movingPresses, session_press_right]
    rcases h : a.session.forwardBy a.mode with ⟨t, _ | _⟩
    · obtain rfl := (Session.moveTo_eq_false_iff.mp h).2
      rw [h, forwardTimes_of_refused h] at hrest
      rw [forwardTimes_of_refused h, if_pos rfl, Nat.zero_add]
      exact hrest
    · obtain ⟨i, hi, rfl⟩ := Session.moveTo_eq_true_iff.mp h
      have hne : i ≠ a.session.cursor := Nat.ne_of_gt (Session.lt_of_forwardTarget? hi).1
      rw [h] at hrest
      rw [forwardTimes, h]
      dsimp only
      rw [hrest, if_neg hne, Nat.add_comm 1]

theorem session_stepTimes (a : App) (n : Nat) :
    (a.paused.stepTimes n).session = (a.pressAll (List.replicate n .right)).session :=
  congrArg Prod.fst (forwardTimes_eq a n)

theorem message_stepTimes (a : App) (n : Nat) :
    (a.paused.stepTimes n).message =
      "Stepped forward " ++ toString (a.movingPresses (List.replicate n .right)) ++ " step(s)" :=
  congrArg (fun moved => "Stepped forward " ++ toString moved ++ " step(s)")
    (congrArg Prod.snd (forwardTimes_eq a n))

theorem press_digit (a : App) (hpos : 1 ≤ n) (hle : n ≤ 9) :
    a.press (.char n.digitChar) = a.paused.stepTimes n := by
  have hn : n = 1 ∨ n = 2 ∨ n = 3 ∨ n = 4 ∨ n = 5 ∨ n = 6 ∨ n = 7 ∨ n = 8 ∨ n = 9 := by omega
  rcases hn with rfl | rfl | rfl | rfl | rfl | rfl | rfl | rfl | rfl <;> rfl

/-! ## What keys keep -/

theorem movesTo_pressAll_of_forall {keys : List Key}
    (hkeys : ∀ k ∈ keys, ∀ a : App, a.session.InRange → a.session.MovesTo (a.press k).session)
    (ha : a.session.InRange) : a.session.MovesTo (a.pressAll keys).session := by
  induction keys generalizing a with
  | nil => exact .refl ha
  | cons k keys ih =>
    obtain ⟨hk, hrest⟩ := List.forall_mem_cons.mp hkeys
    have hpress := hk a ha
    exact hpress.trans (ih hrest hpress.2)

theorem movesTo_press_right (ha : a.session.InRange) :
    a.session.MovesTo (a.press .right).session := by
  rw [session_press_right]
  exact Session.movesTo_perform (m := .forwardBy a.mode) nofun ha

theorem movesTo_pressChar (ha : a.session.InRange) (c : Char) :
    a.session.MovesTo (a.pressChar c).session := by
  unfold pressChar
  split
  · exact .refl ha
  split
  · rw [session_stepTimes]
    refine movesTo_pressAll_of_forall (fun k hk a ha => ?_) ha
    rw [(List.mem_replicate.mp hk).2]
    exact movesTo_press_right ha
  split
  · exact .refl ha
  · exact .refl ha

/-- **A key moves the cursor and nothing else**, and keeps it on a step. -/
theorem movesTo_press (ha : a.session.InRange) (k : Key) : a.session.MovesTo (a.press k).session := by
  cases k with
  | left =>
    rw [session_press_left]
    exact Session.movesTo_perform (m := .backwardBy a.mode) nofun ha
  | right => exact movesTo_press_right ha
  | up =>
    rw [press, scrollUp]
    split <;> exact .refl ha
  | down =>
    rw [press, scrollDown]
    split <;> exact .refl ha
  | enter =>
    obtain ⟨n, h⟩ := Session.repeats_forwardToEnd a.mode a.session
    change a.session.MovesTo (forwardToEnd a.mode a.session)
    rw [(h.eq_jumpToEnd ha).1]
    exact Session.movesTo_perform (m := .jumpToEnd) nofun ha
  | backspace =>
    obtain ⟨n, h⟩ := Session.repeats_backwardToStart a.mode a.session
    change a.session.MovesTo (backwardToStart a.mode a.session)
    rw [h.eq_startBy.1]
    exact Session.movesTo_startBy ha a.mode
  | space repeated => cases repeated <;> exact .refl ha
  | char c => exact movesTo_pressChar ha c
  | tab | backTab | escape => exact .refl ha

theorem movesTo_pressAll (ha : a.session.InRange) (keys : List Key) :
    a.session.MovesTo (a.pressAll keys).session :=
  movesTo_pressAll_of_forall (fun k _ _ h => movesTo_press h k) ha

/-- **Keys.** Whatever keys have been pressed in the viewer of a session, they have moved its cursor and
nothing else, and the next key does so too. In the mode that the viewer is in by then, Enter repeats a step
forward until it is refused, which leads to where a jump to the end leads; Backspace repeats a step backward
until it is refused, which leads to the first step of that mode if it lies before the cursor, and nowhere
otherwise; and a digit does to the session what as many presses of the right arrow do, and reports how many
of them move the cursor. -/
theorem pressAll_spec (producer : Producer) (config : Config) (moves : List Move) (keys : List Key) :
    let start := (Session.new producer config).performAll moves
    let a := (new start).pressAll keys
    let s := a.session
    (start.MovesTo s ∧ ∀ k, s.MovesTo (a.press k).session) ∧
    ((∃ n, Session.Repeats (·.forwardBy a.mode) n s (a.press .enter).session ∧
        s.cursor + n ≤ (a.press .enter).session.cursor) ∧
      (a.press .enter).session = s.jumpToEnd) ∧
    ((∃ n, Session.Repeats (·.backwardBy a.mode) n s (a.press .backspace).session ∧
        (a.press .backspace).session.cursor + n ≤ s.cursor) ∧
      (a.press .backspace).session = { s with cursor := s.startBy a.mode } ∧
      (a.press .backspace).session.isAtStartBy a.mode = true) ∧
    ∀ n, 1 ≤ n → n ≤ 9 →
      let rights := List.replicate n Key.right
      (a.press (.char n.digitChar)).session = (a.pressAll rights).session ∧
      (a.press (.char n.digitChar)).message =
        "Stepped forward " ++ toString (a.movingPresses rights) ++ " step(s)" := by
  intro start a s
  have hstart : start.InRange := Session.inRange_performAll_new producer config moves
  have hkeys : start.MovesTo s := movesTo_pressAll (a := new start) hstart keys
  refine ⟨⟨hkeys, movesTo_press hkeys.2⟩, ?_, ?_, fun n hpos hle => ?_⟩
  · obtain ⟨n, hrepeats⟩ := Session.repeats_forwardToEnd a.mode s
    obtain ⟨hend, hrounds⟩ := hrepeats.eq_jumpToEnd hkeys.2
    exact ⟨⟨n, hrepeats, hrounds⟩, hend⟩
  · obtain ⟨n, hrepeats⟩ := Session.repeats_backwardToStart a.mode s
    obtain ⟨hend, hatStart, hrounds⟩ := hrepeats.eq_startBy
    exact ⟨⟨n, hrepeats, hrounds⟩, hend, hatStart⟩
  · intro rights
    rw [press_digit a hpos hle]
    exact ⟨session_stepTimes a n, message_stepTimes a n⟩

/-- From the last step there is no way back to an expression, but one to the statement, once the mode of the
viewer has changed again. -/
example :
    let trace : Trace := ⟨"x;", ⟨[]⟩,
      [{ action := .declaration }, { action := .statement }, { action := .stdout }], []⟩
    let session := Session.new (.recorded (some trace)) { stepMode := .statement }
    let a := new (session.performAll [.run])
    (a.pressAll [.enter, .char 'm', .backspace]).session.cursor = 2 ∧
    (a.pressAll [.enter, .char 'm', .backspace, .char 'm', .backspace]).session.cursor = 1 := by
  decide +kernel

end Viewer.App

end Retrace
