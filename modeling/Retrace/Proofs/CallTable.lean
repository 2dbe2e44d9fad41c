import Retrace.Proofs.Balance
import Retrace.Replay.CallTree

/-!
# The table of calls

What a list of steps says about the calls made in it, with no tree built: a row for each invocation,
filled from the steps before it and after it. A further step changes each row by itself.

* `directSteps`: the steps of a kind recorded while a call was the innermost open one.
* `mem_directSteps_isReturn`: a return is recorded directly in a call exactly when it completes it.
* `level?`: how many calls are open within a call, while it is open itself.
* `callTable`: the rows; `callTable_append_singleton` gives them after a further step.
* `Step.isCallEvent`, `topLevelCalls`: invocations and returns, and the number of calls made while none
  was open.
-/

namespace Retrace

/-! ## Steps recorded directly in a call -/

/-- Of the steps after an invocation those of a kind that were recorded while its call was the innermost
open one. -/
def directSteps (kind : Step → Bool) (after : List Step) : List Step :=
  ((occurrences after).filter fun o => kind o.step && decide (Balanced o.before)).map Occurrence.step

theorem directSteps_append_singleton (kind : Step → Bool) (after : List Step) (s : Step) :
    directSteps kind (after ++ [s]) =
      directSteps kind after ++ if kind s && decide (Balanced after) then [s] else [] :=
  map_filter_occurrences_append_singleton _ Occurrence.step after s

theorem mem_directSteps {kind : Step → Bool} {after : List Step} {s : Step} :
    s ∈ directSteps kind after ↔
      ∃ body rest, after = body ++ s :: rest ∧ kind s = true ∧ Balanced body := by
  unfold directSteps
  constructor
  · intro h
    obtain ⟨o, ho, rfl⟩ := List.mem_map.mp h
    obtain ⟨hmem, hkeep⟩ := List.mem_filter.mp ho
    rw [Bool.and_eq_true, decide_eq_true_eq] at hkeep
    exact ⟨o.before, o.after, mem_occurrences.mp hmem, hkeep⟩
  · rintro ⟨body, rest, rfl, hkind, hbody⟩
    refine List.mem_map.mpr ⟨⟨body, s, rest⟩, List.mem_filter.mpr ⟨mem_occurrences.mpr rfl, ?_⟩, rfl⟩
    rw [Bool.and_eq_true, decide_eq_true_eq]
    exact ⟨hkind, hbody⟩

/-- A call that is still open has no return. -/
theorem directSteps_isReturn_of_returnsMatched {after : List Step} (h : ReturnsMatched after) :
    directSteps Step.isReturn after = [] := by
  refine List.eq_nil_iff_forall_not_mem.mpr fun r hr => ?_
  obtain ⟨body, rest, rfl, hreturn, hbody⟩ := mem_directSteps.mp hr
  have := h (body ++ [r]) ⟨rest, by rw [List.append_assoc, List.singleton_append]⟩
  rw [balance_append_singleton, hbody.closed, Step.weight_of_isReturn hreturn] at this
  omega

/-- A call has at most one return. -/
theorem length_directSteps_isReturn_le (after : List Step) :
    (directSteps Step.isReturn after).length ≤ 1 := by
  induction after using List.reverseRecOn with
  | nil => exact Nat.zero_le 1
  | append_singleton after s ih =>
    rw [directSteps_append_singleton]
    split
    · next h =>
      rw [Bool.and_eq_true, decide_eq_true_eq] at h
      rw [directSteps_isReturn_of_returnsMatched h.2.matched]
      exact Nat.le_refl 1
    · rwa [List.append_nil]

theorem mem_directSteps_isReturn {invocation r : Step} {after : List Step}
    (h : invocation.isInvocation = true) :
    r ∈ directSteps Step.isReturn after ↔
      ∃ body rest, after = body ++ r :: rest ∧ CompletedCall (invocation :: (body ++ [r])) := by
  rw [mem_directSteps]
  constructor
  · rintro ⟨body, rest, hafter, hreturn, hbody⟩
    exact ⟨body, rest, hafter, completedCall_of_balanced h hreturn hbody⟩
  · rintro ⟨body, rest, hafter, hcall⟩
    obtain ⟨_, body', r', heq, -, hreturn, hbody⟩ := completedCall_iff.mp hcall
    obtain ⟨rfl, hr⟩ := List.append_inj' (List.cons.inj heq).2 rfl
    obtain ⟨rfl, -⟩ := List.cons.inj hr
    exact ⟨body, rest, hafter, hreturn, hbody⟩

/-! ## Open calls -/

/-- The number of calls open within a call after the steps that follow its invocation; nothing when
the call itself has returned. -/
def level? (after : List Step) : Option Nat :=
  if ReturnsMatched after then some (balance after).toNat else none

/-- The level of a call after one more step. -/
def Step.nextLevel? (s : Step) (level : Nat) : Option Nat :=
  if s.isInvocation then some (level + 1)
  else if s.isReturn then if level = 0 then none else some (level - 1)
  else some level

theorem Step.nextLevel?_of_isInvocation {s : Step} (h : s.isInvocation = true) (level : Nat) :
    s.nextLevel? level = some (level + 1) := by
  rw [nextLevel?, if_pos h]

theorem Step.nextLevel?_of_isReturn {s : Step} (h : s.isReturn = true) (level : Nat) :
    s.nextLevel? level = if level = 0 then none else some (level - 1) := by
  rw [nextLevel?, if_neg (not_isInvocation_of_isReturn h), if_pos h]

theorem Step.nextLevel?_of_weight_eq_zero {s : Step} (h : s.weight = 0) (level : Nat) :
    s.nextLevel? level = some level := by
  rw [nextLevel?, if_neg (not_isInvocation_of_weight h), if_neg (not_isReturn_of_weight h)]

theorem level?_append_singleton (after : List Step) (s : Step) :
    level? (after ++ [s]) = (level? after).bind s.nextLevel? := by
  unfold level?
  rw [balance_append_singleton]
  by_cases hafter : ReturnsMatched after
  · have hnonneg := hafter after List.prefix_rfl
    rw [if_pos hafter, Option.bind_some]
    rcases s.weight_cases with ⟨hi, hw⟩ | ⟨hr, hw⟩ | hw
    · rw [Step.nextLevel?_of_isInvocation hi,
        if_pos (returnsMatched_append_singleton.mpr ⟨hafter, by omega⟩)]
      congr 1
      omega
    · rw [Step.nextLevel?_of_isReturn hr]
      by_cases hzero : (balance after).toNat = 0
      · rw [if_pos hzero, if_neg fun h => ?_]
        have := (returnsMatched_append_singleton.mp h).2
        omega
      · rw [if_neg hzero, if_pos (returnsMatched_append_singleton.mpr ⟨hafter, by omega⟩)]
        congr 1
        omega
    · rw [Step.nextLevel?_of_weight_eq_zero hw,
        if_pos (returnsMatched_append_singleton.mpr ⟨hafter, by omega⟩)]
      congr 1
      omega
  · rw [if_neg hafter, if_neg fun h => hafter (returnsMatched_append_singleton.mp h).1,
      Option.bind_none]

/-- The innermost open call is the one with nothing left open within it. -/
theorem level?_eq_some_zero {after : List Step} : level? after = some 0 ↔ Balanced after := by
  unfold level?
  constructor
  · intro h
    split at h
    · next hafter =>
      have hnonneg := hafter after List.prefix_rfl
      have := Option.some.inj h
      exact ⟨hafter, by omega⟩
    · cases h
  · intro h
    rw [if_pos h.matched, h.closed]
    rfl

/-! ## Rows -/

/-- A call without the calls that it made, with the number of calls open when it was made and its
level. -/
structure CallRow where
  depth : Nat
  level : Option Nat
  call : Call

/-- The call with a step that was recorded directly in it. -/
def Call.note (s : Step) (c : Call) : Call :=
  { c with
    parameters := c.parameters ++ if s.isParameter then [s] else []
    returns := c.returns ++ if s.isReturn then [s] else [] }

/-- The row of an invocation in its place. -/
def CallRow.ofOccurrence (o : Occurrence) : CallRow where
  depth := (balance o.before).toNat
  level := level? o.after
  call := ⟨invocations o.before, o.step, directSteps Step.isParameter o.after,
    directSteps Step.isReturn o.after, []⟩

/-- A row after one more step. -/
def CallRow.record (s : Step) (row : CallRow) : CallRow :=
  { row with
    level := row.level.bind s.nextLevel?
    call := if row.level = some 0 then row.call.note s else row.call }

theorem CallRow.ofOccurrence_widen (s : Step) (o : Occurrence) :
    ofOccurrence (o.widen s) = (ofOccurrence o).record s := by
  unfold ofOccurrence record Occurrence.widen Call.note
  rw [level?_append_singleton, directSteps_append_singleton, directSteps_append_singleton]
  by_cases h : Balanced o.after
  · simp only [h, decide_true, Bool.and_true, level?_eq_some_zero.mpr h, if_pos]
  · simp only [h, decide_false, Bool.and_false, if_neg (mt level?_eq_some_zero.mp h),
      Bool.false_eq_true, if_false, List.append_nil]

/-- The calls of a list of steps in the order of their invocations. -/
def callTable (steps : List Step) : List CallRow :=
  ((occurrences steps).filter fun o => o.step.isInvocation).map CallRow.ofOccurrence

/-- **A further step changes each row by itself, and an invocation adds one.** -/
theorem callTable_append_singleton (steps : List Step) (s : Step) :
    callTable (steps ++ [s]) = (callTable steps).map (CallRow.record s) ++
      if s.isInvocation then
        [⟨(balance steps).toNat, some 0, Call.opened (invocations steps) s⟩] else [] := by
  unfold callTable
  rw [map_filter_occurrences_append_singleton, List.map_map]
  congr 1
  refine List.map_congr_left fun o _ => ?_
  exact CallRow.ofOccurrence_widen s o

theorem mem_callTable {steps : List Step} {row : CallRow} :
    row ∈ callTable steps ↔ ∃ before s after, steps = before ++ s :: after ∧
      s.isInvocation = true ∧ row = CallRow.ofOccurrence ⟨before, s, after⟩ := by
  unfold callTable
  constructor
  · intro h
    obtain ⟨o, ho, rfl⟩ := List.mem_map.mp h
    obtain ⟨hmem, hinvocation⟩ := List.mem_filter.mp ho
    exact ⟨o.before, o.step, o.after, mem_occurrences.mp hmem, hinvocation, rfl⟩
  · rintro ⟨before, s, after, rfl, hinvocation, rfl⟩
    exact List.mem_map.mpr
      ⟨_, List.mem_filter.mpr ⟨mem_occurrences.mpr rfl, hinvocation⟩, rfl⟩

/-- The rows are numbered in their order. -/
theorem map_id_callTable (steps : List Step) :
    (callTable steps).map (fun row => row.call.id) = List.range (invocations steps) := by
  induction steps using List.reverseRecOn with
  | nil => rfl
  | append_singleton steps s ih =>
    have hid : (fun row : CallRow => row.call.id) ∘ CallRow.record s = fun row => row.call.id := by
      funext row
      unfold CallRow.record Call.note
      dsimp only [Function.comp]
      split <;> rfl
    rw [callTable_append_singleton, List.map_append, List.map_map, hid, ih,
      invocations_append_singleton]
    by_cases h : s.isInvocation = true
    · rw [if_pos h, if_pos h, List.range_succ]
      rfl
    · rw [if_neg h, if_neg h]
      exact List.append_nil _

/-! ## Events and calls at top level -/

/-- Invocations and returns. -/
def Step.isCallEvent (s : Step) : Bool := s.isInvocation || s.isReturn

theorem Step.isCallEvent_iff {s : Step} : s.isCallEvent = true ↔ s.weight ≠ 0 := by
  unfold isCallEvent
  rw [Bool.or_eq_true]
  constructor
  · rintro (hi | hr)
    · rw [weight_of_isInvocation hi]
      omega
    · rw [weight_of_isReturn hr]
      omega
  · intro hw
    rcases s.weight_cases with ⟨hi, -⟩ | ⟨hr, -⟩ | hzero
    · exact .inl hi
    · exact .inr hr
    · exact absurd hzero hw

theorem filter_isCallEvent_append_of_weight {steps : List Step} {s : Step} (hw : s.weight ≠ 0) :
    (steps ++ [s]).filter Step.isCallEvent = steps.filter Step.isCallEvent ++ [s] := by
  rw [List.filter_append, List.filter_cons_of_pos (Step.isCallEvent_iff.mpr hw), List.filter_nil]

theorem filter_isCallEvent_append_of_weight_eq_zero {steps : List Step} {s : Step}
    (hw : s.weight = 0) :
    (steps ++ [s]).filter Step.isCallEvent = steps.filter Step.isCallEvent := by
  rw [List.filter_append, List.filter_cons_of_neg fun h => Step.isCallEvent_iff.mp h hw,
    List.filter_nil, List.append_nil]

/-- The number of calls made while none was open. -/
def topLevelCalls (steps : List Step) : Nat :=
  (occurrences steps).countP fun o => o.step.isInvocation && decide (balance o.before = 0)

theorem topLevelCalls_append_singleton (steps : List Step) (s : Step) :
    topLevelCalls (steps ++ [s]) =
      topLevelCalls steps + if s.isInvocation && decide (balance steps = 0) then 1 else 0 := by
  unfold topLevelCalls
  rw [occurrences_append_singleton, List.countP_append, List.countP_map, List.countP_singleton]
  rfl

end Retrace
