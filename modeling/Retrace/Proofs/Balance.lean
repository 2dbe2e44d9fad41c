import Mathlib.Data.List.Infix
import Retrace.Step

/-!
# Calls and their returns

A list of steps opens calls by its invocations and closes them by its returns, the last opened first.
Which return belongs to which invocation shows in the balance of the steps between them.

* `balance`: the number of invocations less the number of returns.
* `ReturnsWithin`: with some calls open before the list, no return in it is one too many.
* `Balanced`: every call made in the list returns in it, and nothing else does.
* `CompletedCall`: an invocation and all steps to the return that matches it;
  `completedCall_iff` gives it as a balanced body between the two.
* `occurrences`: the steps of a list in their places.
-/

namespace Retrace

/-! ## Balance -/

/-- The number of invocations among steps. -/
def invocations (steps : List Step) : Nat := steps.countP Step.isInvocation

/-- The number of returns among steps. -/
def returns (steps : List Step) : Nat := steps.countP Step.isReturn

/-- How many more calls steps open than they close. -/
def balance (steps : List Step) : Int := invocations steps - returns steps

/-- What a step adds to the balance. -/
def Step.weight (s : Step) : Int := if s.isInvocation then 1 else if s.isReturn then -1 else 0

theorem Step.isReturn_of_isInvocation {s : Step} (h : s.isInvocation = true) :
    s.isReturn = false := by
  unfold isInvocation at h
  unfold isReturn
  rw [beq_iff_eq.mp h]
  rfl

theorem Step.weight_of_isInvocation {s : Step} (h : s.isInvocation = true) : s.weight = 1 := by
  rw [weight, if_pos h]

theorem Step.not_isInvocation_of_isReturn {s : Step} (h : s.isReturn = true) :
    ¬ s.isInvocation = true := fun hi => by
  rw [isReturn_of_isInvocation hi] at h
  exact Bool.noConfusion h

theorem Step.weight_of_isReturn {s : Step} (h : s.isReturn = true) : s.weight = -1 := by
  rw [weight, if_neg (not_isInvocation_of_isReturn h), if_pos h]

theorem Step.weight_of_isParameter {s : Step} (h : s.isParameter = true) : s.weight = 0 := by
  unfold isParameter at h
  unfold weight isInvocation isReturn
  rw [beq_iff_eq.mp h]
  rfl

theorem Step.not_isParameter_of_isReturn {s : Step} (h : s.isReturn = true) :
    ¬ s.isParameter = true := fun hp => by
  have hr := weight_of_isReturn h
  rw [weight_of_isParameter hp] at hr
  omega

theorem Step.not_isInvocation_of_weight {s : Step} (h : s.weight = 0) : ¬ s.isInvocation = true :=
  fun hi => by
    rw [weight_of_isInvocation hi] at h
    omega

theorem Step.not_isReturn_of_weight {s : Step} (h : s.weight = 0) : ¬ s.isReturn = true :=
  fun hr => by
    rw [weight_of_isReturn hr] at h
    omega

/-- A step opens a call, closes one or does neither. -/
theorem Step.weight_cases (s : Step) :
    s.isInvocation = true ∧ s.weight = 1 ∨ s.isReturn = true ∧ s.weight = -1 ∨ s.weight = 0 := by
  by_cases hi : s.isInvocation = true
  · exact .inl ⟨hi, weight_of_isInvocation hi⟩
  · by_cases hr : s.isReturn = true
    · exact .inr (.inl ⟨hr, weight_of_isReturn hr⟩)
    · exact .inr (.inr (by rw [weight, if_neg hi, if_neg hr]))

theorem Step.neg_one_le_weight (s : Step) : -1 ≤ s.weight := by
  rcases s.weight_cases with ⟨-, hw⟩ | ⟨-, hw⟩ | hw <;> omega

theorem Step.isReturn_of_weight {s : Step} (h : s.weight = -1) : s.isReturn = true := by
  rcases s.weight_cases with ⟨-, hw⟩ | ⟨hr, -⟩ | hw
  · omega
  · exact hr
  · omega

theorem invocations_append (p q : List Step) :
    invocations (p ++ q) = invocations p + invocations q :=
  List.countP_append

theorem invocations_append_singleton (p : List Step) (s : Step) :
    invocations (p ++ [s]) = invocations p + if s.isInvocation then 1 else 0 := by
  rw [invocations_append]
  congr 1
  exact List.countP_singleton

theorem balance_nil : balance [] = 0 := rfl

theorem balance_append (p q : List Step) : balance (p ++ q) = balance p + balance q := by
  unfold balance invocations returns
  rw [List.countP_append, List.countP_append]
  omega

theorem balance_singleton (s : Step) : balance [s] = s.weight := by
  unfold balance invocations returns Step.weight
  rw [List.countP_singleton, List.countP_singleton]
  by_cases hi : s.isInvocation = true
  · simp [hi, Step.isReturn_of_isInvocation hi]
  · by_cases hr : s.isReturn = true <;> simp [hi, hr]

theorem balance_append_singleton (p : List Step) (s : Step) :
    balance (p ++ [s]) = balance p + s.weight := by
  rw [balance_append, balance_singleton]

theorem balance_cons (s : Step) (steps : List Step) :
    balance (s :: steps) = s.weight + balance steps := by
  rw [← List.singleton_append, balance_append, balance_singleton]

/-! ## Matched returns -/

/-- With `depth` calls open before the list, every return in it closes some call. -/
def ReturnsWithin (depth : Int) (steps : List Step) : Prop :=
  ∀ q, q <+: steps → 0 ≤ depth + balance q

/-- Every return in the list closes a call made in it. -/
def ReturnsMatched (steps : List Step) : Prop := ∀ q, q <+: steps → 0 ≤ balance q

instance (steps : List Step) : Decidable (ReturnsMatched steps) :=
  decidable_of_iff (∀ q ∈ steps.inits, 0 ≤ balance q)
    (forall_congr' fun q => by rw [List.mem_inits])

theorem returnsWithin_zero {steps : List Step} :
    ReturnsWithin 0 steps ↔ ReturnsMatched steps := by
  unfold ReturnsWithin ReturnsMatched
  simp only [Int.zero_add]

theorem returnsWithin_append {depth : Int} {p q : List Step} :
    ReturnsWithin depth (p ++ q) ↔ ReturnsWithin depth p ∧ ReturnsWithin (depth + balance p) q := by
  constructor
  · intro h
    refine ⟨fun c hc => h c (hc.trans (List.prefix_append p q)), fun c hc => ?_⟩
    have := h (p ++ c) ((List.prefix_append_right_inj p).mpr hc)
    rw [balance_append] at this
    omega
  · rintro ⟨hp, hq⟩ c hc
    rcases List.prefix_or_prefix_of_prefix hc (List.prefix_append p q) with hcp | ⟨c', rfl⟩
    · exact hp c hcp
    · have := hq c' ((List.prefix_append_right_inj p).mp hc)
      rw [balance_append]
      omega

theorem returnsWithin_singleton {depth : Int} {s : Step} :
    ReturnsWithin depth [s] ↔ 0 ≤ depth ∧ 0 ≤ depth + s.weight := by
  constructor
  · intro h
    have hnil := h [] List.nil_prefix
    have hs := h [s] List.prefix_rfl
    rw [balance_nil] at hnil
    rw [balance_singleton] at hs
    exact ⟨by omega, hs⟩
  · rintro ⟨h0, hs⟩ q hq
    rcases List.prefix_cons_iff.mp hq with rfl | ⟨t, rfl, ht⟩
    · rw [balance_nil]
      omega
    · rw [List.prefix_nil.mp ht, balance_singleton]
      exact hs

theorem returnsWithin_cons {depth : Int} {s : Step} {steps : List Step} :
    ReturnsWithin depth (s :: steps) ↔ 0 ≤ depth ∧ ReturnsWithin (depth + s.weight) steps := by
  rw [← List.singleton_append, returnsWithin_append, returnsWithin_singleton, balance_singleton]
  constructor
  · rintro ⟨⟨h0, -⟩, h⟩
    exact ⟨h0, h⟩
  · rintro ⟨h0, h⟩
    have := h [] List.nil_prefix
    rw [balance_nil] at this
    exact ⟨⟨h0, by omega⟩, h⟩

theorem returnsMatched_append_singleton {p : List Step} {s : Step} :
    ReturnsMatched (p ++ [s]) ↔ ReturnsMatched p ∧ 0 ≤ balance p + s.weight := by
  rw [← returnsWithin_zero, ← returnsWithin_zero, returnsWithin_append, returnsWithin_singleton]
  constructor
  · rintro ⟨hp, -, hs⟩
    exact ⟨hp, by omega⟩
  · rintro ⟨hp, hs⟩
    have := hp p List.prefix_rfl
    exact ⟨hp, by omega, by omega⟩

/-- Position `i` ends the shortest prefix with more returns than invocations. -/
def FirstExcess (steps : List Step) (i : Nat) : Prop :=
  ∃ q s rest, steps = q ++ s :: rest ∧ q.length = i ∧ balance (q ++ [s]) < 0 ∧ ReturnsMatched q

/-- When some return is one too many, there is a first one. -/
theorem returnsMatched_or_firstExcess (steps : List Step) :
    ReturnsMatched steps ∨ ∃ i, FirstExcess steps i := by
  induction steps using List.reverseRecOn with
  | nil =>
    refine .inl fun q hq => ?_
    obtain rfl := List.prefix_nil.mp hq
    exact Int.le_refl 0
  | append_singleton steps s ih =>
    rcases ih with hmatched | ⟨i, q, r, rest, rfl, hq⟩
    · by_cases hs : 0 ≤ balance steps + s.weight
      · exact .inl (returnsMatched_append_singleton.mpr ⟨hmatched, hs⟩)
      · refine .inr ⟨steps.length, steps, s, [], rfl, rfl, ?_, hmatched⟩
        rw [balance_append_singleton]
        omega
    · exact .inr ⟨i, q, r, rest ++ [s], by rw [List.append_assoc, List.cons_append], hq⟩

/-- Every call made in the list returns in it, and nothing else does. -/
structure Balanced (steps : List Step) : Prop where
  matched : ReturnsMatched steps
  closed : balance steps = 0

instance (steps : List Step) : Decidable (Balanced steps) :=
  decidable_of_iff (ReturnsMatched steps ∧ balance steps = 0)
    ⟨fun ⟨h, h'⟩ => ⟨h, h'⟩, fun ⟨h, h'⟩ => ⟨h, h'⟩⟩

/-! ## Completed calls -/

/-- An invocation and all steps up to the return that matches it, which is where the balance is even
for the first time. -/
structure CompletedCall (b : List Step) : Prop where
  opens : ∃ s rest, b = s :: rest ∧ s.isInvocation = true
  closes : balance b = 0
  first : ∀ c, c <+: b → c ≠ [] → c ≠ b → balance c ≠ 0

/-- Until its last step a completed call is open: the balance starts at one, falls by at most one a step
and is even only at the end. -/
theorem CompletedCall.one_le_balance {s r : Step} {body : List Step}
    (h : CompletedCall (s :: (body ++ [r]))) (hs : s.isInvocation = true) {c : List Step}
    (hc : c <+: body) : 1 ≤ balance (s :: c) := by
  induction c using List.reverseRecOn with
  | nil =>
    have hweight := Step.weight_of_isInvocation hs
    rw [balance_singleton]
    omega
  | append_singleton c x ih =>
    have hprev := ih ((List.prefix_append c [x]).trans hc)
    have hcx : s :: (c ++ [x]) <+: s :: (body ++ [r]) :=
      (List.prefix_cons_inj s).mpr (hc.trans (List.prefix_append body [r]))
    have hne : s :: (c ++ [x]) ≠ s :: (body ++ [r]) := by
      intro heq
      have hlen := hc.length_le
      have := congrArg List.length heq
      simp only [List.length_cons, List.length_append] at this hlen
      omega
    have hodd := h.first _ hcx (List.cons_ne_nil _ _) hne
    have hx := x.neg_one_le_weight
    rw [← List.cons_append, balance_append_singleton] at hodd ⊢
    omega

theorem completedCall_of_balanced {s r : Step} {body : List Step} (hs : s.isInvocation = true)
    (hr : r.isReturn = true) (h : Balanced body) : CompletedCall (s :: (body ++ [r])) := by
  have hweight := Step.weight_of_isInvocation hs
  refine ⟨⟨s, _, rfl, hs⟩, ?_, fun c hc hnil hne => ?_⟩
  · rw [balance_cons, balance_append_singleton, h.closed, Step.weight_of_isReturn hr, hweight]
    rfl
  · rcases List.prefix_cons_iff.mp hc with rfl | ⟨c', rfl, hc'⟩
    · exact absurd rfl hnil
    · rcases List.prefix_concat_iff.mp hc' with rfl | hc'
      · exact absurd rfl hne
      · have := h.matched c' hc'
        rw [balance_cons]
        omega

/-- **A completed call is an invocation, a balanced body and a return.** -/
theorem completedCall_iff {b : List Step} :
    CompletedCall b ↔ ∃ s body r, b = s :: (body ++ [r]) ∧ s.isInvocation = true ∧
      r.isReturn = true ∧ Balanced body := by
  constructor
  · intro h
    obtain ⟨s, rest, rfl, hs⟩ := h.opens
    have hweight := Step.weight_of_isInvocation hs
    have hcloses := h.closes
    rcases List.eq_nil_or_concat rest with rfl | ⟨body, r, rfl⟩
    · rw [balance_singleton] at hcloses
      omega
    · rw [List.concat_eq_append] at h hcloses ⊢
      have hbody := h.one_le_balance hs List.prefix_rfl
      have hr := r.neg_one_le_weight
      rw [balance_cons] at hbody
      rw [balance_cons, balance_append_singleton] at hcloses
      refine ⟨s, body, r, rfl, hs, Step.isReturn_of_weight (by omega), fun c hc => ?_, by omega⟩
      have := h.one_le_balance hs hc
      rw [balance_cons] at this
      omega
  · rintro ⟨s, body, r, rfl, hs, hr, hbody⟩
    exact completedCall_of_balanced hs hr hbody

/-! ## Steps in their places -/

/-- A step of a list with the steps before it and after it. -/
structure Occurrence where
  before : List Step
  step : Step
  after : List Step

/-- The same step once another one is recorded. -/
def Occurrence.widen (s : Step) (o : Occurrence) : Occurrence := { o with after := o.after ++ [s] }

/-- The steps of a list in their places when other steps come before the list. -/
def occurrencesFrom (before : List Step) : List Step → List Occurrence
  | [] => []
  | s :: after => ⟨before, s, after⟩ :: occurrencesFrom (before ++ [s]) after

/-- The steps of a list in their places. -/
def occurrences (steps : List Step) : List Occurrence := occurrencesFrom [] steps

theorem occurrences_append_singleton (steps : List Step) (s : Step) :
    occurrences (steps ++ [s]) = (occurrences steps).map (Occurrence.widen s) ++ [⟨steps, s, []⟩] := by
  suffices key : ∀ before, occurrencesFrom before (steps ++ [s]) =
      (occurrencesFrom before steps).map (Occurrence.widen s) ++ [⟨before ++ steps, s, []⟩] from key []
  induction steps with
  | nil =>
    intro before
    rw [List.append_nil]
    rfl
  | cons t steps ih =>
    intro before
    rw [List.cons_append, occurrencesFrom, occurrencesFrom, ih, List.append_assoc,
      List.singleton_append, List.map_cons, List.cons_append]
    rfl

theorem map_filter_occurrences_append_singleton {β : Type} (keep : Occurrence → Bool)
    (f : Occurrence → β) (steps : List Step) (s : Step) :
    ((occurrences (steps ++ [s])).filter keep).map f =
      ((occurrences steps).filter (keep ∘ Occurrence.widen s)).map (f ∘ Occurrence.widen s) ++
        if keep ⟨steps, s, []⟩ then [f ⟨steps, s, []⟩] else [] := by
  rw [occurrences_append_singleton, List.filter_append, List.map_append, List.filter_map,
    List.map_map]
  congr 1
  by_cases h : keep ⟨steps, s, []⟩ = true
  · rw [if_pos h, List.filter_cons_of_pos h]
    rfl
  · rw [if_neg h, List.filter_cons_of_neg h]
    rfl

theorem map_step_occurrences (steps : List Step) :
    (occurrences steps).map Occurrence.step = steps := by
  suffices key : ∀ before, (occurrencesFrom before steps).map Occurrence.step = steps from key []
  induction steps with
  | nil => exact fun _ => rfl
  | cons s steps ih =>
    intro before
    rw [occurrencesFrom, List.map_cons, ih]

theorem mem_occurrencesFrom {before steps : List Step} {o : Occurrence} :
    o ∈ occurrencesFrom before steps ↔
      ∃ between, o.before = before ++ between ∧ steps = between ++ o.step :: o.after := by
  induction steps generalizing before with
  | nil =>
    rw [occurrencesFrom]
    refine ⟨fun h => absurd h List.not_mem_nil, ?_⟩
    rintro ⟨between, -, h⟩
    cases between <;> cases h
  | cons s steps ih =>
    rw [occurrencesFrom, List.mem_cons, ih]
    constructor
    · rintro (rfl | ⟨between, hbefore, rfl⟩)
      · exact ⟨[], (List.append_nil before).symm, rfl⟩
      · exact ⟨s :: between, by rw [hbefore, List.append_assoc, List.singleton_append], rfl⟩
    · rintro ⟨between, hbefore, hsteps⟩
      cases between with
      | nil =>
        rw [List.append_nil] at hbefore
        obtain ⟨rfl, rfl⟩ := List.cons.inj hsteps
        exact .inl (by rw [← hbefore])
      | cons t between =>
        obtain ⟨rfl, rfl⟩ := List.cons.inj hsteps
        exact .inr ⟨between, by rw [hbefore, List.append_assoc, List.singleton_append], rfl⟩

/-- The places of a list are the ways to cut it at a step. -/
theorem mem_occurrences {steps : List Step} {o : Occurrence} :
    o ∈ occurrences steps ↔ steps = o.before ++ o.step :: o.after := by
  rw [occurrences, mem_occurrencesFrom]
  constructor
  · rintro ⟨between, hbefore, hsteps⟩
    rw [hbefore]
    exact hsteps
  · intro hsteps
    exact ⟨o.before, rfl, hsteps⟩

end Retrace
