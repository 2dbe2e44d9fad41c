import Retrace.Proofs.Window
import Retrace.Replay.Variables

/-!
# Completed calls and the variables of their caller

Variables are known by name. A call that has returned leaves its own variables behind; they are out of
sight where their scopes do not hold the caller's statement. But a name that the call introduces stands
for the call's variable from then on, and a variable of the caller with that name is out of sight too.
All other variables of the caller are what they were.

* `mem_distinct`, `nodup_distinct`, `distinct_append_singleton`, `exists_distinct_append`: the distinct
  members of a list, and of a longer one.
* `Variable.lastIntroduction?_append`, `Variable.lastAssignment?_append`: the later steps count first.
* `Variable.named?`: the variable that a name stands for; `current_eq_filterMap` gives all of them.
* `Variable.named?_append_of_not_mem`: steps that neither introduce a name nor assign to it do not
  change its variable.
* `SelfContainedCall`: a completed call that introduces its variables out of sight and assigns to no
  others.
* `Variable.visible_append_selfContainedCall`: what is visible after such a call.
-/

namespace Retrace

/-! ## Distinct members -/

section Distinct

variable {α : Type} [DecidableEq α] {x : α} {xs ys seen : List α}

theorem mem_foldl_noteMember : x ∈ xs.foldl noteMember seen ↔ x ∈ xs ∨ x ∈ seen := by
  induction xs generalizing seen with
  | nil => simp
  | cons y xs ih =>
    have hnote : x ∈ noteMember seen y ↔ x = y ∨ x ∈ seen := by
      unfold noteMember
      split
      · exact ⟨.inr, fun h => h.elim (fun heq => by rwa [heq]) id⟩
      · exact List.mem_cons
    rw [List.foldl_cons, ih, hnote, List.mem_cons, or_left_comm, or_assoc]

theorem mem_distinct : x ∈ distinct xs ↔ x ∈ xs := by
  unfold distinct
  rw [List.mem_reverse, mem_foldl_noteMember]
  simp

/-- One more member comes last, unless it is there already. -/
theorem distinct_append_singleton (xs : List α) (x : α) :
    distinct (xs ++ [x]) = if x ∈ distinct xs then distinct xs else distinct xs ++ [x] := by
  unfold distinct
  rw [List.foldl_append, List.foldl_cons, List.foldl_nil, noteMember]
  simp only [List.mem_reverse]
  split
  · rfl
  · rw [List.reverse_cons]

theorem nodup_distinct (xs : List α) : (distinct xs).Nodup := by
  induction xs using List.reverseRecOn with
  | nil => exact List.nodup_nil
  | append_singleton xs x ih =>
    rw [distinct_append_singleton]
    split
    · exact ih
    · next hnew =>
      refine List.nodup_append.mpr ⟨ih, List.pairwise_singleton _ x, fun y hy z hz heq => hnew ?_⟩
      rwa [← List.mem_singleton.mp hz, ← heq]

/-- A longer list has the distinct members of its beginning first. -/
theorem exists_distinct_append (xs ys : List α) :
    ∃ added, distinct (xs ++ ys) = distinct xs ++ added ∧ ∀ y ∈ added, y ∈ ys := by
  induction ys using List.reverseRecOn with
  | nil => exact ⟨[], by simp, fun y hy => hy⟩
  | append_singleton ys y ih =>
    obtain ⟨added, hadded, hmem⟩ := ih
    rw [← List.append_assoc, distinct_append_singleton]
    split
    · exact ⟨added, hadded, fun z hz => List.mem_append_left [y] (hmem z hz)⟩
    · refine ⟨added ++ [y], by rw [hadded, List.append_assoc], fun z hz => ?_⟩
      exact (List.mem_append.mp hz).elim (fun hz => List.mem_append_left [y] (hmem z hz))
        (List.mem_append_right ys)

end Distinct

namespace Variable

variable {name : String} {s : Step}

/-! ## Names and what they stand for -/

theorem mem_introducedNames {steps : List Step} :
    name ∈ introducedNames steps ↔ ∃ s ∈ steps, introduced? s = some name := by
  unfold introducedNames
  rw [mem_distinct, List.mem_filterMap]

/-- A step that introduces a name has it for its identifier. -/
theorem introducesVariable_of_introduced? (h : introduced? s = some name) :
    s.introducesVariable = true ∧ s.identifier = some name :=
  Option.ite_none_right_eq_some.mp h

theorem lastIntroduction?_append (name : String) (p b : List Step) :
    lastIntroduction? name (p ++ b) = (lastIntroduction? name b).or
      ((lastIntroduction? name p).map fun (introduction, later) => (introduction, later ++ b)) := by
  induction p with
  | nil => simp [lastIntroduction?]
  | cons s p ih =>
    rw [List.cons_append, lastIntroduction?, lastIntroduction?, ih, Option.or_assoc, Option.map_or]
    split <;> rfl

theorem of_lastIntroduction? {steps later : List Step}
    (h : lastIntroduction? name steps = some (s, later)) : s ∈ steps ∧ introduced? s = some name := by
  induction steps with
  | nil => cases h
  | cons t steps ih =>
    rw [lastIntroduction?, Option.or_eq_some_iff] at h
    rcases h with h | ⟨-, h⟩
    · exact ⟨List.mem_cons_of_mem t (ih h).1, (ih h).2⟩
    · obtain ⟨hname, h⟩ := Option.ite_none_right_eq_some.mp h
      obtain ⟨rfl, -⟩ := Prod.mk.inj (Option.some.inj h)
      exact ⟨List.mem_cons_self, hname⟩

theorem lastIntroduction?_eq_none_iff {steps : List Step} :
    lastIntroduction? name steps = none ↔ name ∉ introducedNames steps := by
  rw [mem_introducedNames]
  induction steps with
  | nil => simp [lastIntroduction?]
  | cons s steps ih =>
    rw [lastIntroduction?, Option.or_eq_none_iff, ih]
    by_cases h : introduced? s = some name <;> simp [h]

theorem lastAssignment?_append (name : String) (p b : List Step) :
    lastAssignment? name (p ++ b) = (lastAssignment? name b).or (lastAssignment? name p) := by
  induction p with
  | nil => simp [lastAssignment?]
  | cons s p ih => rw [List.cons_append, lastAssignment?, lastAssignment?, ih, Option.or_assoc]

theorem of_lastAssignment? {steps : List Step} (h : lastAssignment? name steps = some s) :
    s ∈ steps ∧ s.isAssignment = true ∧ s.identifier = some name := by
  induction steps with
  | nil => cases h
  | cons t steps ih =>
    rw [lastAssignment?, Option.or_eq_some_iff] at h
    rcases h with h | ⟨-, h⟩
    · exact ⟨List.mem_cons_of_mem t (ih h).1, (ih h).2⟩
    · obtain ⟨hassigns, h⟩ := Option.ite_none_right_eq_some.mp h
      obtain rfl := Option.some.inj h
      exact ⟨List.mem_cons_self, hassigns⟩

/-- The variable that a name stands for at the end of a list of steps. -/
def named? (steps : List Step) (name : String) : Option Variable :=
  (lastIntroduction? name steps).map fun (introduction, later) =>
    ofIntroduction name introduction later

theorem current_eq_filterMap (steps : List Step) :
    current steps = (introducedNames steps).filterMap (named? steps) := rfl

theorem identifier_of_named? {steps : List Step} {v : Variable} (h : named? steps name = some v) :
    v.identifier = name := by
  obtain ⟨_, -, rfl⟩ := Option.map_eq_some_iff.mp h
  rfl

/-- Steps that neither introduce a name nor assign to it leave its variable alone. -/
theorem named?_append_of_not_mem {p b : List Step} (hintroduced : name ∉ introducedNames b)
    (hassigned : lastAssignment? name b = none) : named? (p ++ b) name = named? p name := by
  unfold named?
  rw [lastIntroduction?_append, lastIntroduction?_eq_none_iff.mpr hintroduced, Option.none_or,
    Option.map_map]
  congr 1
  funext ⟨introduction, later⟩
  simp [ofIntroduction, lastAssignment?_append, hassigned]

/-- A name that later steps introduce stands for a variable of theirs. -/
theorem exists_named?_append {p b : List Step} (h : name ∈ introducedNames b) :
    ∃ s ∈ b, introduced? s = some name ∧ ∃ v, named? (p ++ b) name = some v ∧ v.scope = s.scope := by
  cases hlast : lastIntroduction? name b with
  | none => exact absurd h (lastIntroduction?_eq_none_iff.mp hlast)
  | some found =>
    obtain ⟨s, later⟩ := found
    obtain ⟨hs, hname⟩ := of_lastIntroduction? hlast
    refine ⟨s, hs, hname, ofIntroduction name s later, ?_, rfl⟩
    rw [named?, lastIntroduction?_append, hlast]
    rfl

end Variable

/-! ## Calls that keep to themselves -/

/-- A completed call whose variables are out of sight in a range: each comes with a scope that does not
hold the range, and what is assigned to was introduced in the call before. -/
structure SelfContainedCall (r : SourceRange) (b : List Step) : Prop where
  completed : CompletedCall b
  scopes : ∀ s ∈ b, s.introducesVariable = true →
    ∃ scope, s.scope = some scope ∧ scope.contains r = false
  assigns : ∀ o ∈ occurrences b, o.step.isAssignment = true →
    ∃ name ∈ Variable.introducedNames o.before, o.step.identifier = some name

namespace SelfContainedCall

variable {r : SourceRange} {p b : List Step} {name : String}

theorem lastAssignment?_eq_none (hb : SelfContainedCall r b)
    (h : name ∉ Variable.introducedNames b) : Variable.lastAssignment? name b = none := by
  cases hlast : Variable.lastAssignment? name b with
  | none => rfl
  | some s =>
    obtain ⟨hs, hassigns, hname⟩ := Variable.of_lastAssignment? hlast
    obtain ⟨before, after, rfl⟩ := List.append_of_mem hs
    obtain ⟨own, hown, hidentifier⟩ := hb.assigns ⟨before, s, after⟩ (mem_occurrences.mpr rfl) hassigns
    obtain rfl := Option.some.inj (hname.symm.trans hidentifier)
    obtain ⟨t, ht, hintroduced⟩ := Variable.mem_introducedNames.mp hown
    exact absurd (Variable.mem_introducedNames.mpr ⟨t, List.mem_append_left _ ht, hintroduced⟩) h

/-- After the call a name stands for what it stood for, unless the call has introduced it. -/
theorem named?_append (hb : SelfContainedCall r b) (h : name ∉ Variable.introducedNames b) :
    Variable.named? (p ++ b) name = Variable.named? p name :=
  Variable.named?_append_of_not_mem h (hb.lastAssignment?_eq_none h)

/-- A name that the call has introduced stands for nothing visible. -/
theorem filter_named?_append (hb : SelfContainedCall r b) (h : name ∈ Variable.introducedNames b) :
    (Variable.named? (p ++ b) name).filter (Variable.isVisibleIn r) = none := by
  obtain ⟨s, hs, hname, v, hv, hscope⟩ := Variable.exists_named?_append (p := p) h
  obtain ⟨scope, hout, hcontains⟩ :=
    hb.scopes s hs (Variable.introducesVariable_of_introduced? hname).1
  rw [hv, Option.filter_some, if_neg]
  rw [Variable.isVisibleIn, hscope, hout]
  exact ne_true_of_eq_false hcontains

/-- What is visible under a name after the call. -/
theorem filter_named?_append_eq (hb : SelfContainedCall r b) (name : String) :
    (Variable.named? (p ++ b) name).filter (Variable.isVisibleIn r) =
      ((Variable.named? p name).filter (Variable.isVisibleIn r)).filter
        fun v => v.identifier ∉ Variable.introducedNames b := by
  have hname : ∀ v, (Variable.named? p name).filter (Variable.isVisibleIn r) = some v →
      v.identifier = name := fun v hv =>
    Variable.identifier_of_named? (Option.filter_eq_some_iff.mp hv).1
  by_cases h : name ∈ Variable.introducedNames b
  · rw [hb.filter_named?_append h]
    refine (Option.filter_eq_none_iff.mpr fun v hv => ?_).symm
    simp [hname v hv, h]
  · rw [hb.named?_append h]
    cases hv : (Variable.named? p name).filter (Variable.isVisibleIn r) with
    | none => rfl
    | some v =>
      have hkept : v.identifier ∉ Variable.introducedNames b := by rwa [hname v hv]
      rw [Option.filter_some, if_pos (decide_eq_true hkept)]

/-- What is visible in the range after the call: what was visible before, less what has a name that the
call introduces. -/
theorem visible_append (hb : SelfContainedCall r b) :
    Variable.visible (p ++ b) (some r) =
      (Variable.visible p (some r)).filter
        fun v => v.identifier ∉ Variable.introducedNames b := by
  unfold Variable.visible
  dsimp only
  rw [Variable.current_eq_filterMap, Variable.current_eq_filterMap, List.filter_filterMap,
    List.filter_filterMap, List.filter_filterMap]
  simp only [hb.filter_named?_append_eq]
  -- the names that the call adds contribute nothing, as it has introduced them
  obtain ⟨added, hadded, hmem⟩ :=
    exists_distinct_append (p.filterMap Variable.introduced?) (b.filterMap Variable.introduced?)
  have hnames : Variable.introducedNames (p ++ b) = Variable.introducedNames p ++ added := by
    rw [Variable.introducedNames, List.filterMap_append, hadded]
    rfl
  have hhidden : ∀ name ∈ added,
      ((Variable.named? p name).filter (Variable.isVisibleIn r)).filter
        (fun v => v.identifier ∉ Variable.introducedNames b) = none := fun name hname => by
    rw [← hb.filter_named?_append_eq]
    exact hb.filter_named?_append (mem_distinct.mpr (hmem name hname))
  rw [hnames, List.filterMap_append, List.filterMap_eq_nil_iff.mpr hhidden, List.append_nil]

end SelfContainedCall

/-- **A completed call hides just the variables of its caller that it has names for.** When the current
statement has a range, and a call that keeps its own variables out of sight there has returned, the
statement's range is in force again. Visible in it are the variables that were visible before, with the
same types and values and in the same order, less those with a name that the call has introduced. So
nothing has changed exactly when the call introduces none of the visible names. -/
theorem Variable.visible_append_selfContainedCall {p b : List Step} {r : SourceRange}
    (hp : (currentStatement? p).bind Step.range = some r) (hb : SelfContainedCall r b) :
    activeRange? (p ++ b) = some r ∧
    visible (p ++ b) (some r) =
      (visible p (some r)).filter (fun v => v.identifier ∉ introducedNames b) ∧
    (visible (p ++ b) (some r) = visible p (some r) ↔
      ∀ v ∈ visible p (some r), v.identifier ∉ introducedNames b) := by
  refine ⟨?_, hb.visible_append, ?_⟩
  · have hwindow : statementWindow (p ++ b) = statementWindow p := by
      have h := statementWindow_completedCall p [] hb.completed
      rwa [List.append_nil, List.append_nil] at h
    obtain ⟨statement, hstatement, hrange⟩ := Option.bind_eq_some_iff.mp hp
    rw [activeRange?_congr hwindow, activeRange?, hstatement]
    exact hrange
  · rw [hb.visible_append, List.filter_eq_self]
    simp only [decide_eq_true_eq]

/-- A statement of a function's body, and two variables of that body. -/
def callerSteps : List Step :=
  [{ action := .statement, range := some ⟨⟨6, 3⟩, ⟨6, 20⟩⟩ },
    { action := .declaration, identifier := some "n", value := some ⟨"int", .int 1⟩,
      scope := some ⟨⟨4, 12⟩, ⟨7, 2⟩⟩ },
    { action := .declaration, identifier := some "y", value := some ⟨"int", .int 2⟩,
      scope := some ⟨⟨4, 12⟩, ⟨7, 2⟩⟩ }]

/-- A call of another function, which has a parameter of the name of the first and assigns to it. -/
def calleeSteps : List Step :=
  [{ action := .invocation, identifier := some "square" },
    { action := .parameter, identifier := some "n", value := some ⟨"int", .int 3⟩,
      scope := some ⟨⟨1, 19⟩, ⟨3, 2⟩⟩ },
    { action := .assignment, identifier := some "n", value := some ⟨"int", .int 9⟩ },
    { action := .ret }]

theorem selfContainedCall_calleeSteps : SelfContainedCall ⟨⟨6, 3⟩, ⟨6, 20⟩⟩ calleeSteps where
  completed := completedCall_of_balanced rfl rfl
    (show Balanced calleeSteps.tail.dropLast by decide)
  scopes := by decide
  assigns := by decide

/-- After the call the caller's variable of that name is out of sight, and the other is as it was. -/
theorem visible_callerSteps_append_calleeSteps :
    (currentStatement? callerSteps).bind Step.range = some ⟨⟨6, 3⟩, ⟨6, 20⟩⟩ ∧
    SelfContainedCall ⟨⟨6, 3⟩, ⟨6, 20⟩⟩ calleeSteps ∧
    activeRange? (callerSteps ++ calleeSteps) = some ⟨⟨6, 3⟩, ⟨6, 20⟩⟩ ∧
    Variable.visible (callerSteps ++ calleeSteps) (some ⟨⟨6, 3⟩, ⟨6, 20⟩⟩) =
      [⟨"y", "int", some (.int 2), some ⟨⟨4, 12⟩, ⟨7, 2⟩⟩⟩] := by
  have hstatement : (currentStatement? callerSteps).bind Step.range =
      some ⟨⟨6, 3⟩, ⟨6, 20⟩⟩ := by decide
  obtain ⟨hactive, hvisible, -⟩ :=
    Variable.visible_append_selfContainedCall hstatement selfContainedCall_calleeSteps
  exact ⟨hstatement, selfContainedCall_calleeSteps, hactive, hvisible.trans (by decide +kernel)⟩

/-- So a call can disturb the visible variables of its caller, though its own are out of sight and it
assigns to no others: both of the caller's were visible before it. -/
theorem selfContainedCall_hides_sameName :
    (currentStatement? callerSteps).bind Step.range = some ⟨⟨6, 3⟩, ⟨6, 20⟩⟩ ∧
    SelfContainedCall ⟨⟨6, 3⟩, ⟨6, 20⟩⟩ calleeSteps ∧
    (Variable.visible callerSteps (some ⟨⟨6, 3⟩, ⟨6, 20⟩⟩)).map Variable.identifier = ["n", "y"] ∧
    Variable.visible (callerSteps ++ calleeSteps) (some ⟨⟨6, 3⟩, ⟨6, 20⟩⟩) ≠
      Variable.visible callerSteps (some ⟨⟨6, 3⟩, ⟨6, 20⟩⟩) :=
  ⟨by decide, selfContainedCall_calleeSteps, by decide +kernel, by decide +kernel⟩

end Retrace
