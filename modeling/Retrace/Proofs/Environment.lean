import Retrace.Proofs.RecordedRanges
import Retrace.Proofs.Scoping

/-!
# Variables in one pass

The variables at the end of a run are found by looking back, for each name from its last introduction
on. They can also be had by looking forward once: an environment holds an entry for each name, in order
of first introduction; a step that introduces a name replaces the entry or adds one, and an assignment
to a name that has an entry replaces its value. The two agree when assignments carry values, as they do
in loaded and in recorded traces. An assignment without a value, which no such trace has, would bring
back the value that the variable was introduced with.

* `Variable.pass`: what one step does to an environment.
* `Variable.current_append_singleton`, `Variable.current_eq_foldl_pass`: looking back and looking
  forward agree, after one more step and after all.
* `Variable.pairwise_introducedNames`: the order of the names.
* `Variable.LatestWrite`: the last step that introduces a name or assigns to it;
  `Variable.exists_latestWrite` says that its value is the one of the variable.
* `AssignsValues`: assignments carry values, in loaded traces and in recorded ones.
-/

namespace Retrace

/-- Every assignment carries a value. -/
def AssignsValues (steps : List Step) : Prop :=
  ∀ s ∈ steps, s.isAssignment = true → s.value.isSome = true

theorem AssignsValues.of_append {p b : List Step} (h : AssignsValues (p ++ b)) : AssignsValues p :=
  fun s hs => h s (List.mem_append_left b hs)

namespace Variable

/-! ## Environments -/

/-- The variable that a step introduces under a name. -/
def introducedBy (name : String) (s : Step) : Variable where
  identifier := name
  type := (s.value.map TypedValue.type).getD ""
  value := s.value.map TypedValue.value
  scope := s.scope

/-- An environment with the entry of a name changed, if there is one. -/
def change (name : String) (f : Variable → Variable) (env : List Variable) : List Variable :=
  env.map fun u => if u.identifier = name then f u else u

/-- An environment after a variable is introduced: it takes the place of the entry of its name, and
comes behind all others when there is none. -/
def introduce (v : Variable) (env : List Variable) : List Variable :=
  if v.identifier ∈ env.map identifier then change v.identifier (fun _ => v) env else env ++ [v]

/-- An environment after an assignment to a name: the entry of that name, if there is one, has a new
value. -/
def assign (name : String) (value : Option Value) (env : List Variable) : List Variable :=
  change name (fun u => { u with value := value }) env

/-- An environment after one more step. -/
def pass (env : List Variable) (s : Step) : List Variable :=
  match s.identifier with
  | none => env
  | some name =>
    if s.introducesVariable then introduce (introducedBy name s) env
    else if s.isAssignment then assign name (s.value.map TypedValue.value) env
    else env

/-- Whether a step introduces a name or assigns to it. -/
def Writes (s : Step) (name : String) : Prop :=
  introduced? s = some name ∨ (s.isAssignment = true ∧ s.identifier = some name)

variable {steps : List Step} {name : String} {s : Step}

theorem change_eq_self {env : List Variable} (h : name ∉ env.map identifier)
    (f : Variable → Variable) : change name f env = env := by
  refine (List.map_congr_left fun u hu => ?_).trans (List.map_id env)
  exact if_neg fun hname : u.identifier = name => h (hname ▸ List.mem_map_of_mem hu)

/-- A step writes to no name but its identifier. -/
theorem Writes.identifier_eq (h : Writes s name) : s.identifier = some name :=
  h.elim (fun h => (introducesVariable_of_introduced? h).2) And.right

/-! ## Names -/

theorem introducedNames_append_of_introduced? (h : introduced? s = some name) :
    introducedNames (steps ++ [s]) =
      if name ∈ introducedNames steps then introducedNames steps
      else introducedNames steps ++ [name] := by
  unfold introducedNames
  rw [List.filterMap_append, List.filterMap_cons_some h, List.filterMap_nil,
    distinct_append_singleton]

theorem introducedNames_append_of_none (h : introduced? s = none) :
    introducedNames (steps ++ [s]) = introducedNames steps := by
  unfold introducedNames
  rw [List.filterMap_append, List.filterMap_cons_none h, List.filterMap_nil, List.append_nil]

/-- The position of the first step that introduces a name. -/
def firstIntroduction (steps : List Step) (name : String) : Nat :=
  steps.findIdx fun s => introduced? s = some name

theorem firstIntroduction_lt_length :
    firstIntroduction steps name < steps.length ↔ name ∈ introducedNames steps := by
  rw [firstIntroduction, List.findIdx_lt_length, mem_introducedNames]
  simp only [decide_eq_true_eq]

theorem firstIntroduction_append (h : name ∈ introducedNames steps) (later : List Step) :
    firstIntroduction (steps ++ later) name = firstIntroduction steps name := by
  rw [firstIntroduction, List.findIdx_append]
  exact if_pos (firstIntroduction_lt_length.mpr h)

/-- Names come in the order of their first introductions. -/
theorem pairwise_introducedNames (steps : List Step) :
    (introducedNames steps).Pairwise fun a b =>
      firstIntroduction steps a < firstIntroduction steps b := by
  induction steps using List.reverseRecOn with
  | nil => exact List.Pairwise.nil
  | append_singleton steps s ih =>
    have hkept : (introducedNames steps).Pairwise fun a b =>
        firstIntroduction (steps ++ [s]) a < firstIntroduction (steps ++ [s]) b :=
      ih.imp_of_mem fun ha hb h => by
        rwa [firstIntroduction_append ha, firstIntroduction_append hb]
    cases hs : introduced? s with
    | none => rwa [introducedNames_append_of_none hs]
    | some name =>
      rw [introducedNames_append_of_introduced? hs]
      split
      · exact hkept
      · next hnew =>
        refine List.pairwise_append.mpr ⟨hkept, List.pairwise_singleton _ name, fun a ha b hb => ?_⟩
        -- the new name is first introduced by the new step, behind all others
        obtain rfl := List.mem_singleton.mp hb
        have hbehind : steps.length ≤ firstIntroduction (steps ++ [s]) b := by
          rw [firstIntroduction, List.findIdx_append]
          split
          · next hlt => exact absurd (firstIntroduction_lt_length.mp hlt) hnew
          · exact Nat.le_add_left _ _
        rw [firstIntroduction_append ha]
        exact (firstIntroduction_lt_length.mpr ha).trans_le hbehind

/-! ## One more step -/

theorem not_isAssignment_of_introduced? (h : introduced? s = some name) :
    ¬ s.isAssignment = true := by
  have hintroduces := (introducesVariable_of_introduced? h).1
  simp only [Step.introducesVariable, Step.isDeclaration, Step.isParameter, Bool.or_eq_true,
    beq_iff_eq] at hintroduces
  rcases hintroduces with h | h <;> simp [Step.isAssignment, h]

theorem introduced?_of_isAssignment (h : s.isAssignment = true) : introduced? s = none := by
  cases hs : introduced? s with
  | none => rfl
  | some name => exact absurd h (not_isAssignment_of_introduced? hs)

/-- A name stands for what a step introduces under it. -/
theorem named?_append_of_introduced? (h : introduced? s = some name) :
    named? (steps ++ [s]) name = some (introducedBy name s) := by
  rw [named?, lastIntroduction?_append]
  simp [lastIntroduction?, h, ofIntroduction, lastAssignment?, introducedBy]

/-- A name stands for the same variable, with the value that a step assigns to it. -/
theorem named?_append_of_assigns (h : s.isAssignment = true) (hname : s.identifier = some name)
    (hvalue : s.value.isSome = true) :
    named? (steps ++ [s]) name =
      (named? steps name).map fun v => { v with value := s.value.map TypedValue.value } := by
  obtain ⟨value, hvalue⟩ := Option.isSome_iff_exists.mp hvalue
  have hlast : lastAssignment? name [s] = some s := by
    simp [lastAssignment?, h, hname]
  have hnone : lastIntroduction? name [s] = none := by
    simp [lastIntroduction?, introduced?_of_isAssignment h]
  rw [named?, named?, lastIntroduction?_append, hnone, Option.none_or, Option.map_map,
    Option.map_map]
  refine Option.map_congr fun found _ => ?_
  simp [ofIntroduction, lastAssignment?_append, hlast, hvalue]

/-- A name that a step does not write to stands for what it stood for. -/
theorem named?_append_of_not_writes (h : ¬ Writes s name) :
    named? (steps ++ [s]) name = named? steps name := by
  obtain ⟨hintroduced, hassigned⟩ := not_or.mp h
  refine named?_append_of_not_mem ?_ ?_
  · rw [mem_introducedNames]
    simpa using hintroduced
  · simpa [lastAssignment?] using hassigned

theorem named?_eq_none_iff : named? steps name = none ↔ name ∉ introducedNames steps := by
  rw [named?, Option.map_eq_none_iff, lastIntroduction?_eq_none_iff]

theorem map_identifier_current (steps : List Step) :
    (current steps).map identifier = introducedNames steps := by
  rw [current_eq_filterMap, List.map_filterMap]
  refine (List.filterMap_congr fun name hname => ?_).trans List.filterMap_some
  cases hnamed : named? steps name with
  | none => exact absurd hname (named?_eq_none_iff.mp hnamed)
  | some v => rw [Option.map_some, identifier_of_named? hnamed]

theorem named?_of_mem_current {v : Variable} (h : v ∈ current steps) :
    named? steps v.identifier = some v := by
  rw [current_eq_filterMap, List.mem_filterMap] at h
  obtain ⟨name, -, hnamed⟩ := h
  rwa [identifier_of_named? hnamed]

/-- The names of before, after a step that writes to one of them at most: its entry is changed. -/
theorem filterMap_named?_append {f : Variable → Variable} (hname : s.identifier = some name)
    (hchanged : name ∈ introducedNames steps →
      named? (steps ++ [s]) name = (named? steps name).map f) :
    (introducedNames steps).filterMap (named? (steps ++ [s])) = change name f (current steps) := by
  rw [change, current_eq_filterMap, List.map_filterMap]
  refine List.filterMap_congr fun a ha => ?_
  obtain ⟨u, hu⟩ := Option.ne_none_iff_exists'.mp fun h => named?_eq_none_iff.mp h ha
  have hidentifier : u.identifier = a := identifier_of_named? hu
  rw [hu, Option.map_some]
  by_cases hsame : a = name
  · subst hsame
    rw [hchanged ha, hu, Option.map_some, if_pos hidentifier]
  · have hother : ¬ Writes s a := fun h =>
      hsame (Option.some.inj (h.identifier_eq.symm.trans hname))
    rw [named?_append_of_not_writes hother, hu, if_neg (hidentifier ▸ hsame)]

theorem current_append_of_introduced? (h : introduced? s = some name) :
    current (steps ++ [s]) = introduce (introducedBy name s) (current steps) := by
  have hreplaced : name ∈ introducedNames steps → named? (steps ++ [s]) name =
      (named? steps name).map fun _ => introducedBy name s := fun ha => by
    obtain ⟨u, hu⟩ := Option.ne_none_iff_exists'.mp fun h => named?_eq_none_iff.mp h ha
    rw [named?_append_of_introduced? h, hu, Option.map_some]
  have hkept := filterMap_named?_append (introducesVariable_of_introduced? h).2 hreplaced
  rw [introduce, map_identifier_current, current_eq_filterMap (steps ++ [s]),
    introducedNames_append_of_introduced? h]
  change _ = if name ∈ introducedNames steps then _ else _
  split
  · exact hkept
  · next hnew =>
    rw [List.filterMap_append, hkept, change_eq_self (by rwa [map_identifier_current])]
    simp [named?_append_of_introduced? h]

theorem current_append_of_assigns (h : s.isAssignment = true) (hname : s.identifier = some name)
    (hvalue : s.value.isSome = true) : current (steps ++ [s]) =
      assign name (s.value.map TypedValue.value) (current steps) := by
  rw [current_eq_filterMap,
    introducedNames_append_of_none (introduced?_of_isAssignment h)]
  exact filterMap_named?_append hname fun _ => named?_append_of_assigns h hname hvalue

/-- A step that writes to no name leaves all variables alone. -/
theorem current_append_of_not_writes (h : ∀ name, ¬ Writes s name) :
    current (steps ++ [s]) = current steps := by
  have hnone : introduced? s = none := by
    by_contra hsome
    obtain ⟨name, hname⟩ := Option.ne_none_iff_exists'.mp hsome
    exact h name (.inl hname)
  rw [current_eq_filterMap, introducedNames_append_of_none hnone]
  exact List.filterMap_congr fun name _ => named?_append_of_not_writes (h name)

/-- **Looking back over one more step is passing it on.** -/
theorem current_append_singleton (hvalue : s.isAssignment = true → s.value.isSome = true) :
    current (steps ++ [s]) = pass (current steps) s := by
  unfold pass
  cases hname : s.identifier with
  | none =>
    refine current_append_of_not_writes fun name h => ?_
    cases hname.symm.trans h.identifier_eq
  | some name =>
    dsimp only
    split
    · next hintroduces =>
      exact current_append_of_introduced? ((if_pos hintroduces).trans hname)
    · next hnot =>
      split
      · next hassigns => exact current_append_of_assigns hassigns hname (hvalue hassigns)
      · next hassigns =>
        refine current_append_of_not_writes fun other h => ?_
        rcases h with h | ⟨h, -⟩
        · exact hnot (introducesVariable_of_introduced? h).1
        · exact hassigns h

/-- **Looking back over all steps is passing them on one by one.** -/
theorem current_eq_foldl_pass (h : AssignsValues steps) : current steps = steps.foldl pass [] := by
  induction steps using List.reverseRecOn with
  | nil => rfl
  | append_singleton steps s ih =>
    rw [List.foldl_append, ← ih h.of_append, current_append_singleton (h s (by simp))]
    rfl

/-- An assignment without a value brings back the value of the declaration; a pass would forget it. -/
example :
    let steps : List Step :=
      [{ action := .declaration, identifier := some "x", value := some ⟨"int", .int 7⟩ },
        { action := .assignment, identifier := some "x" }]
    (current steps).map value = [some (.int 7)] ∧ (steps.foldl pass []).map value = [none] := by
  decide +kernel

/-! ## The latest write -/

/-- The last step that writes to a name, in its place. -/
structure LatestWrite (steps : List Step) (name : String) (o : Occurrence) : Prop where
  occurs : o ∈ occurrences steps
  writes : Writes o.step name
  latest : ∀ s ∈ o.after, ¬ Writes s name

theorem LatestWrite.last (h : Writes s name) : LatestWrite (steps ++ [s]) name ⟨steps, s, []⟩ where
  occurs := mem_occurrences.mpr rfl
  writes := h
  latest := fun _ hs => absurd hs List.not_mem_nil

theorem LatestWrite.widen {o : Occurrence} (h : LatestWrite steps name o) (hs : ¬ Writes s name) :
    LatestWrite (steps ++ [s]) name (o.widen s) where
  occurs := by
    rw [occurrences_append_singleton]
    exact List.mem_append_left _ (List.mem_map_of_mem h.occurs)
  writes := h.writes
  latest := fun t ht => (List.mem_append.mp ht).elim (h.latest t) fun ht => by
    rwa [List.mem_singleton.mp ht]

/-- **A variable has the value of the latest write to its name.** -/
theorem exists_latestWrite (h : AssignsValues steps) {v : Variable}
    (hv : named? steps name = some v) :
    ∃ o, LatestWrite steps name o ∧ v.value = o.step.value.map TypedValue.value := by
  induction steps using List.reverseRecOn generalizing v with
  | nil => cases hv
  | append_singleton steps s ih =>
    by_cases hwrites : Writes s name
    · refine ⟨_, .last hwrites, ?_⟩
      rcases hwrites with hintroduced | ⟨hassigns, hname⟩
      · obtain rfl := Option.some.inj ((named?_append_of_introduced? hintroduced).symm.trans hv)
        rfl
      · rw [named?_append_of_assigns hassigns hname (h s (by simp) hassigns)] at hv
        obtain ⟨u, -, rfl⟩ := Option.map_eq_some_iff.mp hv
        rfl
    · rw [named?_append_of_not_writes hwrites] at hv
      obtain ⟨o, ho, hvalue⟩ := ih h.of_append hv
      exact ⟨o.widen s, ho.widen hwrites, hvalue⟩

end Variable

/-! ## Where assignments carry values -/

theorem assignsValues_of_carriesValue {steps : List Step}
    (h : ∀ s ∈ steps, s.action.carriesValue = true → s.value.isSome = true) :
    AssignsValues steps := by
  intro s hs hassigns
  refine h s hs ?_
  rw [beq_iff_eq.mp hassigns]
  rfl

theorem Trace.assignsValues_of_ofText {text : String} {trace : Trace}
    (h : ofText text = .ok trace) : AssignsValues trace.steps := by
  unfold ofText at h
  split at h
  · cases h
  · next raw _ =>
    have hwell : raw.WellFormed := raw.exists_resolve_iff.mp ⟨trace, h⟩
    exact assignsValues_of_carriesValue fun s hs =>
      (RawTrace.loadedAs_of_resolve h).isSome_value hwell hs

/-- A recorded step has the value that its action calls for. -/
theorem Recorder.isSome_value_of_mem_performAll {limit : Nat} {requests : List Request}
    (hparsed : ∀ request ∈ requests, request.FromMetadata) {s : Step}
    (hs : s ∈ ((new limit).performAll requests).1.steps.toList)
    (hcarries : s.action.carriesValue = true) : s.value.isSome = true := by
  cases recorded_of_mem_performAll hs with
  | made htemplate hmakes =>
    obtain ⟨metadata, hparse⟩ := exists_parse_of_mem_announced hparsed htemplate
    exact hmakes.isSome_value (Notification.complete_of_parse hparse) hcarries
  | output hstream line => rcases hstream with rfl | rfl <;> cases hcarries

theorem Recorder.assignsValues_of_finish {limit : Nat} {requests : List Request} {code : String}
    {nodes : List SyntaxNode} {trace : Trace}
    (hparsed : ∀ request ∈ requests, request.FromMetadata)
    (h : ((new limit).performAll requests).1.finish code nodes = .ok trace) :
    AssignsValues trace.steps := by
  refine assignsValues_of_carriesValue fun t ht hcarries => ?_
  obtain ⟨s, hs, rfl⟩ := (Trace.mem_steps_of_build h).mp ht
  obtain ⟨label, -, hlabelled⟩ := Label.assignStep_eq _ (s.placed ⟨nodes⟩)
  rw [hlabelled] at hcarries ⊢
  exact isSome_value_of_mem_performAll (s := s) hparsed hs hcarries

/-! ## The variables of a run -/

/-- **The variables at the end of a run are those of one pass over its steps.** When assignments carry
values, as they do in every trace that is loaded or recorded, each step does to the variables what it
does to an environment: one that introduces a name replaces the variable of that name or adds one, an
assignment replaces the value of a variable that is there, and nothing else changes anything. So the
names are those that were introduced, each once, in order of first introduction, and a variable has the
value of the last step that introduced its name or assigned to it. -/
theorem Variable.current_spec :
    (∀ steps, AssignsValues steps →
      current steps = steps.foldl pass [] ∧
      (∀ name, name ∈ (current steps).map identifier ↔ ∃ s ∈ steps, introduced? s = some name) ∧
      ((current steps).map identifier).Nodup ∧
      ((current steps).map identifier).Pairwise (fun a b =>
        firstIntroduction steps a < firstIntroduction steps b) ∧
      ∀ v ∈ current steps, ∃ o, LatestWrite steps v.identifier o ∧
        v.value = o.step.value.map TypedValue.value) ∧
    (∀ text trace, Trace.ofText text = .ok trace → AssignsValues trace.steps) ∧
    ∀ limit (requests : List Recorder.Request) code nodes trace,
      (∀ request ∈ requests, request.FromMetadata) →
        ((Recorder.new limit).performAll requests).1.finish code nodes = .ok trace →
          AssignsValues trace.steps := by
  refine ⟨fun steps h => ⟨current_eq_foldl_pass h, fun name => ?_, ?_, ?_, fun v hv => ?_⟩,
    fun text trace h => Trace.assignsValues_of_ofText h,
    fun limit requests code nodes trace hparsed h => Recorder.assignsValues_of_finish hparsed h⟩
  · rw [map_identifier_current, mem_introducedNames]
  · rw [map_identifier_current]
    refine (pairwise_introducedNames steps).imp fun hlt hsame => ?_
    rw [hsame] at hlt
    exact lt_irrefl _ hlt
  · rw [map_identifier_current]
    exact pairwise_introducedNames steps
  · exact exists_latestWrite h (named?_of_mem_current hv)

/-- A parameter, a variable that is assigned to and declared again, with another type, and an assignment
to a name that nothing has introduced. -/
def redeclaredSteps : List Step :=
  [{ action := .parameter, identifier := some "n", value := some ⟨"int", .int 3⟩ },
    { action := .declaration, identifier := some "x", value := some ⟨"int", .int 7⟩ },
    { action := .assignment, identifier := some "n", value := some ⟨"int", .int 9⟩ },
    { action := .assignment, identifier := some "x", value := some ⟨"int", .int 8⟩ },
    { action := .declaration, identifier := some "x", value := some ⟨"char", .int 65⟩ },
    { action := .assignment, identifier := some "y", value := some ⟨"int", .int 1⟩ }]

/-- The parameter has its assigned value and the variable the type and value of its second declaration;
both keep their places. -/
theorem Variable.current_redeclaredSteps : AssignsValues redeclaredSteps ∧
    current redeclaredSteps =
      [⟨"n", "int", some (.int 9), none⟩, ⟨"x", "char", some (.int 65), none⟩] := by
  have hvalues : AssignsValues redeclaredSteps := by unfold AssignsValues; decide
  obtain ⟨hpass, -⟩ := current_spec.1 redeclaredSteps hvalues
  exact ⟨hvalues, hpass.trans (by decide +kernel)⟩

end Retrace
