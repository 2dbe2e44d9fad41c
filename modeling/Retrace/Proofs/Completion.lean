import Retrace.Proofs.StatementLabels

/-!
# Completing the steps of a run

A trace is built in two passes: each step takes from its node what it leaves open, then the statements
get labels, which depend on the ranges that the first pass has filled in. Neither pass changes what is
there, so a completed run is complete: building it once more changes nothing.

* `Step.NamesUnknown`: a step names an id that no node has.
* `Step.CompletedAs`: what building makes of a step.
* `Trace.build_eq_error_iff`: building fails at the first step that names an unknown node.
* `Trace.build_steps`: building from the steps of a trace gives the trace again.
* `Trace.build_spec`: when a trace is built, and what it is.
-/

namespace Retrace

/-- A step names an id that no node has. -/
def Step.NamesUnknown (nodes : List SyntaxNode) (s : Step) (id : Nat) : Prop :=
  s.node = some id ∧ ∀ node ∈ nodes, node.id ≠ id

/-- What building a trace makes of a step: all that the step says stays. A missing range is that of the
node that the step names, a missing scope that of this node's parent if the step introduces a variable,
and a label is set where a statement has a range by then. -/
structure Step.CompletedAs (nodes : List SyntaxNode) (s t : Step) : Prop where
  action : t.action = s.action
  node : t.node = s.node
  identifier : t.identifier = s.identifier
  value : t.value = s.value
  text : t.text = s.text
  range : ∀ r, t.range = some r ↔ s.range = some r ∨ s.range = none ∧
    ∃ id node, s.node = some id ∧ StandsFor nodes id node ∧ node.range = r
  scope : ∀ r, t.scope = some r ↔ s.scope = some r ∨ s.scope = none ∧
    s.introducesVariable = true ∧
    ∃ id parent, s.node = some id ∧ IsParent nodes id parent ∧ parent.range = r
  label_kept : ∀ label, s.label = some label → t.label = some label
  label : s.label = none → (t.label.isSome = true ↔ s.isStatement = true ∧ t.range.isSome = true)

variable {nodes : List SyntaxNode} {ranges : List SourceRange} {steps : List Step} {s : Step}

/-- **Placing a step once more changes nothing**, whatever its label. -/
theorem Step.placed_placed (tree : SyntaxTree) (s : Step) (label : Option String) :
    ({ s.placed tree with label := label } : Step).placed tree =
      { s.placed tree with label := label } := by
  simp [placed, introducesVariable, isDeclaration, isParameter, Option.or_assoc]

theorem Step.range_placed_eq_some_iff {r : SourceRange} :
    (s.placed ⟨nodes⟩).range = some r ↔ s.range = some r ∨ s.range = none ∧
      ∃ id node, s.node = some id ∧ StandsFor nodes id node ∧ node.range = r := by
  unfold placed
  simp only [Option.or_eq_some_iff, Option.map_eq_some_iff, Option.bind_eq_some_iff,
    SyntaxTree.get?_eq_some_iff]
  refine or_congr_right (and_congr_right' ?_)
  constructor
  · rintro ⟨node, ⟨id, hid, hnode⟩, hr⟩
    exact ⟨id, node, hid, hnode, hr⟩
  · rintro ⟨id, node, hid, hnode, hr⟩
    exact ⟨node, ⟨id, hid, hnode⟩, hr⟩

theorem Step.scope_placed_eq_some_iff {r : SourceRange} :
    (s.placed ⟨nodes⟩).scope = some r ↔ s.scope = some r ∨ s.scope = none ∧
      s.introducesVariable = true ∧
      ∃ id parent, s.node = some id ∧ IsParent nodes id parent ∧ parent.range = r := by
  unfold placed
  simp only [Option.or_eq_some_iff, Option.ite_none_right_eq_some, Option.map_eq_some_iff,
    Option.bind_eq_some_iff, SyntaxTree.parent?_eq_some_iff]
  refine or_congr_right (and_congr_right' (and_congr_right' ?_))
  constructor
  · rintro ⟨parent, ⟨id, hid, hparent⟩, hr⟩
    exact ⟨id, parent, hid, hparent, hr⟩
  · rintro ⟨id, parent, hid, hparent, hr⟩
    exact ⟨parent, ⟨id, hid, hparent⟩, hr⟩

/-- A label is set where a statement with a range has none. -/
theorem Label.isSome_label_assignStep (ranges : List SourceRange) (h : s.label = none) :
    (assignStep ranges s).label.isSome = true ↔
      s.isStatement = true ∧ s.range.isSome = true := by
  by_cases hawaits : ∃ r, Awaits s r
  · obtain ⟨r, hr⟩ := hawaits
    simp [label_assignStep hr, hr.isStatement, hr.range]
  · rw [assignStep_of_not_awaits (not_exists.mp hawaits), h]
    refine ⟨fun hnone => absurd hnone Bool.false_ne_true, fun ⟨hstatement, hrange⟩ => ?_⟩
    obtain ⟨r, hr⟩ := Option.isSome_iff_exists.mp hrange
    exact absurd ⟨r, hstatement, h, hr⟩ hawaits

/-- **What both passes make of a step**, whatever ranges the labels are counted among. -/
theorem Step.completedAs_assignStep (nodes : List SyntaxNode) (ranges : List SourceRange)
    (s : Step) : s.CompletedAs nodes (Label.assignStep ranges (s.placed ⟨nodes⟩)) := by
  have hisSome (hnone : s.label = none) :=
    Label.isSome_label_assignStep (s := s.placed ⟨nodes⟩) ranges hnone
  obtain ⟨label, hkept, hlabel⟩ := Label.assignStep_eq ranges (s.placed ⟨nodes⟩)
  rw [hlabel] at hisSome ⊢
  exact {
    action := rfl
    node := rfl
    identifier := rfl
    value := rfl
    text := rfl
    range := fun _ => range_placed_eq_some_iff
    scope := fun _ => scope_placed_eq_some_iff
    label_kept := fun own hown => (hkept (Option.isSome_of_eq_some hown)).trans hown
    label := hisSome }

namespace Trace

variable {code : String} {e : TraceError} {trace : Trace}

theorem head?_nodeFaults_eq_some_iff :
    (nodeFaults (nodes.map SyntaxNode.id) s.node).head? = some e ↔
      ∃ id, s.NamesUnknown nodes id ∧ e = .unknownNode id := by
  unfold nodeFaults Step.NamesUnknown
  cases s.node with
  | none => simp
  | some named =>
    rw [Option.toList_some, List.flatMap_singleton]
    split
    · next h =>
      obtain ⟨node, hnode, rfl⟩ := List.mem_map.mp h
      simp only [List.head?_nil, reduceCtorEq, Option.some_inj, false_iff]
      rintro ⟨id, ⟨rfl, hnone⟩, -⟩
      exact hnone node hnode rfl
    · next h =>
      rw [List.mem_map] at h
      simp only [List.head?_cons, Option.some_inj]
      constructor
      · rintro rfl
        exact ⟨named, ⟨rfl, fun node hnode hid => h ⟨node, hnode, hid⟩⟩, rfl⟩
      · rintro ⟨id, ⟨rfl, -⟩, rfl⟩
        rfl

theorem head?_nodeFaults_eq_none_iff :
    (nodeFaults (nodes.map SyntaxNode.id) s.node).head? = none ↔
      ∀ id, ¬ s.NamesUnknown nodes id := by
  rw [Option.eq_none_iff_forall_ne_some]
  simp only [ne_eq, head?_nodeFaults_eq_some_iff, not_exists, not_and]
  exact ⟨fun h id hid => h _ id hid rfl, fun h _ id hid _ => h id hid⟩

/-- **Building fails at the first step that names an unknown node**, and says which node. -/
theorem build_eq_error_iff :
    build code nodes steps = .error e ↔ ∃ before s after id, steps = before ++ s :: after ∧
      s.NamesUnknown nodes id ∧ e = .unknownNode id ∧
      ∀ t ∈ before, ∀ other, ¬ t.NamesUnknown nodes other := by
  rw [← error?_eq_some_iff, error?_build, List.flatMap_map, List.head?_flatMap,
    List.findSome?_eq_some_iff]
  simp only [head?_nodeFaults_eq_some_iff, head?_nodeFaults_eq_none_iff]
  constructor
  · rintro ⟨before, s, after, hsteps, ⟨id, hid, he⟩, hbefore⟩
    exact ⟨before, s, after, id, hsteps, hid, he, hbefore⟩
  · rintro ⟨before, s, after, id, hsteps, hid, he, hbefore⟩
    exact ⟨before, s, after, hsteps, ⟨id, hid, he⟩, hbefore⟩

theorem exists_build_iff :
    (∃ trace, build code nodes steps = .ok trace) ↔
      ∀ s ∈ steps, ∀ id, ¬ s.NamesUnknown nodes id := by
  rw [← error?_eq_none_iff, error?_build, List.flatMap_map, List.head?_flatMap,
    List.findSome?_eq_none_iff]
  simp only [head?_nodeFaults_eq_none_iff]

theorem completedAs_of_build (h : build code nodes steps = .ok trace) :
    List.Forall₂ (Step.CompletedAs nodes) steps trace.steps := by
  obtain rfl := eq_of_build h
  unfold Label.assign
  rw [List.map_map, List.forall₂_map_right_iff, List.forall₂_same]
  exact fun s _ => s.completedAs_assignStep nodes _

theorem map_node_of_build (h : build code nodes steps = .ok trace) :
    trace.steps.map Step.node = steps.map Step.node := by
  have hnodes := (completedAs_of_build h).imp fun _ _ hs => hs.node.symm
  rw [← List.forall₂_map_right_iff, ← List.forall₂_map_left_iff, List.forall₂_eq_eq_eq] at hnodes
  exact hnodes.symm

/-- Steps that went through both passes are placed. -/
theorem map_placed_assign (tree : SyntaxTree) (steps : List Step) :
    (Label.assign (steps.map (Step.placed tree))).map (Step.placed tree) =
      Label.assign (steps.map (Step.placed tree)) := by
  refine (List.map_congr_left fun t ht => ?_).trans (List.map_id _)
  obtain ⟨placed, hplaced, rfl⟩ := List.mem_map.mp ht
  obtain ⟨s, -, rfl⟩ := List.mem_map.mp hplaced
  obtain ⟨label, -, hlabel⟩ := Label.assignStep_eq _ (s.placed tree)
  rw [hlabel, Step.placed_placed, id]

/-- **Building from the steps of a trace gives the trace again.** The labels of its statements stay
because the ranges among which they are counted do. -/
theorem build_steps (h : build code nodes steps = .ok trace) :
    build code nodes trace.steps = .ok trace := by
  have hok : ∃ again, build code nodes trace.steps = .ok again := by
    rw [← error?_eq_none_iff, error?_build, map_node_of_build h, ← error?_build, error?_eq_none_iff]
    exact ⟨trace, h⟩
  obtain ⟨again, hagain⟩ := hok
  rw [hagain, eq_of_build hagain, eq_of_build h, map_placed_assign, Label.assign_assign]

/-- **When a trace is built, and what it is.** Building fails just when a step names a node that is not
there, and the first such step gives the error. Otherwise the trace has the code and the nodes, and a
completed step for each step, in order; building it from these steps gives it again. -/
theorem build_spec (code : String) (nodes : List SyntaxNode) (steps : List Step) :
    ((∃ e, build code nodes steps = .error e) ↔ ∃ s ∈ steps, ∃ id, s.NamesUnknown nodes id) ∧
    (∀ e, build code nodes steps = .error e ↔ ∃ before s after id, steps = before ++ s :: after ∧
      s.NamesUnknown nodes id ∧ e = .unknownNode id ∧
      ∀ t ∈ before, ∀ other, ¬ t.NamesUnknown nodes other) ∧
    ((∃ trace, build code nodes steps = .ok trace) ↔
      ∀ s ∈ steps, ∀ id, ¬ s.NamesUnknown nodes id) ∧
    ∀ trace, build code nodes steps = .ok trace →
      trace.code = code ∧ trace.tree.nodes = nodes ∧
      List.Forall₂ (Step.CompletedAs nodes) steps trace.steps ∧
      build code nodes trace.steps = .ok trace := by
  refine ⟨?_, fun e => build_eq_error_iff, exists_build_iff, fun trace h => ?_⟩
  · rw [exists_error_iff, exists_build_iff]
    simp only [not_forall, not_not, exists_prop]
  · refine ⟨?_, ?_, completedAs_of_build h, build_steps h⟩
    all_goals rw [eq_of_build h]

/-- Of two nodes with one id the last counts, and parents may run in a circle: the parameter's node has
for its parent the node whose own parent it is. -/
example :
    let outer : SourceRange := ⟨⟨1, 1⟩, ⟨4, 2⟩⟩
    let stale : SourceRange := ⟨⟨2, 1⟩, ⟨2, 5⟩⟩
    let inner : SourceRange := ⟨⟨2, 3⟩, ⟨2, 9⟩⟩
    (build "" [⟨1, some 2, stale⟩, ⟨2, some 1, outer⟩, ⟨1, some 2, inner⟩]
      [{ action := .parameter, node := some 1 },
       { action := .statement, node := some 1, scope := some stale }]).toOption.map Trace.steps =
    some [{ action := .parameter, node := some 1, range := some inner, scope := some outer },
      { action := .statement, node := some 1, range := some inner, scope := some stale,
        label := some "l2:1" }] := by
  decide +kernel

end Trace

end Retrace
