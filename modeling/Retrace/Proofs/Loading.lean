import Retrace.Proofs.FirstError
import Retrace.Proofs.SyntaxTree
import Retrace.Proofs.WireRanges
import Retrace.Trace.File

/-!
# Loading a trace

A trace file is checked before it is used: ranges against the text, actions and values against each
other, and the nodes of steps against the nodes of the trace. A range comes to a step in one of
three shapes or from the node that the step names, and a scope from that node's parent; wherever it
comes from, it lies in the text, unless a sum of its lines and columns is one that no machine word holds.

* `RawTrace.faults`: everything that is wrong with a raw trace, in the order in which it is checked.
* `RawTrace.WellFormed`: that nothing is.
* `RawTrace.error?_resolve`: loading fails with the first fault, and with nothing else.
* `RawStep.LoadedAs`: what becomes of a raw step.
* `Trace.InText`: all ranges and scopes run forwards and have byte spans.
* `RawTrace.LoadedAs.exists_resolve?`: where the ranges of a loaded trace come from.
* `RawTrace.LoadedAs.onPositions`: they lie between positions of the text, where the sums for the
  ranges of the raw trace fit machine words.
* `Trace.ofText_accepts_wellFormed`: exactly the well-formed traces are loaded, and how.
* `columnBeyondTrace_loads`: a loaded trace with a range outside the text.
-/

namespace Retrace

/-- A range that runs forwards and has a byte span in a text. -/
def SourceRange.LiesIn (r : SourceRange) (text : List Char) : Prop :=
  r.start ≤ r.stop ∧ ∃ span, (LineIndex.ofText text).offsets? r = some span ∧
    span.start ≤ span.stop ∧ span.stop ≤ Text.byteSize text

theorem SourceRange.liesIn_iff {r : SourceRange} {text : List Char} :
    r.LiesIn text ↔ r.start ≤ r.stop ∧ ((LineIndex.ofText text).offsets? r).isSome = true := by
  refine and_congr_right fun _ => ⟨?_, fun h => ?_⟩
  · rintro ⟨span, hspan, -⟩
    exact Option.isSome_iff_exists.mpr ⟨span, hspan⟩
  · obtain ⟨span, hspan⟩ := Option.isSome_iff_exists.mp h
    obtain ⟨-, hstop, hle⟩ := LineIndex.offsets?_eq_some_iff.mp hspan
    have hsize := LineIndex.le_size_of_offset? hstop
    rw [LineIndex.size_ofText] at hsize
    exact ⟨span, hspan, hle, hsize⟩

/-- A range between two positions of a text, in order. -/
def SourceRange.OnPositions (r : SourceRange) (text : List Char) : Prop :=
  LineIndex.IsPosition text r.start ∧ LineIndex.IsPosition text r.stop ∧ r.start ≤ r.stop

/-- Resolved ranges have a byte span. -/
theorem WireRange.liesIn_of_resolve? {wire : WireRange} {text : List Char} {r : SourceRange}
    (h : wire.resolve? (LineIndex.ofText text) = some r) : r.LiesIn text :=
  SourceRange.liesIn_iff.mpr (resolve?_eq_some_iff.mp h).2

/-- Named ranges have positions for their ends. -/
theorem WireRange.Names.onPositions {wire : WireRange} {text : List Char} {r : SourceRange}
    (h : wire.Names text r) : r.OnPositions text := by
  cases wire with
  | offsets start stop =>
    obtain ⟨rfl, hle, hstop⟩ := h
    exact ⟨⟨start, hle.trans hstop, rfl⟩, ⟨stop, hstop, rfl⟩,
      (LineIndex.le_location_iff (hle.trans hstop) hstop).mpr hle⟩
  | _ =>
    obtain ⟨hstart, hstop, hforward, rfl⟩ := h
    exact ⟨hstart, hstop, hforward⟩

/-! ## What is wrong with a raw trace -/

/-- What is wrong with a range. -/
def WireRange.faults (index : LineIndex) (wire : WireRange) : List TraceError :=
  if (wire.resolve? index).isSome then [] else [.malformedLocation wire.quoted]

namespace RawStep

/-- What is wrong with the action of a step. -/
def actionFaults (raw : RawStep) : List TraceError :=
  if (Action.ofName? raw.action).isSome then [] else [.unknownAction raw.action]

/-- What an action that carries a value misses of it. -/
def valueFaults (raw : RawStep) : List TraceError :=
  (Action.ofName? raw.action).toList.flatMap fun action =>
    if action.carriesValue then
      match raw.type, raw.value with
      | none, _ => [.missingKey "dataType"]
      | some type, none => [.missingPayload action.name type]
      | some _, some _ => []
    else []

/-- What is wrong with a step by itself: its action, its value, its location, its scope. -/
def faults (index : LineIndex) (raw : RawStep) : List TraceError :=
  raw.actionFaults ++ (raw.valueFaults ++
    (raw.location.toList.flatMap (WireRange.faults index) ++
      raw.scope.toList.flatMap (WireRange.faults index)))

end RawStep

/-- What is wrong with the node that a step names, by the ids that nodes have. -/
def nodeFaults (known : List Nat) (named : Option Nat) : List TraceError :=
  named.toList.flatMap fun id => if id ∈ known then [] else [.unknownNode id]

namespace RawTrace

/-- The index of a raw trace's text. -/
def index (raw : RawTrace) : LineIndex := LineIndex.ofText raw.code.toList

/-- Everything that is wrong with a raw trace, in the order in which it is checked: the ranges of
nodes, the steps by themselves, the nodes of steps. -/
def faults (raw : RawTrace) : List TraceError :=
  raw.nodes.flatMap (fun node => node.range.faults raw.index) ++
    (raw.steps.flatMap (RawStep.faults raw.index) ++
      (raw.steps.map RawStep.node).flatMap (nodeFaults (raw.nodes.map RawNode.id)))

/-- The ranges of a raw trace: those of its nodes, and the locations and scopes of its steps. -/
def wires (raw : RawTrace) : List WireRange :=
  raw.nodes.map RawNode.range ++
    raw.steps.flatMap fun step => step.location.toList ++ step.scope.toList

/-- Machine words hold all sums that resolving the ranges takes. -/
def Fits (raw : RawTrace) : Prop := ∀ wire ∈ raw.wires, wire.fits raw.index = true

/-- A range of a raw trace stands for one in its text. -/
def Resolves (raw : RawTrace) (wire : WireRange) : Prop := (wire.resolve? raw.index).isSome = true

/-- A step of a raw trace that can be loaded. -/
structure Admits (raw : RawTrace) (step : RawStep) : Prop where
  action : (Action.ofName? step.action).isSome = true
  value : ∀ action, Action.ofName? step.action = some action → action.carriesValue = true →
    step.type.isSome = true ∧ step.value.isSome = true
  location : ∀ wire, step.location = some wire → raw.Resolves wire
  scope : ∀ wire, step.scope = some wire → raw.Resolves wire
  node : ∀ id, step.node = some id → ∃ node ∈ raw.nodes, node.id = id

/-- A raw trace that can be loaded. -/
structure WellFormed (raw : RawTrace) : Prop where
  nodes : ∀ node ∈ raw.nodes, raw.Resolves node.range
  steps : ∀ step ∈ raw.steps, raw.Admits step

end RawTrace

/-! ## What becomes of nodes and steps -/

/-- What becomes of a node: its range is resolved. -/
structure RawNode.LoadedAs (index : LineIndex) (raw : RawNode) (node : SyntaxNode) : Prop where
  id : node.id = raw.id
  parentId : node.parentId = raw.parentId
  range : raw.range.resolve? index = some node.range

/-- What a raw step says by itself, when its action is known. -/
def RawStep.described (index : LineIndex) (raw : RawStep) (action : Action) : Step where
  action := action
  node := raw.node
  range := raw.location.bind (WireRange.resolve? index)
  identifier := raw.identifier
  value := raw.type.bind fun type => raw.value.map (TypedValue.mk type)
  scope := raw.scope.bind (WireRange.resolve? index)
  label := raw.label
  text := raw.text

/-- A step with the range of its node, when it has none, and the scope that its node lies in. -/
def Step.placed (tree : SyntaxTree) (s : Step) : Step :=
  { s with
    range := s.range.or ((s.node.bind tree.get?).map SyntaxNode.range)
    scope := s.scope.or
      (if s.introducesVariable then (s.node.bind tree.parent?).map SyntaxNode.range else none) }

/-- What becomes of a step: all that it says by itself stays, a label of its own included, and its
node adds what it leaves open. -/
def RawStep.LoadedAs (index : LineIndex) (tree : SyntaxTree) (raw : RawStep) (s : Step) : Prop :=
  ∃ action label, Action.ofName? raw.action = some action ∧
    (raw.label.isSome = true → label = raw.label) ∧
    s = { (raw.described index action).placed tree with label := label }

theorem resolveRange_eq_ok_iff {index : LineIndex} {wire : WireRange} {r : SourceRange} :
    resolveRange index wire = .ok r ↔ wire.resolve? index = some r := by
  unfold resolveRange
  cases wire.resolve? index with
  | none => exact ⟨nofun, nofun⟩
  | some range => rw [Except.ok.injEq, Option.some.injEq]

theorem eq_of_resolveOptional {index : LineIndex} {wire : Option WireRange}
    {r : Option SourceRange} (h : resolveOptional index wire = .ok r) :
    r = wire.bind (WireRange.resolve? index) := by
  cases wire with
  | none => exact (Except.ok.inj h).symm
  | some wire =>
    rw [resolveOptional] at h
    cases hrange : resolveRange index wire with
    | error e => rw [hrange] at h; cases h
    | ok range =>
      rw [hrange] at h
      rw [Option.bind_some, resolveRange_eq_ok_iff.mp hrange]
      exact (Except.ok.inj h).symm

theorem RawNode.loadedAs_of_resolve {index : LineIndex} {raw : RawNode} {node : SyntaxNode}
    (h : raw.resolve index = .ok node) : raw.LoadedAs index node := by
  unfold resolve at h
  cases hrange : resolveRange index raw.range with
  | error e => rw [hrange] at h; cases h
  | ok range =>
    rw [hrange] at h
    obtain rfl := Except.ok.inj h
    exact ⟨rfl, rfl, resolveRange_eq_ok_iff.mp hrange⟩

theorem RawStep.eq_of_typedValue {raw : RawStep} {action : Action} {value : Option TypedValue}
    (h : raw.typedValue action = .ok value) :
    value = raw.type.bind fun type => raw.value.map (TypedValue.mk type) := by
  unfold typedValue at h
  split at h
  · next htype hvalue =>
    rw [htype, hvalue]
    exact (Except.ok.inj h).symm
  · next htype =>
    split at h
    · cases h
    · rw [htype]
      exact (Except.ok.inj h).symm
  · next htype hvalue =>
    split at h
    · cases h
    · rw [htype, hvalue]
      exact (Except.ok.inj h).symm

theorem RawStep.eq_described_of_resolve {index : LineIndex} {raw : RawStep} {s : Step}
    (h : raw.resolve index = .ok s) :
    ∃ action, Action.ofName? raw.action = some action ∧ s = raw.described index action := by
  unfold resolve at h
  cases haction : Action.ofName? raw.action with
  | none => rw [haction] at h; cases h
  | some action =>
    rw [haction] at h
    obtain ⟨known, hknown, h⟩ := bind_eq_ok_iff.mp h
    obtain rfl := Except.ok.inj hknown
    obtain ⟨value, hvalue, h⟩ := bind_eq_ok_iff.mp h
    obtain ⟨range, hrange, h⟩ := bind_eq_ok_iff.mp h
    obtain ⟨scope, hscope, h⟩ := bind_eq_ok_iff.mp h
    refine ⟨action, rfl, (Except.ok.inj h).symm.trans ?_⟩
    rw [eq_of_resolveOptional hrange, eq_of_resolveOptional hscope, eq_of_typedValue hvalue,
      described]

theorem Step.eq_placed_of_placeStep {tree : SyntaxTree} {s placed : Step}
    (h : Trace.placeStep tree s = .ok placed) : placed = s.placed tree := by
  obtain ⟨action, named, range, identifier, value, scope, label, text⟩ := s
  unfold Trace.placeStep at h
  cases named with
  | none =>
    obtain rfl := Except.ok.inj h
    simp [Step.placed, Step.introducesVariable]
  | some id =>
    dsimp only at h
    cases hnode : tree.get? id with
    | none => rw [hnode] at h; cases h
    | some node =>
      rw [hnode] at h
      obtain rfl := Except.ok.inj h
      simp [Step.placed, Step.introducesVariable, hnode]

/-! ## The first fault -/

theorem error?_resolveRange (index : LineIndex) (wire : WireRange) :
    error? (resolveRange index wire) = (wire.faults index).head? := by
  unfold resolveRange WireRange.faults
  cases wire.resolve? index <;> rfl

theorem error?_resolveOptional (index : LineIndex) (wire : Option WireRange) :
    error? (resolveOptional index wire) =
      (wire.toList.flatMap (WireRange.faults index)).head? := by
  cases wire with
  | none => rfl
  | some wire =>
    rw [resolveOptional, error?_map, error?_resolveRange, Option.toList_some,
      List.flatMap_singleton]

theorem RawStep.error?_typedValue {raw : RawStep} {action : Action}
    (h : Action.ofName? raw.action = some action) :
    error? (raw.typedValue action) = raw.valueFaults.head? := by
  unfold typedValue valueFaults
  rw [h, Option.toList_some, List.flatMap_singleton]
  cases raw.type with
  | none => cases action.carriesValue <;> rfl
  | some type => cases raw.value <;> cases action.carriesValue <;> rfl

theorem RawStep.error?_resolve (index : LineIndex) (raw : RawStep) :
    error? (raw.resolve index) = (raw.faults index).head? := by
  unfold resolve faults actionFaults
  cases haction : Action.ofName? raw.action with
  | none => rfl
  | some action =>
    refine error?_bind rfl fun known hknown => ?_
    obtain rfl := Except.ok.inj hknown
    refine error?_bind (raw.error?_typedValue haction) fun value _ =>
      error?_bind (error?_resolveOptional index raw.location) fun range _ => ?_
    rw [← List.append_nil (raw.scope.toList.flatMap _)]
    exact error?_bind (error?_resolveOptional index raw.scope) fun scope _ => rfl

theorem error?_placeStep (tree : SyntaxTree) (s : Step) :
    error? (Trace.placeStep tree s) =
      (nodeFaults (tree.nodes.map SyntaxNode.id) s.node).head? := by
  unfold Trace.placeStep nodeFaults
  cases s.node with
  | none => rfl
  | some id =>
    simp only [Option.toList_some, List.flatMap_singleton, ← SyntaxTree.isSome_get?_iff]
    cases tree.get? id <;> rfl

/-- A trace cannot be built just when a node is not known, whatever the ranges. -/
theorem Trace.error?_build (code : String) (nodes : List SyntaxNode) (steps : List Step) :
    error? (build code nodes steps) =
      ((steps.map Step.node).flatMap (nodeFaults (nodes.map SyntaxNode.id))).head? := by
  rw [List.flatMap_map,
    ← List.append_nil (steps.flatMap fun s => nodeFaults (nodes.map SyntaxNode.id) s.node)]
  exact error?_bind (error?_mapM_of_faults (error?_placeStep ⟨nodes⟩) steps) fun _ _ => rfl

namespace RawTrace

variable {raw : RawTrace}

theorem error?_resolveNode (index : LineIndex) (raw : RawNode) :
    error? (raw.resolve index) = (raw.range.faults index).head? := by
  rw [RawNode.resolve, error?_map, error?_resolveRange]

/-- **Loading fails with the first fault, and with nothing else.** -/
theorem error?_resolve (raw : RawTrace) : error? raw.resolve = raw.faults.head? := by
  unfold resolve faults
  refine error?_bind (error?_mapM_of_faults (error?_resolveNode raw.index) raw.nodes)
    fun nodes hnodes => ?_
  refine error?_bind (error?_mapM_of_faults (RawStep.error?_resolve raw.index) raw.steps)
    fun steps hsteps => ?_
  have hids : nodes.map SyntaxNode.id = raw.nodes.map RawNode.id :=
    map_eq_of_mapM hnodes fun _ _ h => (RawNode.loadedAs_of_resolve h).id
  have hnamed : steps.map Step.node = raw.steps.map RawStep.node :=
    map_eq_of_mapM hsteps fun _ _ h => by
      obtain ⟨action, -, rfl⟩ := RawStep.eq_described_of_resolve h
      rfl
  have hbuild : error? (Trace.build raw.code nodes steps) =
      ((raw.steps.map RawStep.node).flatMap (nodeFaults (raw.nodes.map RawNode.id))).head? := by
    rw [← hids, ← hnamed, Trace.error?_build]
  rw [← List.append_nil ((raw.steps.map RawStep.node).flatMap _)]
  exact error?_bind hbuild fun _ _ => rfl

theorem faults_range_eq_nil_iff {index : LineIndex} {wire : WireRange} :
    wire.faults index = [] ↔ (wire.resolve? index).isSome = true := by
  unfold WireRange.faults
  split
  · exact iff_of_true rfl ‹_›
  · exact iff_of_false (List.cons_ne_nil _ _) ‹_›

theorem faults_value_eq_nil_iff {step : RawStep} :
    step.valueFaults = [] ↔ ∀ action, Action.ofName? step.action = some action →
      action.carriesValue = true → step.type.isSome = true ∧ step.value.isSome = true := by
  unfold RawStep.valueFaults
  simp only [List.flatMap_eq_nil_iff, Option.mem_toList]
  refine forall₂_congr fun action _ => ?_
  cases action.carriesValue <;> cases step.type <;> cases step.value <;> simp

theorem faults_node_eq_nil_iff {nodes : List RawNode} {named : Option Nat} :
    nodeFaults (nodes.map RawNode.id) named = [] ↔
      ∀ id, named = some id → ∃ node ∈ nodes, node.id = id := by
  unfold nodeFaults
  simp only [List.flatMap_eq_nil_iff, Option.mem_toList, List.mem_map]
  refine forall₂_congr fun id _ => ?_
  split
  · exact iff_of_true rfl ‹_›
  · exact iff_of_false (List.cons_ne_nil _ _) ‹_›

theorem faults_step_eq_nil_iff {step : RawStep} :
    step.faults raw.index = [] ∧ nodeFaults (raw.nodes.map RawNode.id) step.node = [] ↔
      raw.Admits step := by
  have haction : step.actionFaults = [] ↔ (Action.ofName? step.action).isSome = true := by
    unfold RawStep.actionFaults
    cases Action.ofName? step.action <;> simp
  unfold RawStep.faults
  simp only [List.append_eq_nil_iff, haction, faults_value_eq_nil_iff, faults_node_eq_nil_iff,
    List.flatMap_eq_nil_iff, Option.mem_toList, faults_range_eq_nil_iff]
  constructor
  · rintro ⟨⟨haction, hvalue, hlocation, hscope⟩, hnode⟩
    exact ⟨haction, hvalue, hlocation, hscope, hnode⟩
  · rintro ⟨haction, hvalue, hlocation, hscope, hnode⟩
    exact ⟨⟨haction, hvalue, hlocation, hscope⟩, hnode⟩

/-- Nothing is wrong with a raw trace exactly when it is well-formed. -/
theorem faults_eq_nil_iff : raw.faults = [] ↔ raw.WellFormed := by
  unfold faults
  simp only [List.append_eq_nil_iff, List.flatMap_eq_nil_iff, List.forall_mem_map,
    faults_range_eq_nil_iff]
  constructor
  · rintro ⟨hnodes, hsteps, hnamed⟩
    exact ⟨hnodes, fun step hstep =>
      faults_step_eq_nil_iff.mp ⟨hsteps step hstep, hnamed step hstep⟩⟩
  · intro h
    exact ⟨h.nodes, fun step hstep => (faults_step_eq_nil_iff.mpr (h.steps step hstep)).1,
      fun step hstep => (faults_step_eq_nil_iff.mpr (h.steps step hstep)).2⟩

/-- What a loaded trace has of a raw one: its text, its nodes and its steps, one for one and in
order, and its types. -/
structure LoadedAs (raw : RawTrace) (trace : Trace) : Prop where
  code : trace.code = raw.code
  nodes : List.Forall₂ (RawNode.LoadedAs raw.index) raw.nodes trace.tree.nodes
  steps : List.Forall₂ (RawStep.LoadedAs raw.index trace.tree) raw.steps trace.steps
  types : trace.types = raw.types

end RawTrace

/-- A label that a step has of its own stays; nothing else is touched. -/
theorem Label.assignStep_eq (ranges : List SourceRange) (s : Step) :
    ∃ label, (s.label.isSome = true → label = s.label) ∧
      assignStep ranges s = { s with label := label } := by
  unfold assignStep
  split
  · next hlabel _ => exact ⟨_, fun h => absurd h (by simp [hlabel]), rfl⟩
  · exact ⟨s.label, fun _ => rfl, rfl⟩

theorem Trace.eq_of_build {code : String} {nodes : List SyntaxNode} {steps : List Step}
    {trace : Trace} (h : build code nodes steps = .ok trace) :
    trace = ⟨code, ⟨nodes⟩, Label.assign (steps.map (Step.placed ⟨nodes⟩)), []⟩ := by
  obtain ⟨placed, hplaced, h⟩ := bind_eq_ok_iff.mp h
  have hsteps : placed = steps.map (Step.placed ⟨nodes⟩) := by
    rw [← List.map_id placed]
    exact map_eq_of_mapM hplaced fun _ _ h => Step.eq_placed_of_placeStep h
  rw [← hsteps]
  exact (Except.ok.inj h).symm

theorem RawTrace.loadedAs_of_resolve {raw : RawTrace} {trace : Trace}
    (h : raw.resolve = .ok trace) : raw.LoadedAs trace := by
  obtain ⟨nodes, hnodes, h⟩ := bind_eq_ok_iff.mp h
  obtain ⟨steps, hsteps, h⟩ := bind_eq_ok_iff.mp h
  obtain ⟨built, hbuilt, h⟩ := bind_eq_ok_iff.mp h
  obtain rfl := Except.ok.inj h
  obtain rfl := Trace.eq_of_build hbuilt
  refine ⟨rfl, (mapM_eq_ok_iff.mp hnodes).imp fun _ _ h => RawNode.loadedAs_of_resolve h, ?_, rfl⟩
  dsimp only [Label.assign]
  generalize Label.statementRanges _ = ranges
  rw [List.forall₂_map_right_iff, List.forall₂_map_right_iff]
  refine (mapM_eq_ok_iff.mp hsteps).imp fun step s h => ?_
  obtain ⟨action, haction, rfl⟩ := RawStep.eq_described_of_resolve h
  obtain ⟨label, hlabel, hassigned⟩ :=
    Label.assignStep_eq ranges ((step.described raw.index action).placed ⟨nodes⟩)
  exact ⟨action, label, haction, hlabel, hassigned⟩

/-- Exactly the well-formed raw traces become traces. -/
theorem RawTrace.exists_resolve_iff (raw : RawTrace) :
    (∃ trace, raw.resolve = .ok trace) ↔ raw.WellFormed := by
  rw [← error?_eq_none_iff, error?_resolve, List.head?_eq_none_iff, faults_eq_nil_iff]

/-! ## What a loaded trace is like -/

/-- All ranges of nodes, and all ranges and scopes of steps, run forwards and have byte spans. -/
structure Trace.InText (trace : Trace) : Prop where
  nodes : ∀ node ∈ trace.tree.nodes, node.range.LiesIn trace.code.toList
  ranges : ∀ s ∈ trace.steps, ∀ r, s.range = some r → r.LiesIn trace.code.toList
  scopes : ∀ s ∈ trace.steps, ∀ r, s.scope = some r → r.LiesIn trace.code.toList

/-- The ranges of a trace: those of its nodes, and the ranges and scopes of its steps. -/
def Trace.spans (trace : Trace) : List SourceRange :=
  trace.tree.nodes.map SyntaxNode.range ++
    trace.steps.flatMap fun s => s.range.toList ++ s.scope.toList

theorem Trace.mem_spans_iff {trace : Trace} {r : SourceRange} :
    r ∈ trace.spans ↔ (∃ node ∈ trace.tree.nodes, node.range = r) ∨
      ∃ s ∈ trace.steps, s.range = some r ∨ s.scope = some r := by
  simp [spans]

theorem exists_of_mem_forall₂ {α β : Type} {R : α → β → Prop} {xs : List α} {ys : List β} {y : β}
    (h : List.Forall₂ R xs ys) (hy : y ∈ ys) : ∃ x ∈ xs, R x y := by
  obtain ⟨i, hi, rfl⟩ := List.mem_iff_getElem.mp hy
  have hlength := h.length_eq
  exact ⟨xs[i], List.getElem_mem (by omega), h.get (by omega) hi⟩

/-- A step has a range of its own, or that of a node. -/
theorem Step.range_placed {tree : SyntaxTree} {s : Step} {r : SourceRange}
    (hr : (s.placed tree).range = some r) :
    s.range = some r ∨ ∃ node ∈ tree.nodes, node.range = r := by
  refine (Option.or_eq_some_iff.mp hr).imp_right fun ⟨_, hr⟩ => ?_
  obtain ⟨node, hnode, rfl⟩ := Option.map_eq_some_iff.mp hr
  obtain ⟨id, -, hnode⟩ := Option.bind_eq_some_iff.mp hnode
  exact ⟨node, SyntaxTree.mem_of_get? hnode, rfl⟩

/-- The same for a scope, which is the range of the node's parent. -/
theorem Step.scope_placed {tree : SyntaxTree} {s : Step} {r : SourceRange}
    (hr : (s.placed tree).scope = some r) :
    s.scope = some r ∨ ∃ node ∈ tree.nodes, node.range = r := by
  refine (Option.or_eq_some_iff.mp hr).imp_right fun ⟨_, hr⟩ => ?_
  obtain ⟨-, hr⟩ := Option.ite_none_right_eq_some.mp hr
  obtain ⟨node, hnode, rfl⟩ := Option.map_eq_some_iff.mp hr
  obtain ⟨id, -, hnode⟩ := Option.bind_eq_some_iff.mp hnode
  exact ⟨node, SyntaxTree.mem_of_parent? hnode, rfl⟩

/-- **Every range of a loaded trace is one that a range of the raw trace stands for**, in a step's own
place or taken from a node. -/
theorem RawTrace.LoadedAs.exists_resolve? {raw : RawTrace} {trace : Trace} (h : raw.LoadedAs trace)
    {r : SourceRange} (hr : r ∈ trace.spans) :
    ∃ wire ∈ raw.wires, wire.resolve? raw.index = some r := by
  have hnode (hr : ∃ node ∈ trace.tree.nodes, node.range = r) :
      ∃ wire ∈ raw.wires, wire.resolve? raw.index = some r := by
    obtain ⟨node, hnode, rfl⟩ := hr
    obtain ⟨rawNode, hraw, hloaded⟩ := exists_of_mem_forall₂ h.nodes hnode
    exact ⟨rawNode.range, List.mem_append_left _ (List.mem_map_of_mem hraw), hloaded.range⟩
  have hown {step : RawStep} (hstep : step ∈ raw.steps) {wire : Option WireRange}
      (hwire : wire.toList ⊆ step.location.toList ++ step.scope.toList)
      (hr : wire.bind (WireRange.resolve? raw.index) = some r) :
      ∃ wire ∈ raw.wires, wire.resolve? raw.index = some r := by
    obtain ⟨wire, rfl, hresolved⟩ := Option.bind_eq_some_iff.mp hr
    exact ⟨wire, List.mem_append_right _ (List.mem_flatMap_of_mem hstep
      (hwire List.mem_cons_self)), hresolved⟩
  rcases Trace.mem_spans_iff.mp hr with hr | ⟨s, hs, hr⟩
  · exact hnode hr
  · obtain ⟨step, hstep, action, label, -, -, rfl⟩ := exists_of_mem_forall₂ h.steps hs
    rcases hr with hr | hr
    · exact (Step.range_placed hr).elim (hown hstep (List.subset_append_left _ _)) hnode
    · exact (Step.scope_placed hr).elim (hown hstep (List.subset_append_right _ _)) hnode

theorem RawTrace.LoadedAs.inText {raw : RawTrace} {trace : Trace} (h : raw.LoadedAs trace) :
    trace.InText := by
  have hspans : ∀ r ∈ trace.spans, r.LiesIn trace.code.toList := by
    intro r hr
    obtain ⟨wire, -, hresolved⟩ := h.exists_resolve? hr
    rw [h.code]
    exact WireRange.liesIn_of_resolve? hresolved
  exact ⟨fun node hnode => hspans _ (Trace.mem_spans_iff.mpr (.inl ⟨node, hnode, rfl⟩)),
    fun s hs r hr => hspans r (Trace.mem_spans_iff.mpr (.inr ⟨s, hs, .inl hr⟩)),
    fun s hs r hr => hspans r (Trace.mem_spans_iff.mpr (.inr ⟨s, hs, .inr hr⟩))⟩

/-- Steps of a loaded trace have the values that their actions call for. -/
theorem RawTrace.LoadedAs.isSome_value {raw : RawTrace} {trace : Trace} (h : raw.LoadedAs trace)
    (hwell : raw.WellFormed) {s : Step} (hs : s ∈ trace.steps)
    (hcarries : s.action.carriesValue = true) : s.value.isSome = true := by
  obtain ⟨step, hstep, action, label, haction, -, rfl⟩ := exists_of_mem_forall₂ h.steps hs
  obtain ⟨htype, hvalue⟩ := (hwell.steps step hstep).value action haction hcarries
  obtain ⟨type, htype⟩ := Option.isSome_iff_exists.mp htype
  obtain ⟨value, hvalue⟩ := Option.isSome_iff_exists.mp hvalue
  show (step.type.bind fun type => step.value.map (TypedValue.mk type)).isSome = true
  rw [htype, hvalue]
  rfl

/-! ## Trace files -/

theorem Trace.inText_of_ofText {text : String} {trace : Trace} (h : ofText text = .ok trace) :
    trace.InText := by
  unfold ofText at h
  split at h
  · cases h
  · exact (RawTrace.loadedAs_of_resolve h).inText

/-- What comes of loading a raw trace. -/
structure RawTrace.Loads (raw : RawTrace) (result : Except TraceError Trace) : Prop where
  /-- It is loaded exactly when nothing is wrong with it. -/
  accepted : (∃ trace, result = .ok trace) ↔ raw.WellFormed
  /-- What is wrong first, in the order of the checks, is the error. -/
  refused : ∀ e, result = .error e ↔ raw.faults.head? = some e
  /-- Its nodes and steps are kept, one for one and in order. -/
  loaded : ∀ trace, result = .ok trace → raw.LoadedAs trace
  /-- Steps have the values that their actions call for. -/
  values : ∀ trace, result = .ok trace →
    ∀ s ∈ trace.steps, s.action.carriesValue = true → s.value.isSome = true
  /-- All ranges and scopes, given or taken from a node, run forwards and have byte spans. -/
  inText : ∀ trace, result = .ok trace → trace.InText
  /-- Where the sums fit, a range resolves just when it names one by the positions of the text. -/
  resolves : raw.Fits → ∀ wire ∈ raw.wires,
    (raw.Resolves wire ↔ ∃ r, wire.Names raw.code.toList r)
  /-- And then all ranges and scopes lie between positions of the text. -/
  onPositions : raw.Fits → ∀ trace, result = .ok trace →
    ∀ r ∈ trace.spans, r.OnPositions trace.code.toList

theorem RawTrace.resolves_iff_names {raw : RawTrace} (hfits : raw.Fits) {wire : WireRange}
    (hwire : wire ∈ raw.wires) : raw.Resolves wire ↔ ∃ r, wire.Names raw.code.toList r := by
  unfold Resolves index
  simp only [Option.isSome_iff_exists, WireRange.resolve?_eq_some_iff_names (hfits wire hwire)]

theorem RawTrace.LoadedAs.onPositions {raw : RawTrace} {trace : Trace} (h : raw.LoadedAs trace)
    (hfits : raw.Fits) {r : SourceRange} (hr : r ∈ trace.spans) :
    r.OnPositions trace.code.toList := by
  obtain ⟨wire, hwire, hresolved⟩ := h.exists_resolve? hr
  rw [h.code]
  exact ((WireRange.resolve?_eq_some_iff_names (hfits wire hwire)).mp hresolved).onPositions

/-- **Exactly the well-formed traces are loaded**, and their ranges lie in the text as far as the sums
of lines and columns fit machine words. A text that holds no raw trace is refused as such. -/
theorem Trace.ofText_accepts_wellFormed (text : String) :
    ((Json.read? text).bind RawTrace.ofJson? = none → ofText text = .error .malformedJson) ∧
    ∀ raw, (Json.read? text).bind RawTrace.ofJson? = some raw → raw.Loads (ofText text) := by
  constructor
  · intro hnone
    rw [ofText, hnone]
  · intro raw hraw
    have hload : ofText text = raw.resolve := by rw [ofText, hraw]
    have hloaded {trace : Trace} (h : raw.resolve = .ok trace) : raw.LoadedAs trace :=
      RawTrace.loadedAs_of_resolve h
    rw [hload]
    exact {
      accepted := raw.exists_resolve_iff
      refused := fun e => by rw [← error?_eq_some_iff, RawTrace.error?_resolve]
      loaded := fun trace h => hloaded h
      values := fun trace h s hs =>
        (hloaded h).isSome_value (raw.exists_resolve_iff.mp ⟨trace, h⟩) hs
      inText := fun trace h => (hloaded h).inText
      resolves := fun hfits wire hwire => RawTrace.resolves_iff_names hfits hwire
      onPositions := fun hfits trace h r hr => (hloaded h).onPositions hfits hr }

theorem eq_ok_of_toOption {ε α : Type} {x : Except ε α} {a : α} (h : x.toOption = some a) :
    x = .ok a := by
  cases x with
  | error e => cases h
  | ok b => exact congrArg Except.ok (Option.some.inj h)

/-- A text from which a trace with a given source and steps is loaded. -/
theorem exists_ofText_eq_ok {text code : String} {steps : List Step}
    (h : (Trace.ofText text).toOption.map (fun t => (t.code, t.steps)) = some (code, steps)) :
    ∃ trace, Trace.ofText text = .ok trace ∧ trace.code = code ∧ trace.steps = steps := by
  obtain ⟨trace, hload, hpair⟩ := Option.map_eq_some_iff.mp h
  obtain ⟨hcode, hsteps⟩ := Prod.mk.inj hpair
  exact ⟨trace, eq_ok_of_toOption hload, hcode, hsteps⟩

/-- The text of a trace of `f(n);` with the nodes of a call and its argument, which is a parameter. -/
def parameterTrace : String :=
  "\x7b\"code\":\"f(n);\",\"nodes\":[\x7b\"id\":1,\"range\":[1,1,1,4]\x7d," ++
    "\x7b\"id\":2,\"parentId\":1,\"range\":[1,3,1,3]\x7d]," ++
    "\"steps\":[\x7b\"action\":\"par\",\"nodeId\":2,\"dataType\":\"int\",\"dataValue\":3\x7d]\x7d"

/-- The step of that trace: its range is the node's, its scope that of the node above. -/
def parameterSteps : List Step :=
  [{ action := .parameter, node := some 2, range := some ⟨⟨1, 3⟩, ⟨1, 4⟩⟩,
     value := some ⟨"int", .int 3⟩, scope := some ⟨⟨1, 1⟩, ⟨1, 5⟩⟩ }]

/-- The trace is well-formed and loaded, with its ranges in the text. -/
theorem parameterTrace_loads : ∃ raw trace,
    (Json.read? parameterTrace).bind RawTrace.ofJson? = some raw ∧ raw.WellFormed ∧ raw.Fits ∧
    Trace.ofText parameterTrace = .ok trace ∧ trace.steps = parameterSteps ∧
    ∀ r ∈ trace.spans, r.OnPositions trace.code.toList := by
  have hread : ((Json.read? parameterTrace).bind RawTrace.ofJson?).map
      (fun raw => (raw.code, raw.wires, raw.resolve.toOption.map Trace.steps)) =
        some ("f(n);", [.location 1 1 1 4, .location 1 3 1 3], some parameterSteps) := by
    decide +kernel
  obtain ⟨raw, hraw, hread⟩ := Option.map_eq_some_iff.mp hread
  obtain ⟨hcode, hread⟩ := Prod.mk.inj hread
  obtain ⟨hwires, hsteps⟩ := Prod.mk.inj hread
  obtain ⟨trace, hresolve, hsteps⟩ := Option.map_eq_some_iff.mp hsteps
  have hload : Trace.ofText parameterTrace = .ok trace := by
    rw [Trace.ofText, hraw]
    exact eq_ok_of_toOption hresolve
  have hfits : raw.Fits := by
    unfold RawTrace.Fits RawTrace.index
    rw [hcode, hwires]
    decide
  have hloads := (Trace.ofText_accepts_wellFormed parameterTrace).2 raw hraw
  exact ⟨raw, trace, hraw, hloads.accepted.mp ⟨trace, hload⟩, hfits, hload, hsteps,
    hloads.onPositions hfits trace hload⟩

/-- The text of a trace with one statement, from the greatest column of the second line to the third. -/
def columnBeyondTrace : String :=
  "\x7b\"code\":\"ab\\ncd\\nef\",\"steps\":[\x7b\"action\":\"stat\"," ++
    "\"location\":[2,18446744073709551615,3,1]\x7d]\x7d"

/-- The trace is loaded, and its statement begins at no position of the source. -/
theorem columnBeyondTrace_loads : ∃ trace, Trace.ofText columnBeyondTrace = .ok trace ∧
    trace.code = LineIndex.threeLines ∧
    ⟨⟨2, 18446744073709551615⟩, ⟨3, 2⟩⟩ ∈ trace.spans ∧
    ¬ SourceRange.OnPositions ⟨⟨2, 18446744073709551615⟩, ⟨3, 2⟩⟩ trace.code.toList := by
  have hresult : (Trace.ofText columnBeyondTrace).toOption.map (fun t => (t.code, t.steps)) =
      some (LineIndex.threeLines,
        [{ action := .statement, range := some ⟨⟨2, 18446744073709551615⟩, ⟨3, 2⟩⟩,
            label := some "l2:1" }]) := by
    decide +kernel
  obtain ⟨trace, hload, hcode, hsteps⟩ := exists_ofText_eq_ok hresult
  refine ⟨trace, hload, hcode, ?_, fun hposition => ?_⟩
  · rw [Trace.mem_spans_iff, hsteps]
    exact .inr ⟨_, List.mem_singleton_self _, .inl rfl⟩
  · rw [hcode] at hposition
    exact LineIndex.not_isPosition_threeLines (by decide) hposition.1

end Retrace
