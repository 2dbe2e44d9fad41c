import Retrace.Source.WireRange
import Retrace.Trace.Basic

/-!
# Raw traces

The fields of a trace file before they are checked. `RawTrace.resolve` checks them in a fixed order:
the ranges of nodes, then each step's action, value, location and scope, then the nodes that steps
name. The first failing check is the error.

Models `RawTrace`, `RawNode` and `RawStep` with `resolve`.
-/

namespace Retrace

/-- A node as written. -/
structure RawNode where
  id : Nat
  parentId : Option Nat
  range : WireRange

/-- A step as written. -/
structure RawStep where
  action : String
  node : Option Nat
  location : Option WireRange
  identifier : Option String
  type : Option String
  value : Option Value
  scope : Option WireRange
  label : Option String
  text : Option String

/-- A trace as written. -/
structure RawTrace where
  code : String
  nodes : List RawNode
  steps : List RawStep
  types : List (String × Json)

/-- The range that a wire range stands for in a text. -/
def resolveRange (index : LineIndex) (wire : WireRange) : Except TraceError SourceRange :=
  match wire.resolve? index with
  | some range => .ok range
  | none => .error (.malformedLocation wire.quoted)

/-- An optional range, resolved when present. -/
def resolveOptional (index : LineIndex) : Option WireRange → Except TraceError (Option SourceRange)
  | none => .ok none
  | some wire => (resolveRange index wire).map some

/-- A node with its range resolved. -/
def RawNode.resolve (index : LineIndex) (raw : RawNode) : Except TraceError SyntaxNode :=
  (resolveRange index raw.range).map fun range => ⟨raw.id, raw.parentId, range⟩

namespace RawStep

/-- The value of a step: actions that carry one need both a type and a value. -/
def typedValue (raw : RawStep) (action : Action) : Except TraceError (Option TypedValue) :=
  match raw.type, raw.value with
  | some type, some value => .ok (some ⟨type, value⟩)
  | none, _ => if action.carriesValue then .error (.missingKey "dataType") else .ok none
  | some type, none =>
    if action.carriesValue then .error (.missingPayload action.name type) else .ok none

/-- A step with its action, value, location and scope checked. -/
def resolve (index : LineIndex) (raw : RawStep) : Except TraceError Step := do
  let action ←
    match Action.ofName? raw.action with
    | some action => .ok action
    | none => .error (.unknownAction raw.action)
  let value ← raw.typedValue action
  let range ← resolveOptional index raw.location
  let scope ← resolveOptional index raw.scope
  return {
    action := action
    node := raw.node
    range := range
    identifier := raw.identifier
    value := value
    scope := scope
    label := raw.label
    text := raw.text }

end RawStep

/-- The trace that raw fields describe. -/
def RawTrace.resolve (raw : RawTrace) : Except TraceError Trace := do
  let index := LineIndex.ofText raw.code.toList
  let nodes ← raw.nodes.mapM (RawNode.resolve index)
  let steps ← raw.steps.mapM (RawStep.resolve index)
  let trace ← Trace.build raw.code nodes steps
  return { trace with types := raw.types }

end Retrace
