import Retrace.Error
import Retrace.Json.Tree
import Retrace.SyntaxTree
import Retrace.Trace.Label

/-!
# Traces

A trace is the source text, its nodes and the steps of one run. Building it finishes what a producer
may leave open: a step that only names a node takes that node's range, a declaration or parameter
takes the range of its node's parent for its scope, and statements get labels.

Models `Trace` and its `new`.
-/

namespace Retrace

/-- A recorded run. The types of its values are kept as they came. -/
structure Trace where
  code : String
  tree : SyntaxTree
  steps : List Step
  types : List (String × Json)

namespace Trace

/-- A step with what its node says about range and scope; its node has to be known. -/
def placeStep (tree : SyntaxTree) (s : Step) : Except TraceError Step :=
  match s.node with
  | none => .ok s
  | some id =>
    match tree.get? id with
    | none => .error (.unknownNode id)
    | some node =>
      let around := (tree.parent? id).map SyntaxNode.range
      .ok { s with
        range := s.range.or (some node.range)
        scope := s.scope.or (if s.introducesVariable then around else none) }

/-- The trace of a run, with ranges, scopes and labels filled in. -/
def build (code : String) (nodes : List SyntaxNode) (steps : List Step) :
    Except TraceError Trace := do
  let tree : SyntaxTree := ⟨nodes⟩
  let placed ← steps.mapM (placeStep tree)
  return ⟨code, tree, Label.assign placed, []⟩

end Trace

end Retrace
