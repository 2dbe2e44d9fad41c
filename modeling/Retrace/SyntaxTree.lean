import Retrace.Source.Location

/-!
# Syntax trees

A producer names every instrumented construct by a node with an id, its range and the id of its
parent. Nothing is promised about ids: of several nodes with one id the last counts, a parent may be
unknown, and parent links may run in circles. The walk to the root is therefore given up to a number
of nodes.

Models `SyntaxNode` and `NodeTree`.
-/

namespace Retrace

/-- A construct of the source. -/
structure SyntaxNode where
  id : Nat
  parentId : Option Nat
  range : SourceRange
  deriving DecidableEq, Repr

/-- The nodes of a trace, in the producer's order. -/
structure SyntaxTree where
  nodes : List SyntaxNode
  deriving DecidableEq, Repr

namespace SyntaxTree

/-- The last node of a list with an id. -/
def lastWith (id : Nat) : List SyntaxNode → Option SyntaxNode
  | [] => none
  | node :: rest => (lastWith id rest).or (if node.id = id then some node else none)

/-- The node that an id stands for. -/
def get? (tree : SyntaxTree) (id : Nat) : Option SyntaxNode := lastWith id tree.nodes

/-- The parent of the node that an id stands for, when it is known. -/
def parent? (tree : SyntaxTree) (id : Nat) : Option SyntaxNode :=
  ((tree.get? id).bind SyntaxNode.parentId).bind tree.get?

/-- The ids of the nodes that name `id` as their parent. -/
def children (tree : SyntaxTree) (id : Nat) : List Nat :=
  (tree.nodes.filter fun node => node.parentId == some id).map SyntaxNode.id

/-- The first `count` nodes of the walk from an id's parent towards the root. -/
def ancestors (tree : SyntaxTree) (id : Nat) : Nat → List SyntaxNode
  | 0 => []
  | count + 1 =>
    match tree.parent? id with
    | none => []
    | some node => node :: tree.ancestors node.id count

/-- The nodes without a known parent. -/
def roots (tree : SyntaxTree) : List SyntaxNode :=
  tree.nodes.filter fun node => ((node.parentId.bind tree.get?).isNone)

end SyntaxTree

end Retrace
