import Retrace.Proofs.Segments
import Retrace.SyntaxTree

/-!
# Nodes by their ids

Ids are looked up in a list of nodes that promises nothing about them. An id stands for the last node
that has it, and parents are looked up in the same way.

* `StandsFor`: the node that an id stands for, by the list of nodes.
* `IsParent`: the parent of that node.
* `SyntaxTree.get?_eq_some_iff`, `SyntaxTree.parent?_eq_some_iff`: these are the ones that are found.
* `SyntaxTree.isSome_get?_iff`: an id stands for a node when a node has it.
-/

namespace Retrace

/-- The node that an id stands for is the last one with that id. -/
def StandsFor (nodes : List SyntaxNode) (id : Nat) (node : SyntaxNode) : Prop :=
  node.id = id ∧ ∃ before after, nodes = before ++ node :: after ∧ ∀ other ∈ after, other.id ≠ id

/-- The parent of the node that an id stands for, when some node has the parent's id. -/
def IsParent (nodes : List SyntaxNode) (id : Nat) (parent : SyntaxNode) : Prop :=
  ∃ node parentId, StandsFor nodes id node ∧ node.parentId = some parentId ∧
    StandsFor nodes parentId parent

theorem StandsFor.mem {nodes : List SyntaxNode} {id : Nat} {node : SyntaxNode}
    (h : StandsFor nodes id node) : node ∈ nodes := by
  obtain ⟨-, before, after, rfl, -⟩ := h
  exact List.mem_append_right before List.mem_cons_self

namespace SyntaxTree

variable {nodes : List SyntaxNode} {tree : SyntaxTree} {id : Nat} {node parent : SyntaxNode}

theorem isSome_lastWith_iff :
    (lastWith id nodes).isSome = true ↔ id ∈ nodes.map SyntaxNode.id := by
  induction nodes with
  | nil => simp [lastWith]
  | cons other nodes ih =>
    rw [lastWith, Option.isSome_or, Bool.or_eq_true, ih, List.map_cons, List.mem_cons, or_comm,
      eq_comm (a := id)]
    by_cases h : other.id = id <;> simp [h]

theorem lastWith_eq_none_iff : lastWith id nodes = none ↔ ∀ node ∈ nodes, node.id ≠ id := by
  rw [← Option.not_isSome_iff_eq_none, isSome_lastWith_iff, List.mem_map]
  simp only [not_exists, not_and]

theorem lastWith_eq_some_iff : lastWith id nodes = some node ↔ StandsFor nodes id node := by
  unfold StandsFor
  induction nodes with
  | nil => simp [lastWith]
  | cons first rest ih =>
    rw [lastWith, Option.or_eq_some_iff, ih, lastWith_eq_none_iff, Option.ite_none_right_eq_some,
      Option.some_inj, Segment.exists_eq_append_cons_iff
        (p := fun after : List SyntaxNode => ∀ other ∈ after, other.id ≠ id)]
    constructor
    · rintro (⟨hid, hrest⟩ | ⟨hnone, hid, rfl⟩)
      · exact ⟨hid, .inr hrest⟩
      · exact ⟨hid, .inl ⟨rfl, hnone⟩⟩
    · rintro ⟨hid, ⟨rfl, hnone⟩ | hrest⟩
      · exact .inr ⟨hnone, hid, rfl⟩
      · exact .inl ⟨hid, hrest⟩

theorem isSome_get?_iff : (tree.get? id).isSome = true ↔ id ∈ tree.nodes.map SyntaxNode.id :=
  isSome_lastWith_iff

/-- **The node that is found for an id is the last one with it.** -/
theorem get?_eq_some_iff : tree.get? id = some node ↔ StandsFor tree.nodes id node :=
  lastWith_eq_some_iff

/-- **The parent that is found is the node that the parent's id stands for.** -/
theorem parent?_eq_some_iff : tree.parent? id = some parent ↔ IsParent tree.nodes id parent := by
  unfold parent? IsParent
  simp only [Option.bind_eq_some_iff, get?_eq_some_iff]
  constructor
  · rintro ⟨parentId, ⟨node, hnode, hid⟩, hparent⟩
    exact ⟨node, parentId, hnode, hid, hparent⟩
  · rintro ⟨node, parentId, hnode, hid, hparent⟩
    exact ⟨parentId, ⟨node, hnode, hid⟩, hparent⟩

theorem mem_of_get? (h : tree.get? id = some node) : node ∈ tree.nodes :=
  (get?_eq_some_iff.mp h).mem

theorem mem_of_parent? (h : tree.parent? id = some node) : node ∈ tree.nodes := by
  obtain ⟨_, _, -, -, hparent⟩ := parent?_eq_some_iff.mp h
  exact hparent.mem

end SyntaxTree

end Retrace
