import Mathlib.Data.Finset.Card
import Mathlib.Data.List.Chain
import Mathlib.Data.List.Nodup
import Mathlib.Data.Nat.Order.Lemmas
import Retrace.Proofs.SyntaxTree

/-!
# Walks towards the root

A trace may name a node more than once, name parents that it does not hold and close parent links to a
circle. The walk from a node's parent towards the root depends on the id that it has come to alone, so a
repeated id brings it back, and a walk without a repeated id runs out of ids.

* `SyntaxTree.Ends`: the walk comes to an end.
* `IsWayUp`: the nodes of a walk that does; `SyntaxTree.isWayUp_ancestors`.
* `SyntaxTree.exists_cycle`: a repeated id takes the walk round and round.
* `SyntaxTree.ends_iff`: the walk ends when no id is repeated.
* `SyntaxTree.isChain_children`: every node of the walk lists the one before it as a child.
* `SyntaxTree.hasOnePlace`: with ids that tell nodes apart, a node is a root or one node's child.
* `SyntaxTree.ancestors_spec`: all of this.
-/

namespace Retrace

/-- The nodes above an id: its parent, the parent of that, and so on up to a node without a known one. -/
structure IsWayUp (nodes : List SyntaxNode) (id : Nat) (walk : List SyntaxNode) : Prop where
  first : ∀ parent, walk.head? = some parent ↔ IsParent nodes id parent
  next : walk.IsChain fun node parent => IsParent nodes node.id parent
  last : ∀ top, walk.getLast? = some top → ∀ parent, ¬ IsParent nodes top.id parent

/-- Node ids that tell all nodes apart. -/
def DistinctIds (nodes : List SyntaxNode) : Prop := (nodes.map SyntaxNode.id).Nodup

/-- A node repeats an id of nodes that stand before it. -/
theorem DistinctIds.exists_eq_append {nodes : List SyntaxNode} {again : SyntaxNode}
    (h : DistinctIds nodes) (hrepeat : ¬ DistinctIds (nodes ++ [again])) :
    ∃ before first between, nodes = before ++ first :: between ∧ first.id = again.id := by
  have hmem : again.id ∈ nodes.map SyntaxNode.id := by
    by_contra hfresh
    rw [DistinctIds, List.map_append, List.map_singleton, ← List.concat_eq_append] at hrepeat
    exact hrepeat (h.concat hfresh)
  obtain ⟨first, hfirst, hid⟩ := List.mem_map.mp hmem
  obtain ⟨before, between, hsplit⟩ := List.append_of_mem hfirst
  exact ⟨before, first, between, hsplit, hid⟩

namespace SyntaxTree

/-- The walk from an id ends: it gives fewer nodes than are asked for. -/
def Ends (tree : SyntaxTree) (id : Nat) : Prop := ∃ count, (tree.ancestors id count).length < count

/-- A node is a root and no node's child, or its parent lists it once and no other node does. -/
def HasOnePlace (tree : SyntaxTree) (node : SyntaxNode) : Prop :=
  (node ∈ tree.roots ∧ ∀ known ∈ tree.nodes, node.id ∉ tree.children known.id) ∨
    (node ∉ tree.roots ∧ ∃ parent ∈ tree.nodes, IsParent tree.nodes node.id parent ∧
      ∀ known ∈ tree.nodes,
        (tree.children known.id).count node.id = if known = parent then 1 else 0)

variable {tree : SyntaxTree} {id other count : Nat} {node parent : SyntaxNode}
  {walk before between : List SyntaxNode}

/-! ## The walk -/

theorem ancestors_succ_of_eq_some (h : tree.parent? id = some parent) (count : Nat) :
    tree.ancestors id (count + 1) = parent :: tree.ancestors parent.id count := by
  rw [ancestors, h]

theorem ancestors_of_eq_none (h : tree.parent? id = none) (count : Nat) :
    tree.ancestors id count = [] := by
  cases count with
  | zero => rfl
  | succ count => rw [ancestors, h]

theorem head?_ancestors_succ (count : Nat) :
    (tree.ancestors id (count + 1)).head? = tree.parent? id := by
  cases hparent : tree.parent? id with
  | none => rw [ancestors_of_eq_none hparent]; rfl
  | some parent => rw [ancestors_succ_of_eq_some hparent]; rfl

theorem isParent_of_head?_ancestors (h : (tree.ancestors id count).head? = some parent) :
    IsParent tree.nodes id parent := by
  cases count with
  | zero => exact absurd h nofun
  | succ count => rwa [head?_ancestors_succ, parent?_eq_some_iff] at h

theorem take_ancestors {shorter : Nat} (h : shorter ≤ count) :
    (tree.ancestors id count).take shorter = tree.ancestors id shorter := by
  induction count generalizing id shorter with
  | zero => rw [Nat.le_zero.mp h]; rfl
  | succ count ih =>
    cases shorter with
    | zero => rfl
    | succ shorter =>
      cases hparent : tree.parent? id with
      | none => rw [ancestors_of_eq_none hparent, ancestors_of_eq_none hparent, List.take_nil]
      | some parent =>
        rw [ancestors_succ_of_eq_some hparent, ancestors_succ_of_eq_some hparent,
          List.take_succ_cons, ih (Nat.le_of_succ_le_succ h)]

theorem length_ancestors_le (tree : SyntaxTree) (id count : Nat) :
    (tree.ancestors id count).length ≤ count := by
  rw [← take_ancestors (le_refl count)]
  exact List.length_take_le count _

/-- A walk that stopped gives no more nodes when more are asked for. -/
theorem ancestors_eq_take (h : (tree.ancestors id count).length < count) (n : Nat) :
    tree.ancestors id n = (tree.ancestors id count).take n := by
  rcases Nat.le_total n count with hn | hn
  · exact (take_ancestors hn).symm
  · have htake : (tree.ancestors id n).take count = tree.ancestors id count := take_ancestors hn
    have hshort : (tree.ancestors id n).length ≤ count := by
      have hlength := congrArg List.length htake
      rw [List.length_take] at hlength
      omega
    rw [List.take_of_length_le hshort] at htake
    rw [htake, List.take_of_length_le (by omega)]

/-- The walk depends on the next node alone. -/
theorem ancestors_congr (h : tree.parent? id = tree.parent? other) (count : Nat) :
    tree.ancestors id count = tree.ancestors other count := by
  cases count with
  | zero => rfl
  | succ count => rw [ancestors, ancestors, h]

/-- Behind some of its nodes the walk goes on as one from another id. -/
theorem exists_ancestors_add (h : tree.ancestors id walk.length = walk) :
    ∃ reached, ∀ count,
      tree.ancestors id (walk.length + count) = walk ++ tree.ancestors reached count := by
  induction walk generalizing id with
  | nil => exact ⟨id, fun count => by rw [List.length_nil, Nat.zero_add, List.nil_append]⟩
  | cons first walk ih =>
    cases hparent : tree.parent? id with
    | none => rw [ancestors_of_eq_none hparent] at h; exact absurd h (List.cons_ne_nil _ _).symm
    | some parent =>
      rw [List.length_cons, ancestors_succ_of_eq_some hparent, List.cons.injEq] at h
      obtain ⟨rfl, hwalk⟩ := h
      obtain ⟨reached, hreached⟩ := ih hwalk
      refine ⟨reached, fun count => ?_⟩
      rw [List.length_cons, Nat.add_right_comm, ancestors_succ_of_eq_some hparent, hreached,
        List.cons_append]

/-- Asking for one node more gives at most that. -/
theorem ancestors_succ_eq (tree : SyntaxTree) (id count : Nat) :
    tree.ancestors id (count + 1) = tree.ancestors id count ∨
      (tree.ancestors id count).length = count ∧
        ∃ node, tree.ancestors id (count + 1) = tree.ancestors id count ++ [node] := by
  rcases Nat.lt_or_eq_of_le (length_ancestors_le tree id count) with hlt | hlength
  · exact .inl (by rw [ancestors_eq_take hlt, List.take_of_length_le (by omega)])
  · have hwalk : tree.ancestors id (tree.ancestors id count).length = tree.ancestors id count := by
      rw [hlength]
    obtain ⟨reached, hreached⟩ := exists_ancestors_add hwalk
    rw [hlength] at hreached
    rw [hreached]
    cases hparent : tree.parent? reached with
    | none => exact .inl (by rw [ancestors_of_eq_none hparent, List.append_nil])
    | some parent => exact .inr ⟨hlength, parent, by rw [ancestors_succ_of_eq_some hparent]; rfl⟩

theorem get?_id_of_mem_ancestors (h : node ∈ tree.ancestors id count) :
    tree.get? node.id = some node := by
  induction count generalizing id with
  | zero => exact absurd h List.not_mem_nil
  | succ count ih =>
    cases hparent : tree.parent? id with
    | none => rw [ancestors_of_eq_none hparent] at h; exact absurd h List.not_mem_nil
    | some parent =>
      rw [ancestors_succ_of_eq_some hparent, List.mem_cons] at h
      obtain rfl | h := h
      · obtain ⟨_, _, -, -, hnode⟩ := parent?_eq_some_iff.mp hparent
        rw [get?_eq_some_iff, hnode.1]
        exact hnode
      · exact ih h

theorem eq_of_mem_ancestors {n : Nat} {again : SyntaxNode} (hnode : node ∈ tree.ancestors id count)
    (hagain : again ∈ tree.ancestors id n) (h : node.id = again.id) : node = again := by
  have hget := get?_id_of_mem_ancestors hnode
  rw [h, get?_id_of_mem_ancestors hagain] at hget
  exact (Option.some.inj hget).symm

/-! ## Walks that end -/

theorem isChain_ancestors :
    (tree.ancestors id count).IsChain fun node parent => IsParent tree.nodes node.id parent := by
  induction count generalizing id with
  | zero => exact List.isChain_nil
  | succ count ih =>
    cases hparent : tree.parent? id with
    | none => rw [ancestors_of_eq_none hparent]; exact List.isChain_nil
    | some parent =>
      rw [ancestors_succ_of_eq_some hparent, List.isChain_cons]
      exact ⟨fun _ => isParent_of_head?_ancestors, ih⟩

/-- Where a walk has ended there is no parent to go on to. -/
theorem parent?_getLastD_ancestors (h : (tree.ancestors id count).length < count) :
    tree.parent? (((tree.ancestors id count).map SyntaxNode.id).getLastD id) = none := by
  induction count generalizing id with
  | zero => exact absurd h (Nat.not_lt_zero _)
  | succ count ih =>
    cases hparent : tree.parent? id with
    | none => rw [ancestors_of_eq_none hparent]; exact hparent
    | some parent =>
      rw [ancestors_succ_of_eq_some hparent] at h ⊢
      rw [List.map_cons, List.getLastD_cons]
      exact ih (Nat.lt_of_succ_lt_succ h)

/-- **A walk that ends goes from parent to parent, up to a node without a known one.** -/
theorem isWayUp_ancestors (h : (tree.ancestors id count).length < count) :
    IsWayUp tree.nodes id (tree.ancestors id count) where
  first parent := by
    obtain ⟨count, rfl⟩ := Nat.exists_eq_succ_of_ne_zero (Nat.ne_zero_of_lt h)
    rw [head?_ancestors_succ, parent?_eq_some_iff]
  next := isChain_ancestors
  last top htop parent hparent := by
    have hnone := parent?_getLastD_ancestors h
    rw [List.getLastD_eq_getLast?, List.getLast?_map, htop] at hnone
    exact absurd (parent?_eq_some_iff.mpr hparent) (hnone ▸ nofun)

theorem length_ancestors_le_card (h : DistinctIds (tree.ancestors id count)) :
    (tree.ancestors id count).length ≤ (tree.nodes.map SyntaxNode.id).toFinset.card := by
  rw [← List.length_map SyntaxNode.id, ← List.toFinset_card_of_nodup h]
  refine Finset.card_le_card fun other hother => ?_
  obtain ⟨node, hnode, rfl⟩ := List.mem_map.mp (List.mem_toFinset.mp hother)
  exact List.mem_toFinset.mpr
    (List.mem_map_of_mem (mem_of_get? (get?_id_of_mem_ancestors hnode)))

/-! ## Walks that do not -/

/-- The walk from the id that a walk has come to when it has given the nodes of a list. -/
theorem exists_reached {rest : List SyntaxNode}
    (h : tree.ancestors id (walk ++ rest).length = walk ++ rest) :
    ∃ reached, tree.ancestors reached rest.length = rest ∧ ∀ count,
      tree.ancestors id (walk.length + count) = walk ++ tree.ancestors reached count := by
  have hwalk : tree.ancestors id walk.length = walk := by
    rw [← take_ancestors (List.length_append ▸ Nat.le_add_right _ _), h, List.take_left]
  obtain ⟨reached, hreached⟩ := exists_ancestors_add hwalk
  refine ⟨reached, ?_, hreached⟩
  rwa [List.length_append, hreached, List.append_cancel_left_eq] at h

theorem parent?_of_ancestors_eq_cons (h : tree.ancestors id (count + 1) = parent :: walk) :
    tree.parent? id = some parent := by
  rw [← head?_ancestors_succ count, h, List.head?_cons]

/-- A walk that comes back to a node gives the nodes from there on again and again. -/
theorem ancestors_rounds {first : SyntaxNode}
    (h : tree.ancestors id (before ++ (first :: between ++ [first])).length =
      before ++ (first :: between ++ [first])) (rounds : Nat) :
    tree.ancestors id (before.length + rounds * (between.length + 1)) =
      before ++ (List.replicate rounds (first :: between)).flatten := by
  obtain ⟨start, hstart, hbefore⟩ := exists_reached h
  obtain ⟨back, hback, hround⟩ := exists_reached hstart
  -- Both walks give `first` next, so the second is the first over again.
  have hsame : tree.parent? back = tree.parent? start := by
    rw [parent?_of_ancestors_eq_cons hback, parent?_of_ancestors_eq_cons hstart]
  have hrounds (rounds : Nat) : tree.ancestors start (rounds * (between.length + 1)) =
      (List.replicate rounds (first :: between)).flatten := by
    induction rounds with
    | zero => rw [Nat.zero_mul]; rfl
    | succ rounds ih =>
      rw [Nat.succ_mul, Nat.add_comm, ← List.length_cons, hround, ancestors_congr hsame,
        List.length_cons, ih, List.replicate_succ, List.flatten_cons]
  rw [hbefore, hrounds]

/-- The first repetition of an id on a walk. -/
theorem exists_first_repetition (h : ¬ DistinctIds (tree.ancestors id count)) :
    ∃ before first between, DistinctIds (before ++ first :: between) ∧
      tree.ancestors id (before ++ (first :: between ++ [first])).length =
        before ++ (first :: between ++ [first]) := by
  obtain ⟨distinct, hdistinct, hrepeat⟩ := Nat.exists_not_and_succ_of_not_zero_of_exists
    (p := fun count => ¬ DistinctIds (tree.ancestors id count)) (not_not.mpr List.nodup_nil)
    ⟨count, h⟩
  replace hdistinct := not_not.mp hdistinct
  -- The node that makes the difference has the id of one before it, and an id stands for one node.
  obtain heq | ⟨hlength, again, hagain⟩ := ancestors_succ_eq tree id distinct
  · exact absurd (heq ▸ hdistinct) hrepeat
  obtain ⟨before, first, between, hsplit, hid⟩ := hdistinct.exists_eq_append (hagain ▸ hrepeat)
  have hfirst : first ∈ tree.ancestors id distinct :=
    hsplit ▸ List.mem_append_right _ List.mem_cons_self
  have hlast : again ∈ tree.ancestors id (distinct + 1) :=
    hagain ▸ List.mem_append_right _ List.mem_cons_self
  obtain rfl := eq_of_mem_ancestors hfirst hlast hid
  rw [hsplit] at hdistinct hagain hlength
  refine ⟨before, first, between, hdistinct, ?_⟩
  rw [← List.append_assoc, List.length_append, hlength]
  exact hagain

/-- **A repeated id takes the walk round and round.** -/
theorem exists_cycle (h : ¬ DistinctIds (tree.ancestors id count)) :
    ∃ before cycle, cycle ≠ [] ∧ DistinctIds (before ++ cycle) ∧ ∀ rounds,
      tree.ancestors id (before.length + rounds * cycle.length) =
        before ++ (List.replicate rounds cycle).flatten := by
  obtain ⟨before, first, between, hdistinct, hwalk⟩ := exists_first_repetition h
  exact ⟨before, first :: between, List.cons_ne_nil _ _, hdistinct, ancestors_rounds hwalk⟩

theorem distinctIds_ancestors_of_ends (h : tree.Ends id) (count : Nat) :
    DistinctIds (tree.ancestors id count) := by
  by_contra hrepeat
  obtain ⟨before, cycle, hcycle, -, hrounds⟩ := exists_cycle hrepeat
  obtain ⟨stop, hstop⟩ := h
  have hlength := congrArg List.length (hrounds stop)
  rw [List.length_append, List.length_flatten, List.map_replicate, List.sum_replicate_nat] at hlength
  have hlong : stop ≤ before.length + stop * cycle.length :=
    Nat.le_add_left_of_le (Nat.le_mul_of_pos_right stop (List.length_pos_iff.mpr hcycle))
  rw [← take_ancestors hlong, List.length_take, hlength] at hstop
  omega

/-- **The walk from an id ends when no id is repeated on it.** -/
theorem ends_iff : tree.Ends id ↔ ∀ count, DistinctIds (tree.ancestors id count) :=
  ⟨distinctIds_ancestors_of_ends,
    fun h => ⟨_, Nat.lt_succ_of_le (length_ancestors_le_card (h _))⟩⟩

/-! ## Children and roots -/

theorem mem_children_iff :
    other ∈ tree.children id ↔ ∃ node ∈ tree.nodes, node.parentId = some id ∧ node.id = other := by
  simp only [children, List.mem_map, List.mem_filter, beq_iff_eq, and_assoc]

theorem mem_roots_iff : node ∈ tree.roots ↔
    node ∈ tree.nodes ∧ ∀ known ∈ tree.nodes, node.parentId ≠ some known.id := by
  simp only [roots, List.mem_filter, Option.isNone_iff_eq_none, Option.bind_eq_none_iff, get?,
    lastWith_eq_none_iff]
  exact and_congr_right fun _ =>
    ⟨fun h known hknown hid => h known.id hid known hknown rfl,
      fun h id hid known hknown heq => h known hknown (heq ▸ hid)⟩

theorem mem_children_of_isParent (h : IsParent tree.nodes id parent) :
    id ∈ tree.children parent.id := by
  obtain ⟨node, _, hnode, hid, hparent⟩ := h
  exact mem_children_iff.mpr ⟨node, hnode.mem, hparent.1 ▸ hid, hnode.1⟩

/-- **Every node of a walk lists the one before it as a child.** -/
theorem isChain_children : (id :: (tree.ancestors id count).map SyntaxNode.id).IsChain
    fun child parent => child ∈ tree.children parent := by
  rw [List.isChain_cons, List.isChain_map]
  refine ⟨fun other hother => ?_, isChain_ancestors.imp fun _ _ => mem_children_of_isParent⟩
  rw [List.head?_map] at hother
  obtain ⟨parent, hparent, rfl⟩ := Option.map_eq_some_iff.mp hother
  exact mem_children_of_isParent (isParent_of_head?_ancestors hparent)

section DistinctIds

variable (hn : DistinctIds tree.nodes)

include hn

theorem eq_of_id_eq (hnode : node ∈ tree.nodes) (hparent : parent ∈ tree.nodes)
    (h : node.id = parent.id) : node = parent :=
  List.inj_on_of_nodup_map hn hnode hparent h

theorem get?_id_of_mem (h : node ∈ tree.nodes) : tree.get? node.id = some node := by
  obtain ⟨other, hother⟩ := Option.isSome_iff_exists.mp (isSome_get?_iff.mpr (List.mem_map_of_mem h))
  rw [hother, eq_of_id_eq hn (mem_of_get? hother) h (get?_eq_some_iff.mp hother).1]

theorem count_children (h : node ∈ tree.nodes) (id : Nat) :
    (tree.children id).count node.id = if node.parentId = some id then 1 else 0 := by
  have hnodup : (tree.children id).Nodup := hn.sublist (List.filter_sublist.map _)
  have hiff : node.id ∈ tree.children id ↔ node.parentId = some id := by
    rw [mem_children_iff]
    constructor
    · rintro ⟨other, hother, hparent, hid⟩
      exact eq_of_id_eq hn hother h hid ▸ hparent
    · exact fun hparent => ⟨node, h, hparent, rfl⟩
  rw [hnodup.count]
  simp only [hiff]

/-- **Where ids tell nodes apart, a node is a root, or it is listed as a child once.** -/
theorem hasOnePlace (h : node ∈ tree.nodes) : tree.HasOnePlace node := by
  by_cases hroot : node ∈ tree.roots
  · refine .inl ⟨hroot, fun known hknown hchild => ?_⟩
    obtain ⟨other, hother, hparent, hid⟩ := mem_children_iff.mp hchild
    obtain rfl := eq_of_id_eq hn hother h hid
    exact (mem_roots_iff.mp hroot).2 known hknown hparent
  · have hparent : ∃ parent ∈ tree.nodes, node.parentId = some parent.id := by
      by_contra hnone
      exact hroot (mem_roots_iff.mpr ⟨h, fun known hknown hid => hnone ⟨known, hknown, hid⟩⟩)
    obtain ⟨parent, hmem, hid⟩ := hparent
    refine .inr ⟨hroot, parent, hmem, ?_, fun known hknown => ?_⟩
    · exact ⟨node, parent.id, get?_eq_some_iff.mp (get?_id_of_mem hn h), hid,
        get?_eq_some_iff.mp (get?_id_of_mem hn hmem)⟩
    · have hiff : node.parentId = some known.id ↔ known = parent := by
        rw [hid, Option.some_inj]
        exact ⟨fun heq => eq_of_id_eq hn hknown hmem heq.symm, fun heq => heq ▸ rfl⟩
      rw [count_children hn h]
      simp only [hiff]

end DistinctIds

/-- **The walk from an id's parent towards the root ends exactly when it repeats no id.** Then it goes
from parent to parent up to a node without a known one, and takes no more nodes than there are ids;
otherwise it comes to a circle of nodes and gives them for ever. In either case each of its nodes is the
parent of the one before it, which it lists as a child; and where ids tell nodes apart, every node is a
root or the child of one node. -/
theorem ancestors_spec (tree : SyntaxTree) (id : Nat) :
    (tree.Ends id ↔ ∀ count, DistinctIds (tree.ancestors id count)) ∧
    (tree.Ends id → ∃ walk, (∀ count, tree.ancestors id count = walk.take count) ∧
      IsWayUp tree.nodes id walk ∧ DistinctIds walk ∧
      walk.length ≤ (tree.nodes.map SyntaxNode.id).toFinset.card) ∧
    (¬ tree.Ends id → ∃ before cycle, cycle ≠ [] ∧ DistinctIds (before ++ cycle) ∧ ∀ rounds,
      tree.ancestors id (before.length + rounds * cycle.length) =
        before ++ (List.replicate rounds cycle).flatten) ∧
    (∀ count,
      (tree.ancestors id count).IsChain (fun node parent => IsParent tree.nodes node.id parent) ∧
      (id :: (tree.ancestors id count).map SyntaxNode.id).IsChain
        fun child parent => child ∈ tree.children parent) ∧
    (DistinctIds tree.nodes → ∀ node ∈ tree.nodes, tree.HasOnePlace node) := by
  refine ⟨ends_iff, fun h => ?_, fun h => ?_, fun _ => ⟨isChain_ancestors, isChain_children⟩,
    fun hn _ => hasOnePlace hn⟩
  · obtain ⟨count, hcount⟩ := h
    have hdistinct := distinctIds_ancestors_of_ends ⟨count, hcount⟩ count
    exact ⟨tree.ancestors id count, ancestors_eq_take hcount, isWayUp_ancestors hcount, hdistinct,
      length_ancestors_le_card hdistinct⟩
  · obtain ⟨count, hcount⟩ := not_forall.mp (mt ends_iff.mpr h)
    exact exists_cycle hcount

/-- Two statements in the block of a function. -/
def nestedTree : SyntaxTree :=
  ⟨[⟨1, none, .ofInclusive 1 1 1 40⟩, ⟨2, some 1, .ofInclusive 1 12 1 40⟩,
    ⟨3, some 2, .ofInclusive 1 14 1 23⟩, ⟨4, some 2, .ofInclusive 1 25 1 33⟩]⟩

/-- Two nodes that are one another's parent, and a third one below them. -/
def knottedTree : SyntaxTree :=
  ⟨[⟨1, some 2, .ofInclusive 1 1 1 40⟩, ⟨2, some 1, .ofInclusive 1 12 1 40⟩,
    ⟨3, some 2, .ofInclusive 1 14 1 23⟩]⟩

theorem ancestors_nested_knotted :
    (nestedTree.Ends 4 ∧ ∃ walk, (∀ count, nestedTree.ancestors 4 count = walk.take count) ∧
      IsWayUp nestedTree.nodes 4 walk ∧ DistinctIds walk ∧
      walk.length ≤ (nestedTree.nodes.map SyntaxNode.id).toFinset.card) ∧
    (¬ knottedTree.Ends 3 ∧ ∃ before cycle, cycle ≠ [] ∧ DistinctIds (before ++ cycle) ∧ ∀ rounds,
      knottedTree.ancestors 3 (before.length + rounds * cycle.length) =
        before ++ (List.replicate rounds cycle).flatten) ∧
    (DistinctIds nestedTree.nodes ∧ ∀ node ∈ nestedTree.nodes, nestedTree.HasOnePlace node) := by
  obtain ⟨-, hwalk, -, -, hplaces⟩ := ancestors_spec nestedTree 4
  obtain ⟨hends, -, hcycle, -, -⟩ := ancestors_spec knottedTree 3
  have hnested : nestedTree.Ends 4 := ⟨3, by decide⟩
  have hknotted : ¬ knottedTree.Ends 3 := fun h => absurd (hends.mp h 3) (by unfold DistinctIds; decide)
  have hdistinct : DistinctIds nestedTree.nodes := by unfold DistinctIds; decide
  exact ⟨⟨hnested, hwalk hnested⟩, ⟨hknotted, hcycle hknotted⟩, hdistinct, hplaces hdistinct⟩

end SyntaxTree

end Retrace
