import Mathlib.Data.List.Pairwise
import Mathlib.Order.Lattice
import Retrace.Segment

/-!
# Which segments stand

A later segment displaces every earlier one that it conflicts with, whether or not it is displaced
itself later on. So a segment stands exactly when no later one conflicts with it, and the order of
evictions does not matter.

* `standing`: the segments that no later one conflicts with, ordered by start.
* `nonOverlapping_eq_standing`: they are what is left after all evictions.
* `mem_undisplaced_iff`: which segments these are, by what comes after them.
* `pairwise_start_standing`, `pairwise_conflicts_standing`: their starts are distinct and in order,
  and no two of them conflict.
* `Span.stop_le_start_of_lt`: of two spans without conflict that are not reversed, the one that
  starts first ends before the other begins.
-/

namespace Retrace

variable {α : Type} [LinearOrder α]

/-! ## Conflicts of spans -/

namespace Span

theorem conflicts_comm (s t : Span α) : s.conflicts t = t.conflicts s := by
  unfold conflicts overlaps
  rw [Bool.or_comm (s.contains t), Bool.and_comm]

/-- Spans with one start conflict: one of them holds the other. -/
theorem conflicts_of_start_eq {s t : Span α} (h : s.start = t.start) : s.conflicts t = true := by
  unfold conflicts contains
  rcases le_total s.stop t.stop with hle | hle
  · simp [h, hle]
  · simp [h, hle]

theorem stop_le_start_of_lt {s t : Span α} (h : s.conflicts t = false) (hs : s.start < t.start)
    (ht : t.start ≤ t.stop) : s.stop ≤ t.start := by
  have hst : s.start < t.stop := lt_of_lt_of_le hs ht
  unfold conflicts overlaps at h
  simp only [Bool.or_eq_false_iff, Bool.and_eq_false_iff, decide_eq_false_iff_not, not_lt] at h
  rcases h.2 with h | h
  · exact absurd hst (not_lt.mpr h)
  · exact h

end Span

namespace Segment

/-! ## Eviction -/

/-- Whether a segment conflicts with one of a list. -/
def conflictsWithSome (s : Segment α) (later : List (Segment α)) : Bool :=
  later.any fun t => s.span.conflicts t.span

/-- The segments that no later one conflicts with, in order of evaluation. -/
def undisplaced : List (Segment α) → List (Segment α)
  | [] => []
  | s :: later => if s.conflictsWithSome later then undisplaced later else s :: undisplaced later

/-- The segments that no later one conflicts with, ordered by start. -/
def standing (segments : List (Segment α)) : List (Segment α) :=
  (undisplaced segments).mergeSort startsBy

/-- After more segments, those accepted before stand that none of them conflicts with. -/
theorem foldl_accept (segments accepted : List (Segment α)) :
    segments.foldl accept accepted =
      accepted.filter (fun s => !s.conflictsWithSome segments) ++ undisplaced segments := by
  induction segments generalizing accepted with
  | nil =>
    rw [undisplaced, List.append_nil]
    exact (List.filter_eq_self.mpr fun _ _ => rfl).symm
  | cons s later ih =>
    have hfilter : ∀ kept : Segment α, (!kept.conflictsWithSome (s :: later)) =
        ((!kept.span.conflicts s.span) && !kept.conflictsWithSome later) := by
      intro kept
      unfold conflictsWithSome
      rw [List.any_cons, Bool.not_or]
    rw [List.foldl_cons, ih, accept, List.filter_append, List.filter_filter, undisplaced]
    simp only [hfilter, Bool.and_comm]
    by_cases h : s.conflictsWithSome later = true
    · simp [h]
    · simp [h]

/-- **Eviction in order of evaluation leaves the segments that no later one conflicts with.** -/
theorem nonOverlapping_eq_standing (segments : List (Segment α)) :
    nonOverlapping segments = standing segments := by
  unfold nonOverlapping standing
  rw [foldl_accept]
  rfl

/-! ## What stands is in order -/

theorem conflictsWithSome_eq_false_iff {s : Segment α} {later : List (Segment α)} :
    s.conflictsWithSome later = false ↔ ∀ t ∈ later, s.span.conflicts t.span = false := by
  unfold conflictsWithSome
  simp only [List.any_eq_false, Bool.not_eq_true]

theorem undisplaced_sublist (segments : List (Segment α)) :
    (undisplaced segments).Sublist segments := by
  induction segments with
  | nil => exact List.Sublist.refl []
  | cons s later ih =>
    unfold undisplaced
    split
    · exact ih.cons s
    · exact ih.cons_cons s

theorem pairwise_conflicts_undisplaced (segments : List (Segment α)) :
    (undisplaced segments).Pairwise fun s t => s.span.conflicts t.span = false := by
  induction segments with
  | nil => exact List.Pairwise.nil
  | cons s later ih =>
    unfold undisplaced
    split
    · exact ih
    · rename_i h
      refine List.Pairwise.cons (fun t ht => ?_) ih
      have hlater := (undisplaced_sublist later).subset ht
      exact conflictsWithSome_eq_false_iff.mp (Bool.eq_false_iff.mpr h) t hlater

/-- An element of a list is its head or stands in its tail, with the same elements behind it. -/
theorem exists_eq_append_cons_iff {β : Type} {u s : β} {xs : List β} {p : List β → Prop} :
    (∃ earlier later, u :: xs = earlier ++ s :: later ∧ p later) ↔
      (u = s ∧ p xs) ∨ ∃ earlier later, xs = earlier ++ s :: later ∧ p later := by
  constructor
  · rintro ⟨earlier, later, h, hp⟩
    cases earlier with
    | nil =>
      obtain ⟨rfl, rfl⟩ := List.cons.inj h
      exact Or.inl ⟨rfl, hp⟩
    | cons v earlier =>
      obtain ⟨rfl, rfl⟩ := List.cons.inj h
      exact Or.inr ⟨earlier, later, rfl, hp⟩
  · rintro (⟨rfl, hp⟩ | ⟨earlier, later, rfl, hp⟩)
    · exact ⟨[], xs, rfl, hp⟩
    · exact ⟨u :: earlier, later, rfl, hp⟩

/-- Standing is a matter of later segments only. -/
theorem mem_undisplaced_iff {segments : List (Segment α)} {s : Segment α} :
    s ∈ undisplaced segments ↔ ∃ earlier later, segments = earlier ++ s :: later ∧
      ∀ t ∈ later, s.span.conflicts t.span = false := by
  induction segments with
  | nil => simp [undisplaced]
  | cons u segments ih =>
    rw [exists_eq_append_cons_iff, ← ih, ← conflictsWithSome_eq_false_iff, undisplaced]
    split
    · rename_i hu
      refine ⟨Or.inr, fun h => h.resolve_left ?_⟩
      rintro ⟨rfl, hs⟩
      rw [hu] at hs
      exact Bool.noConfusion hs
    · rename_i hu
      rw [List.mem_cons]
      constructor
      · rintro (rfl | hs)
        · exact Or.inl ⟨rfl, Bool.eq_false_iff.mpr hu⟩
        · exact Or.inr hs
      · rintro (⟨rfl, -⟩ | hs)
        · exact Or.inl rfl
        · exact Or.inr hs

theorem perm_standing (segments : List (Segment α)) :
    (standing segments).Perm (undisplaced segments) :=
  List.mergeSort_perm _ _

/-- **No two standing segments conflict.** -/
theorem pairwise_conflicts_standing (segments : List (Segment α)) :
    (standing segments).Pairwise fun s t => s.span.conflicts t.span = false := by
  refine (perm_standing segments).symm.pairwise (pairwise_conflicts_undisplaced segments) ?_
  intro s t h
  rw [Span.conflicts_comm]
  exact h

/-- **Standing segments have distinct starts, in order.** -/
theorem pairwise_start_standing (segments : List (Segment α)) :
    (standing segments).Pairwise fun s t => s.span.start < t.span.start := by
  have hle : (standing segments).Pairwise fun s t => startsBy s t = true := by
    refine List.pairwise_mergeSort (fun s t u hst htu => ?_) (fun s t => ?_) _
    · simp only [startsBy, decide_eq_true_eq] at *
      exact le_trans hst htu
    · simp only [startsBy, Bool.or_eq_true, decide_eq_true_eq]
      exact le_total _ _
  refine (hle.and (pairwise_conflicts_standing segments)).imp fun {s t} ⟨hst, hc⟩ => ?_
  refine lt_of_le_of_ne (of_decide_eq_true hst) fun heq => ?_
  rw [Span.conflicts_of_start_eq heq] at hc
  exact Bool.noConfusion hc

end Segment

end Retrace
