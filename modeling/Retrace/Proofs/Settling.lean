import Retrace.Proofs.Segments

/-!
# What evictions lead to

After all evictions the segments are settled: in order by start, and no two of them in conflict. A
settled list is known by its members and has nothing to evict, so evicting once more changes nothing,
and segments that do not conflict may as well be evaluated in the other order.

* `Settled`: in order and without conflicts.
* `Settled.eq_of_perm`: settled lists with the same segments are equal.
* `Settled.nonOverlapping_eq`: nothing is evicted from a settled list.
* `perm_accept_accept`, `perm_foldl_accept`: two segments without conflict in either order, and what
  becomes of them later.
* `Span.nonempty_of_touches`: of two spans without conflict that touch, neither is empty.
* `nonOverlapping_spec`: which segments are left, and how they lie.
-/

namespace Retrace

variable {α : Type} [LinearOrder α]

/-- Where one span ends and another begins, an empty one would conflict with the other. -/
theorem Span.nonempty_of_touches {s t : Span α} (h : s.conflicts t = false)
    (htouch : s.stop = t.start) (hs : s.start ≤ s.stop) (ht : t.start ≤ t.stop) :
    s.start < s.stop ∧ t.start < t.stop := by
  constructor
  · refine lt_of_le_of_ne hs fun hempty => ?_
    rw [conflicts_of_start_eq (hempty.trans htouch)] at h
    exact Bool.noConfusion h
  · refine lt_of_le_of_ne ht fun hempty => ?_
    have hstart : s.start ≤ t.start := hs.trans_eq htouch
    have hstop : t.stop ≤ s.stop := (hempty.symm.trans htouch.symm).le
    simp [conflicts, contains, hstart, hstop] at h

namespace Segment

/-- Segments in order by their starts, no two of them in conflict. -/
structure Settled (segments : List (Segment α)) : Prop where
  starts : segments.Pairwise fun s t => s.span.start < t.span.start
  apart : segments.Pairwise fun s t => s.span.conflicts t.span = false

variable {segments accepted accepted' : List (Segment α)} {s t : Segment α}

/-! ## Settled lists -/

theorem settled_nonOverlapping (segments : List (Segment α)) : Settled (nonOverlapping segments) := by
  rw [nonOverlapping_eq_standing]
  exact ⟨pairwise_start_standing segments, pairwise_conflicts_standing segments⟩

theorem Settled.eq_of_perm (h : Settled accepted) (h' : Settled accepted')
    (hperm : accepted.Perm accepted') : accepted = accepted' :=
  hperm.eq_of_pairwise (fun _ _ _ _ hst hts => absurd hst (lt_asymm hts)) h.starts h'.starts

theorem Settled.conflicts_eq_false (h : Settled segments) (hs : s ∈ segments) (ht : t ∈ segments)
    (hne : s ≠ t) : s.span.conflicts t.span = false := by
  have hsymm : Std.Symm fun s t : Segment α => s.span.conflicts t.span = false :=
    ⟨fun s t hst => (Span.conflicts_comm t.span s.span).trans hst⟩
  exact h.apart.forall hs ht hne

theorem undisplaced_eq_self
    (h : segments.Pairwise fun s t => s.span.conflicts t.span = false) :
    undisplaced segments = segments := by
  induction segments with
  | nil => rfl
  | cons s later ih =>
    obtain ⟨hs, hlater⟩ := List.pairwise_cons.mp h
    rw [undisplaced, conflictsWithSome_eq_false_iff.mpr hs, ih hlater]
    rfl

/-- **Nothing is evicted from a settled list.** -/
theorem Settled.nonOverlapping_eq (h : Settled segments) : nonOverlapping segments = segments := by
  rw [nonOverlapping_eq_standing, standing, undisplaced_eq_self h.apart]
  exact List.mergeSort_of_pairwise (h.starts.imp fun hst => decide_eq_true hst.le)

/-- Settled spans that are not reversed follow one another. -/
theorem Settled.pairwise_stop_le (h : Settled segments)
    (hforward : ∀ s ∈ segments, s.span.start ≤ s.span.stop) :
    segments.Pairwise fun s t => s.span.stop ≤ t.span.start := by
  refine (h.starts.and h.apart).imp_of_mem fun _ ht hst => ?_
  exact Span.stop_le_start_of_lt hst.2 hst.1 (hforward _ ht)

/-! ## The order of evaluation -/

theorem accept_accept (accepted : List (Segment α)) (h : s.span.conflicts t.span = false) :
    accept (accept accepted s) t =
      accepted.filter (fun kept => !kept.span.conflicts t.span && !kept.span.conflicts s.span) ++
        [s, t] := by
  have hs : [s].filter (fun kept => !kept.span.conflicts t.span) = [s] :=
    List.filter_cons_of_pos (by rw [h]; rfl)
  rw [accept, accept, List.filter_append, List.filter_filter, hs, List.append_assoc]
  rfl

/-- Two segments without conflict evict the same others, whichever is first. -/
theorem perm_accept_accept (accepted : List (Segment α)) (h : s.span.conflicts t.span = false) :
    (accept (accept accepted s) t).Perm (accept (accept accepted t) s) := by
  rw [accept_accept accepted h, accept_accept accepted ((Span.conflicts_comm _ _).trans h)]
  simp only [Bool.and_comm]
  exact (List.Perm.swap t s []).append_left _

/-- What is evicted later does not depend on the order of what was accepted. -/
theorem perm_foldl_accept (later : List (Segment α)) (h : accepted.Perm accepted') :
    (later.foldl accept accepted).Perm (later.foldl accept accepted') := by
  rw [foldl_accept, foldl_accept]
  exact (h.filter _).append_right _

theorem nonOverlapping_swap (earlier later : List (Segment α))
    (h : s.span.conflicts t.span = false) :
    nonOverlapping (earlier ++ s :: t :: later) = nonOverlapping (earlier ++ t :: s :: later) := by
  refine (settled_nonOverlapping _).eq_of_perm (settled_nonOverlapping _) ?_
  have hperm : ((earlier ++ s :: t :: later).foldl accept []).Perm
      ((earlier ++ t :: s :: later).foldl accept []) := by
    rw [List.foldl_append, List.foldl_append]
    exact perm_foldl_accept later (perm_accept_accept _ h)
  exact (List.mergeSort_perm _ _).trans (hperm.trans (List.mergeSort_perm _ _).symm)

/-! ## The segments that are left -/

theorem mem_nonOverlapping_iff : s ∈ nonOverlapping segments ↔ ∃ earlier later,
    segments = earlier ++ s :: later ∧ ∀ t ∈ later, s.span.conflicts t.span = false := by
  rw [nonOverlapping_eq_standing, (perm_standing segments).mem_iff, mem_undisplaced_iff]

theorem subset_nonOverlapping (segments : List (Segment α)) :
    nonOverlapping segments ⊆ segments := by
  intro s hs
  obtain ⟨earlier, later, rfl, -⟩ := mem_nonOverlapping_iff.mp hs
  exact List.mem_append_right earlier List.mem_cons_self

/-- **What is left after all evictions.** Exactly the segments that no later one conflicts with, each
once: ordered by distinct starts and without conflicts among them. Evicting again changes nothing.
When no span is reversed, they follow one another, and where two of them touch neither is empty. Of
two neighbours that do not conflict, either may come first. -/
theorem nonOverlapping_spec (segments : List (Segment α)) :
    (∀ s, s ∈ nonOverlapping segments ↔ ∃ earlier later,
      segments = earlier ++ s :: later ∧ ∀ t ∈ later, s.span.conflicts t.span = false) ∧
    (nonOverlapping segments).Pairwise (fun s t => s.span.start < t.span.start) ∧
    (nonOverlapping segments).Pairwise (fun s t => s.span.conflicts t.span = false) ∧
    nonOverlapping (nonOverlapping segments) = nonOverlapping segments ∧
    ((∀ s ∈ segments, s.span.start ≤ s.span.stop) →
      (nonOverlapping segments).Pairwise (fun s t => s.span.stop ≤ t.span.start) ∧
      ∀ s ∈ nonOverlapping segments, ∀ t ∈ nonOverlapping segments, s ≠ t →
        s.span.stop = t.span.start → s.span.start < s.span.stop ∧ t.span.start < t.span.stop) ∧
    ∀ earlier s t later, segments = earlier ++ s :: t :: later →
      s.span.conflicts t.span = false →
      nonOverlapping (earlier ++ t :: s :: later) = nonOverlapping segments := by
  have hsettled := settled_nonOverlapping segments
  refine ⟨fun s => mem_nonOverlapping_iff, hsettled.starts, hsettled.apart,
    hsettled.nonOverlapping_eq, fun hforward => ?_, ?_⟩
  · have hleft : ∀ s ∈ nonOverlapping segments, s.span.start ≤ s.span.stop :=
      fun s hs => hforward s (subset_nonOverlapping segments hs)
    refine ⟨hsettled.pairwise_stop_le hleft, fun s hs t ht hne htouch => ?_⟩
    exact Span.nonempty_of_touches (hsettled.conflicts_eq_false hs ht hne) htouch (hleft s hs)
      (hleft t ht)
  · rintro earlier s t later rfl h
    exact (nonOverlapping_swap earlier later h).symm

/-- A part, the whole that takes its place, a span across the end of the whole, and the one behind
it. -/
def crossedWhole : List (Segment Nat) :=
  [⟨⟨2, 4⟩, "4"⟩, ⟨⟨0, 6⟩, "9"⟩, ⟨⟨5, 8⟩, "3"⟩, ⟨⟨8, 9⟩, "1"⟩]

/-- The whole is evicted and its part does not come back; the other two touch, in either order. -/
theorem crossedWhole_nonOverlapping :
    nonOverlapping crossedWhole = [⟨⟨5, 8⟩, "3"⟩, ⟨⟨8, 9⟩, "1"⟩] ∧
    (∀ s ∈ crossedWhole, s.span.start ≤ s.span.stop) ∧ (5 < 8 ∧ 8 < 9) ∧
    nonOverlapping [⟨⟨2, 4⟩, "4"⟩, ⟨⟨0, 6⟩, "9"⟩, ⟨⟨8, 9⟩, "1"⟩, ⟨⟨5, 8⟩, "3"⟩] =
      nonOverlapping crossedWhole := by
  have hundisplaced : undisplaced crossedWhole = [⟨⟨5, 8⟩, "3"⟩, ⟨⟨8, 9⟩, "1"⟩] := by decide
  have hleft : nonOverlapping crossedWhole = [⟨⟨5, 8⟩, "3"⟩, ⟨⟨8, 9⟩, "1"⟩] := by
    rw [nonOverlapping_eq_standing, standing, hundisplaced]
    exact List.mergeSort_of_pairwise (by decide)
  have hforward : ∀ s ∈ crossedWhole, s.span.start ≤ s.span.stop := by decide
  obtain ⟨-, -, -, -, hspans, hswap⟩ := nonOverlapping_spec crossedWhole
  refine ⟨hleft, hforward, ?_, hswap [⟨⟨2, 4⟩, "4"⟩, ⟨⟨0, 6⟩, "9"⟩] _ _ [] rfl rfl⟩
  exact (hspans hforward).2 ⟨⟨5, 8⟩, "3"⟩ (by rw [hleft]; decide) ⟨⟨8, 9⟩, "1"⟩
    (by rw [hleft]; decide) (by decide) rfl

end Segment

end Retrace
