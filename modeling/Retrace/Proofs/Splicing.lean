import Mathlib.Data.List.Chain
import Retrace.Proofs.Rewriting

/-!
# When a splice succeeds, and what it then is

The segments that a text takes are those inside it, forwards, with their ends between characters, none
of which starts before its predecessor ends. These conditions look at a segment and its predecessor
only, so the first segment that breaks one of them is the end of the shortest list that is not taken;
splicing fails with that segment. Otherwise the splice can be made in any of three ways with the same
result: in one pass, segment by segment from the last to the first, or on the two sides of a position
that no segment straddles.

* `Acceptable`: the segments that a text takes.
* `misfit?_eq_none_iff`, `exists_of_misfit?_eq_some`: the one pass finds out about it.
* `exists_splice_parts`: the two sides of such a position can be spliced by themselves.
* `splice_spec`: success, the error, and what the result is.
-/

namespace Retrace

open Text

/-! ## Boundaries of a beginning of a text -/

theorem Text.le_byteSize_of_isBoundary {s : List Char} {n : Nat} (h : isBoundary s n = true) :
    n ≤ byteSize s := by
  obtain ⟨before, after, rfl, rfl⟩ := isBoundary_iff.mp h
  rw [byteSize_append]
  omega

/-- A boundary of a text that lies in its beginning is one of the beginning. -/
theorem Text.isBoundary_of_append {s t : List Char} {n : Nat} (h : isBoundary (s ++ t) n = true)
    (hle : n ≤ byteSize s) : isBoundary s n = true := by
  obtain ⟨before, after, hcut, rfl⟩ := isBoundary_iff.mp h
  obtain ⟨m, rfl, -⟩ := exists_eq_append hcut.symm hle
  exact isBoundary_iff.mpr ⟨before, m, rfl, rfl⟩

namespace Segment

variable {text head tail : List Char} {position cut : Nat} {s : Segment Nat}
  {segments left right : List (Segment Nat)}

/-! ## Acceptable segments -/

/-- Segments that a text takes: each lies forwards inside the text with its ends between characters,
and starts no earlier than the one before it ends. -/
structure Acceptable (text : List Char) (segments : List (Segment Nat)) : Prop where
  inside : ∀ s ∈ segments, s.span.start ≤ s.span.stop ∧ s.span.stop ≤ byteSize text
  boundaries : ∀ s ∈ segments, s.onBoundaries text = true
  chained : segments.IsChain fun s t => s.span.stop ≤ t.span.start

theorem acceptable_nil (text : List Char) : Acceptable text [] where
  inside := fun _ h => absurd h List.not_mem_nil
  boundaries := fun _ h => absurd h List.not_mem_nil
  chained := List.isChain_nil

theorem acceptable_cons : Acceptable text (s :: segments) ↔
    s.span.start ≤ s.span.stop ∧ s.onBoundaries text = true ∧
      (∀ t ∈ segments.head?, s.span.stop ≤ t.span.start) ∧ Acceptable text segments := by
  constructor
  · intro h
    obtain ⟨hs, hinside⟩ := List.forall_mem_cons.mp h.inside
    obtain ⟨hends, hboundaries⟩ := List.forall_mem_cons.mp h.boundaries
    obtain ⟨hnext, hchained⟩ := List.isChain_cons.mp h.chained
    exact ⟨hs.1, hends, hnext, hinside, hboundaries, hchained⟩
  · rintro ⟨hforward, hends, hnext, h⟩
    have hstop : isBoundary text s.span.stop = true := (Bool.and_eq_true_iff.mp hends).2
    exact ⟨List.forall_mem_cons.mpr ⟨⟨hforward, le_byteSize_of_isBoundary hstop⟩, h.inside⟩,
      List.forall_mem_cons.mpr ⟨hends, h.boundaries⟩, List.isChain_cons.mpr ⟨hnext, h.chained⟩⟩

theorem fits_iff : Fits text position s ↔
    position ≤ s.span.start ∧ s.span.start ≤ s.span.stop ∧ s.onBoundaries text = true := by
  unfold Fits onBoundaries
  rw [Bool.and_eq_true]

/-- The pass finds no misfit exactly in acceptable segments behind its position. -/
theorem misfit?_eq_none_iff : misfit? text position segments = none ↔
    (∀ s ∈ segments.head?, position ≤ s.span.start) ∧ Acceptable text segments := by
  induction segments generalizing position with
  | nil => simp [misfit?, acceptable_nil]
  | cons s segments ih =>
    rw [misfit?, acceptable_cons]
    by_cases hfits : Fits text position s
    · obtain ⟨hposition, hforward, hends⟩ := fits_iff.mp hfits
      rw [if_pos hfits, ih]
      simp [hposition, hforward, hends]
    · rw [if_neg hfits]
      refine iff_of_false (Option.some_ne_none s) ?_
      rintro ⟨hposition, hforward, hends, -⟩
      exact hfits (fits_iff.mpr ⟨hposition s rfl, hforward, hends⟩)

/-- The misfit that the pass finds comes behind segments without one. -/
theorem exists_of_misfit?_eq_some (h : misfit? text position segments = some s) :
    ∃ earlier later, segments = earlier ++ s :: later ∧ misfit? text position earlier = none ∧
      misfit? text position (earlier ++ [s]) = some s := by
  induction segments generalizing position with
  | nil => cases h
  | cons t segments ih =>
    rw [misfit?] at h
    split at h
    · next hfits =>
      obtain ⟨earlier, later, rfl, hearlier, hs⟩ := ih h
      refine ⟨t :: earlier, later, rfl, ?_, ?_⟩
      · rw [misfit?, if_pos hfits, hearlier]
      · rw [List.cons_append, misfit?, if_pos hfits, hs]
    · next hfits =>
      obtain rfl := Option.some.inj h
      exact ⟨[], segments, rfl, rfl, by rw [List.nil_append, misfit?, if_neg hfits]⟩

theorem misfit?_zero_eq_none_iff : misfit? text 0 segments = none ↔ Acceptable text segments := by
  rw [misfit?_eq_none_iff]
  exact and_iff_right fun s _ => Nat.zero_le s.span.start

/-- **A splice succeeds exactly with acceptable segments.** -/
theorem exists_splice_iff {text : String} :
    (∃ out, splice text segments = .ok out) ↔ Acceptable text.toList segments := by
  rw [← misfit?_zero_eq_none_iff]
  constructor
  · rintro ⟨out, hout⟩
    cases hmisfit : misfit? text.toList 0 segments with
    | none => rfl
    | some s =>
      rw [splice_of_misfit?_eq_some hmisfit] at hout
      cases hout
  · intro h
    obtain ⟨out, hout, -⟩ := splice_of_misfit?_eq_none h
    exact ⟨out, hout⟩

/-- **Otherwise it fails with the first segment that makes the segments unacceptable.** -/
theorem exists_splice_eq_error {text : String} (h : ¬ Acceptable text.toList segments) :
    ∃ earlier s later, segments = earlier ++ s :: later ∧ Acceptable text.toList earlier ∧
      ¬ Acceptable text.toList (earlier ++ [s]) ∧
      splice text segments = .error (.segmentOutOfBounds s.span.start s.span.stop) := by
  rw [← misfit?_zero_eq_none_iff] at h
  obtain ⟨s, hs⟩ := Option.ne_none_iff_exists'.mp h
  obtain ⟨earlier, later, rfl, hearlier, hshortest⟩ := exists_of_misfit?_eq_some hs
  refine ⟨earlier, s, later, rfl, misfit?_zero_eq_none_iff.mp hearlier, fun hacceptable => ?_,
    splice_of_misfit?_eq_some hs⟩
  rw [misfit?_zero_eq_none_iff.mpr hacceptable] at hshortest
  cases hshortest

/-! ## The two sides of a position -/

/-- A segment by positions counted from byte `cut` on. -/
def countedFrom (cut : Nat) (s : Segment Nat) : Segment Nat :=
  ⟨⟨s.span.start - cut, s.span.stop - cut⟩, s.value⟩

theorem rewritten_map_countedFrom (rest : List UInt8)
    (h : ∀ s ∈ segments, cut ≤ s.span.stop) :
    rewritten position rest (segments.map (countedFrom cut)) =
      rewritten (cut + position) rest segments := by
  induction segments generalizing position rest with
  | nil => rfl
  | cons s segments ih =>
    obtain ⟨hs, h⟩ := List.forall_mem_cons.mp h
    have hstart : s.span.start - cut - position = s.span.start - (cut + position) := by omega
    have hstop : s.span.stop - cut - position = s.span.stop - (cut + position) := by omega
    have hnext : cut + (s.span.stop - cut) = s.span.stop := by omega
    rw [List.map_cons, rewritten, rewritten]
    dsimp only [countedFrom]
    rw [ih _ h, hstart, hstop, hnext]

theorem Acceptable.before (h : Acceptable (head ++ tail) (left ++ right))
    (hparts : Parts (byteSize head) left right) : Acceptable head left where
  inside := fun s hs => ⟨(h.inside s (List.mem_append_left right hs)).1, hparts.before s hs⟩
  boundaries := fun s hs => by
    have hle := (h.inside s (List.mem_append_left right hs)).1
    have hstop := hparts.before s hs
    obtain ⟨hstart, hend⟩ :=
      Bool.and_eq_true_iff.mp (h.boundaries s (List.mem_append_left right hs))
    exact Bool.and_eq_true_iff.mpr
      ⟨isBoundary_of_append hstart (by omega), isBoundary_of_append hend hstop⟩
  chained := h.chained.left_of_append

theorem Acceptable.behind (h : Acceptable (head ++ tail) (left ++ right))
    (hparts : Parts (byteSize head) left right) :
    Acceptable tail (right.map (countedFrom (byteSize head))) where
  inside := by
    refine List.forall_mem_map.mpr fun s hs => ?_
    obtain ⟨hle, hstop⟩ := h.inside s (List.mem_append_right left hs)
    rw [byteSize_append] at hstop
    dsimp only [countedFrom]
    exact ⟨by omega, by omega⟩
  boundaries := by
    refine List.forall_mem_map.mpr fun s hs => ?_
    have hle := (h.inside s (List.mem_append_right left hs)).1
    have hstart := hparts.behind s hs
    have hends := h.boundaries s (List.mem_append_right left hs)
    obtain ⟨i, hi⟩ := Nat.exists_eq_add_of_le hstart
    obtain ⟨j, hj⟩ := Nat.exists_eq_add_of_le (hstart.trans hle)
    rw [onBoundaries, hi, hj, isBoundary_append, isBoundary_append] at hends
    rw [onBoundaries]
    dsimp only [countedFrom]
    rwa [hi, hj, Nat.add_sub_cancel_left, Nat.add_sub_cancel_left]
  chained := by
    rw [List.isChain_map]
    refine h.chained.right_of_append.imp fun s t hst => ?_
    dsimp only [countedFrom]
    omega

/-- There is a position that parts acceptable segments anywhere. -/
theorem exists_parts {text out : String} (h : splice text (left ++ right) = .ok out) :
    ∃ head tail : String, text = head ++ tail ∧ Parts head.utf8ByteSize left right := by
  have hwithin := within_of_splice h
  cases right with
  | nil =>
    refine ⟨text, "", (String.append_empty).symm, fun s hs => ?_,
      fun _ hs => absurd hs List.not_mem_nil⟩
    exact hwithin.le_stop s (List.mem_append_left [] hs)
  | cons t right =>
    have hacceptable := exists_splice_iff.mp ⟨out, h⟩
    have hends := hacceptable.boundaries t (List.mem_append_right left List.mem_cons_self)
    obtain ⟨before, after, htext, hsize⟩ := isBoundary_iff.mp (Bool.and_eq_true_iff.mp hends).1
    have hcut : (String.ofList before).utf8ByteSize = t.span.start := by
      rw [← byteSize_toList, String.toList_ofList, hsize]
    refine ⟨String.ofList before, String.ofList after, ?_, ?_⟩
    · rw [← String.ofList_append, ← htext, String.ofList_toList]
    · rw [hcut]
      exact hwithin.inOrder.parts_start

/-- **The two sides of a position that parts the segments can be spliced by themselves.** -/
theorem exists_splice_parts {head tail out : String}
    (h : splice (head ++ tail) (left ++ right) = .ok out)
    (hparts : Parts head.utf8ByteSize left right) :
    ∃ out₁ out₂, splice head left = .ok out₁ ∧
      splice tail (right.map (countedFrom head.utf8ByteSize)) = .ok out₂ ∧ out = out₁ ++ out₂ := by
  have hacceptable := exists_splice_iff.mp ⟨out, h⟩
  have hwithin := within_of_splice h
  have hcut := hparts
  rw [← byteSize_toList] at hparts
  rw [String.toList_append] at hacceptable
  obtain ⟨out₁, hout₁⟩ := exists_splice_iff.mpr (hacceptable.before hparts)
  obtain ⟨out₂, hout₂⟩ := exists_splice_iff.mpr (hacceptable.behind hparts)
  rw [byteSize_toList] at hout₂
  refine ⟨out₁, out₂, hout₁, hout₂, bytes_injective ?_⟩
  have hsize : head.utf8ByteSize - 0 = (bytes head.toList).length :=
    (length_bytes_toList head).symm
  have hlength : 0 + (bytes (head ++ tail).toList).length = (head ++ tail).utf8ByteSize := by
    rw [Nat.zero_add, length_bytes_toList]
  have hstop : ∀ s ∈ right, head.utf8ByteSize ≤ s.span.stop := fun s hs => by
    have hforward := hwithin.inOrder.forward s (List.mem_append_right left hs)
    have := hcut.behind s hs
    omega
  have hwhole := bytes_of_splice h
  rw [rewritten_append hwithin hlength (Nat.zero_le _) hcut, String.toList_append,
    bytes_append, hsize, List.take_left' rfl, List.drop_left' rfl] at hwhole
  rw [hwhole, String.toList_append, bytes_append, bytes_of_splice hout₁, bytes_of_splice hout₂,
    rewritten_map_countedFrom _ hstop, Nat.add_zero]

/-! ## Splicing -/

/-- **Splicing, for every text and every list of segments.** It succeeds exactly when all segments lie
forwards inside the text, with both ends between characters, each starting no earlier than the one
before it ends. Otherwise it fails with the first segment that breaks one of these conditions. When it
succeeds, replacing one segment at a time from the last to the first gives the same text; its length is
that of the text less what the segments remove plus what they add; and wherever a position parts the
segments, which it does somewhere for every way to split the list, the text before the position with
the first segments replaced and the text behind it with the others replaced are the two parts of the
result. -/
theorem splice_spec (text : String) (segments : List (Segment Nat)) :
    ((∃ out, splice text segments = .ok out) ↔ Acceptable text.toList segments) ∧
    (¬ Acceptable text.toList segments → ∃ earlier s later, segments = earlier ++ s :: later ∧
      Acceptable text.toList earlier ∧ ¬ Acceptable text.toList (earlier ++ [s]) ∧
      splice text segments = .error (.segmentOutOfBounds s.span.start s.span.stop)) ∧
    ∀ out, splice text segments = .ok out →
      replaceEach? text.toList segments = some out.toList ∧
      (removed segments ≤ text.utf8ByteSize ∧
        out.utf8ByteSize = text.utf8ByteSize - removed segments + added segments) ∧
      ∀ left right, segments = left ++ right →
        (∃ head tail : String, text = head ++ tail ∧ Parts head.utf8ByteSize left right) ∧
        ∀ head tail : String, text = head ++ tail → Parts head.utf8ByteSize left right →
          ∃ out₁ out₂, splice head left = .ok out₁ ∧
            splice tail (right.map (countedFrom head.utf8ByteSize)) = .ok out₂ ∧
            out = out₁ ++ out₂ := by
  refine ⟨exists_splice_iff, exists_splice_eq_error, fun out hout => ⟨?_, ?_, ?_⟩⟩
  · exact (spliced_of_splice hout).replaceEach? [] rfl
  · have hwithin := within_of_splice hout
    have hsize := length_bytes_toList text
    have hlength := length_rewritten hwithin ((Nat.zero_add _).trans hsize)
    have hremoved := hwithin.removed_le (Nat.zero_le _)
    rw [← bytes_of_splice hout, length_bytes_toList] at hlength
    exact ⟨by omega, by omega⟩
  · rintro left right rfl
    refine ⟨exists_parts hout, ?_⟩
    rintro head tail rfl hparts
    exact exists_splice_parts hout hparts

end Segment

end Retrace
