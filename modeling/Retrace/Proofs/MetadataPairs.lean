import Retrace.Notification
import Retrace.Proofs.FirstError
import Retrace.Proofs.Trimming

/-!
# The pairs of a metadata text

A metadata text is read pair by pair. What is read depends only on the values that each key is given: all
of them have to be such as the key can have, and the last one counts. Where the pieces of the text begin
and end, and which of them are blank, has no part in it.

* `Notification.written`, `Notification.values`: what stands between the semicolons, and the values it
  gives to a key.
* `Notification.values_pairs`: trimming the pieces and leaving out the blank ones takes no value away.
* `Notification.Draft.foldlM_add_eq_ok_iff`: when the pairs are read, and as which draft.
* `Notification.parse_eq_ok_iff`: the same for the whole text.
-/

namespace Retrace

namespace Notification

open Text (IsBlank)

/-! ## The values of a key -/

/-- The keys that mean something. -/
def keys : List Char := ['a', 'i', 't', 'l', 'n']

/-- The value that a pair gives to a key. -/
def Pair.value? (key : Char) (p : Pair) : Option (List Char) :=
  if p.key = [key] then some (Text.trim p.value) else none

/-- The values that pairs give to a key, in order. -/
def values (key : Char) (ps : List Pair) : List (List Char) := ps.filterMap (Pair.value? key)

/-- All that stands between the semicolons of a metadata text, as pairs. -/
def written (metadata : String) : List Pair :=
  (Text.splitAtChar ';' metadata.toList).map Pair.ofText

theorem ne_equals_of_not_mem {s : List Char} (hs : '=' ∉ s) : ∀ c ∈ s, (c != '=') = true := by
  intro c hc
  have hne : c ≠ '=' := fun h => hs (h ▸ hc)
  simpa using hne

/-- A pair is split at its first sign. -/
theorem Pair.ofText_append_cons {k : List Char} (hk : '=' ∉ k) (v : List Char) :
    ofText (k ++ '=' :: v) = ⟨Text.trim k, v⟩ := by
  have hall := ne_equals_of_not_mem hk
  simp [ofText, List.takeWhile_append_of_pos hall, List.dropWhile_append_of_pos hall]

theorem Pair.ofText_of_not_mem {s : List Char} (hs : '=' ∉ s) : ofText s = ⟨Text.trim s, []⟩ := by
  have hall := ne_equals_of_not_mem hs
  rw [ofText, List.takeWhile_eq_self_iff.mpr hall, List.dropWhile_eq_nil_iff.mpr hall]
  rfl

/-- A blank piece gives no value. -/
theorem Pair.value?_nil (key : Char) : (ofText []).value? key = none := rfl

theorem equals_not_mem_of_isBlank {w : List Char} (hw : IsBlank w) : '=' ∉ w := fun h =>
  absurd (hw '=' h) (by decide)

/-- White space around a piece of the text gives a key the same value. -/
theorem Pair.value?_around {w w' : List Char} (hw : IsBlank w) (hw' : IsBlank w') (key : Char)
    (s : List Char) : (ofText (w ++ (s ++ w'))).value? key = (ofText s).value? key := by
  have hnot := equals_not_mem_of_isBlank hw
  have hnot' := equals_not_mem_of_isBlank hw'
  by_cases hs : '=' ∈ s
  · obtain ⟨k, v, rfl, hk⟩ := List.eq_append_cons_of_mem hs
    have hsame : w ++ (k ++ '=' :: v ++ w') = (w ++ k) ++ '=' :: (v ++ w') := by simp
    rw [hsame, ofText_append_cons (by simp [hnot, hk]), ofText_append_cons hk]
    simp only [value?, Text.trim_append_left hw, Text.trim_append_right hw']
  · rw [ofText_of_not_mem (by simp [hnot, hnot', hs]), ofText_of_not_mem hs]
    simp only [value?, Text.trim_around hw hw']

/-- White space on the two sides of the sign gives a key the same value. -/
theorem Pair.value?_sign {w w' k : List Char} (hw : IsBlank w) (hw' : IsBlank w') (hk : '=' ∉ k)
    (key : Char) (v : List Char) :
    (ofText (k ++ (w ++ '=' :: (w' ++ v)))).value? key = (ofText (k ++ '=' :: v)).value? key := by
  have hnot : '=' ∉ k ++ w := by simp [hk, equals_not_mem_of_isBlank hw]
  rw [← List.append_assoc, ofText_append_cons hnot, ofText_append_cons hk]
  simp only [value?, Text.trim_append_right hw, Text.trim_append_left hw']

/-- **Trimming the pieces and leaving out the blank ones takes no value from a key.** -/
theorem values_pairs (key : Char) (metadata : String) :
    values key (pairs metadata.toList) = values key (written metadata) := by
  unfold values pairs written
  induction Text.splitAtChar ';' metadata.toList with
  | nil => rfl
  | cons s pieces ih =>
    obtain ⟨w, w', hw, hw', hs⟩ := Text.exists_trim s
    have hpiece : (Pair.ofText (Text.trim s)).value? key = (Pair.ofText s).value? key := by
      conv_rhs => rw [hs, Pair.value?_around hw hw']
    rw [List.map_cons, List.map_cons, List.filterMap_cons, ← hpiece, ← ih]
    by_cases hblank : Text.trim s = []
    · rw [hblank, List.filter_cons_of_neg (by simp), Pair.value?_nil]
    · rw [List.filter_cons_of_pos (by simpa using hblank), List.map_cons, List.filterMap_cons]

/-! ## Reading the pairs -/

/-- What the value of a pair has to be by its key. -/
@[mk_iff]
structure Pair.IsReadable (p : Pair) : Prop where
  action : ∀ v ∈ p.value? 'a', (Action.ofName? (String.ofList v)).isSome = true
  location : ∀ v ∈ p.value? 'l', (location? (String.ofList v)).isSome = true
  node : ∀ v ∈ p.value? 'n', (nodeId? v).isSome = true

namespace Draft

/-- A draft with the value of one more pair. -/
def put (d : Draft) (p : Pair) : Draft where
  action := (p.value? 'a').elim d.action fun v => Action.ofName? (String.ofList v)
  identifier := (p.value? 'i').elim d.identifier fun v => some (String.ofList v)
  type := (p.value? 't').elim d.type fun v => some (String.ofList v)
  location := (p.value? 'l').elim d.location fun v => location? (String.ofList v)
  node := (p.value? 'n').elim d.node nodeId?

/-- The draft that the last value of each key makes. -/
def ofLast (ps : List Pair) : Draft where
  action := (values 'a' ps).getLast?.bind fun v => Action.ofName? (String.ofList v)
  identifier := (values 'i' ps).getLast?.map String.ofList
  type := (values 't' ps).getLast?.map String.ofList
  location := (values 'l' ps).getLast?.bind fun v => location? (String.ofList v)
  node := (values 'n' ps).getLast?.bind nodeId?

/-- A pair is added when its value is one that its key can have. -/
theorem add_eq_ok_iff {d d' : Draft} {p : Pair} :
    d.add p = .ok d' ↔ p.IsReadable ∧ d' = d.put p := by
  have hkey {name : String} (h : String.ofList p.key = name) : p.key = name.toList := by
    rw [← h, String.toList_ofList]
  unfold Draft.add
  split
  · next h =>
    have hp : p.key = ['a'] := hkey h
    rw [Pair.isReadable_iff]
    cases haction : Action.ofName? p.trimmed <;>
      simp_all [put, Pair.value?, Pair.trimmed, @eq_comm _ d']
  · next h =>
    have hp : p.key = ['i'] := hkey h
    simp [Pair.isReadable_iff, put, Pair.value?, Pair.trimmed, hp, @eq_comm _ d']
  · next h =>
    have hp : p.key = ['t'] := hkey h
    simp [Pair.isReadable_iff, put, Pair.value?, Pair.trimmed, hp, @eq_comm _ d']
  · next h =>
    have hp : p.key = ['l'] := hkey h
    rw [Pair.isReadable_iff]
    cases hlocation : location? p.trimmed <;>
      simp_all [put, Pair.value?, Pair.trimmed, @eq_comm _ d']
  · next h =>
    have hp : p.key = ['n'] := hkey h
    rw [Pair.isReadable_iff]
    cases hnode : nodeId? (Text.trim p.value) <;>
      simp_all [put, Pair.value?, @eq_comm _ d']
  · next ha hi ht hl hn =>
    have hne {key : Char} (h : String.ofList p.key ≠ String.ofList [key]) : p.key ≠ [key] :=
      fun hp => h (by rw [hp])
    simp [Pair.isReadable_iff, put, Pair.value?, hne ha, hne hi, hne ht, hne hl, hne hn, @eq_comm _ d']

theorem getLast?_values_concat (key : Char) (ps : List Pair) (p : Pair) :
    (values key (ps ++ [p])).getLast? = (p.value? key).or (values key ps).getLast? := by
  rw [values, List.filterMap_append, values]
  cases h : p.value? key <;> simp [h]

theorem ofLast_concat (ps : List Pair) (p : Pair) : ofLast (ps ++ [p]) = (ofLast ps).put p := by
  simp only [ofLast, put, getLast?_values_concat]
  congr 1
  · cases p.value? 'a' <;> rfl
  · cases p.value? 'i' <;> rfl
  · cases p.value? 't' <;> rfl
  · cases p.value? 'l' <;> rfl
  · cases p.value? 'n' <;> rfl

/-- **The pairs are read when each value is one that its key can have, and the last ones count.** -/
theorem foldlM_add_eq_ok_iff {ps : List Pair} {d : Draft} :
    ps.foldlM add {} = .ok d ↔ (∀ p ∈ ps, p.IsReadable) ∧ d = ofLast ps := by
  induction ps using List.reverseRecOn generalizing d with
  | nil =>
    rw [List.foldlM_nil]
    simp [pure, Except.pure, ofLast, values, eq_comm]
  | append_singleton ps p ih =>
    rw [List.foldlM_append, bind_eq_ok_iff, ofLast_concat]
    simp only [List.foldlM_cons, List.foldlM_nil, bind_pure, add_eq_ok_iff, ih, List.mem_append,
      List.mem_singleton, or_imp, forall_and, forall_eq]
    constructor
    · rintro ⟨_, ⟨hps, rfl⟩, hp, rfl⟩
      exact ⟨⟨hps, hp⟩, rfl⟩
    · rintro ⟨⟨hps, hp⟩, rfl⟩
      exact ⟨_, ⟨hps, rfl⟩, hp, rfl⟩

/-- A draft is finished as it is when it has an action, and a type if that calls for one. -/
theorem finish_eq_ok_iff {d : Draft} {n : Notification} :
    d.finish = .ok n ↔ d = ⟨n.action, n.identifier, n.type, n.location, n.node⟩ ∧
      (n.action.carriesValue = true → n.type ≠ none) := by
  constructor
  · intro h
    unfold finish at h
    split at h
    · cases h
    · next action haction =>
      split at h
      · cases h
      · next htype =>
        cases h
        refine ⟨by rw [← haction], fun hvalue hnone => htype ?_⟩
        rw [Bool.and_eq_true, Option.isNone_iff_eq_none]
        exact ⟨hvalue, hnone⟩
  · rintro ⟨rfl, htype⟩
    have hnot : ¬ (n.action.carriesValue && n.type.isNone) = true := by
      simpa [Option.isNone_iff_eq_none] using htype
    exact if_neg hnot

end Draft

theorem forall_isReadable_iff {ps : List Pair} :
    (∀ p ∈ ps, p.IsReadable) ↔
      (∀ v ∈ values 'a' ps, (Action.ofName? (String.ofList v)).isSome = true) ∧
      (∀ v ∈ values 'l' ps, (location? (String.ofList v)).isSome = true) ∧
      ∀ v ∈ values 'n' ps, (nodeId? v).isSome = true := by
  simp only [Pair.isReadable_iff, values, List.mem_filterMap, forall_exists_index, and_imp,
    Option.mem_def]
  constructor
  · intro h
    exact ⟨fun v p hp => (h p hp).1 v, fun v p hp => (h p hp).2.1 v, fun v p hp => (h p hp).2.2 v⟩
  · rintro ⟨ha, hl, hn⟩ p hp
    exact ⟨fun v => ha v p hp, fun v => hl v p hp, fun v => hn v p hp⟩

/-- **A metadata text is read when each value is one that its key can have and the last ones suffice.** -/
theorem parse_eq_ok_iff {metadata : String} {n : Notification} :
    parse metadata = .ok n ↔
      (∀ p ∈ written metadata, p.IsReadable) ∧
        (Draft.ofLast (written metadata)).finish = .ok n := by
  have hlast : Draft.ofLast (pairs metadata.toList) = Draft.ofLast (written metadata) := by
    simp only [Draft.ofLast, values_pairs]
  unfold parse ofPairs
  rw [bind_eq_ok_iff, ← hlast, forall_isReadable_iff]
  simp only [← values_pairs]
  rw [← forall_isReadable_iff]
  constructor
  · rintro ⟨d, hd, hfinish⟩
    obtain ⟨hall, rfl⟩ := Draft.foldlM_add_eq_ok_iff.mp hd
    exact ⟨hall, hfinish⟩
  · rintro ⟨hall, hfinish⟩
    exact ⟨_, Draft.foldlM_add_eq_ok_iff.mpr ⟨hall, rfl⟩, hfinish⟩

/-- Only the values of the keys count. -/
theorem toOption_parse_congr {m m' : String}
    (h : ∀ key ∈ keys, values key (written m) = values key (written m')) :
    (parse m).toOption = (parse m').toOption := by
  have hread : (∀ p ∈ written m, p.IsReadable) ↔ ∀ p ∈ written m', p.IsReadable := by
    rw [forall_isReadable_iff, forall_isReadable_iff, h 'a' (by decide), h 'l' (by decide),
      h 'n' (by decide)]
  have hlast : Draft.ofLast (written m) = Draft.ofLast (written m') := by
    rw [Draft.ofLast, Draft.ofLast, h 'a' (by decide), h 'i' (by decide), h 't' (by decide),
      h 'l' (by decide), h 'n' (by decide)]
  have hok (n : Notification) : parse m = .ok n ↔ parse m' = .ok n := by
    rw [parse_eq_ok_iff, parse_eq_ok_iff, hread, hlast]
  cases hm : parse m with
  | ok n => rw [(hok n).mp hm]
  | error e =>
    cases hm' : parse m' with
    | ok n => cases hm.symm.trans ((hok n).mpr hm')
    | error e' => rfl

end Notification

end Retrace
