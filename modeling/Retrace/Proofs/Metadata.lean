import Mathlib.Logic.Relation
import Retrace.Proofs.JsonNaturals
import Retrace.Proofs.MetadataPairs
import Retrace.Proofs.Parts
import Retrace.Proofs.RecordedRanges

/-!
# What a metadata text says

The values of the keys are texts that stand for an action, a node or a range. A metadata text is valid when
they all do, when an action is among them, and a type if the action calls for one; it then says what
the last values stand for. Two texts say the same when the keys have the same values in them, as they do
when one is the other reworded.

* `NamesAction`, `WritesNode`, `WritesRange`: what the values stand for.
* `IsValid`, `Describes`: when a text is read, and as which notification.
* `Reworded`: unknown pieces, white space and another order.
* `parse_spec`: these are all that counts.
-/

namespace Retrace

/-- The names of an action: parameters have two. -/
theorem Action.ofName?_eq_some_iff {s : String} {a : Action} :
    ofName? s = some a ↔ s = a.name ∨ (a = .parameter ∧ s = "parameter") := by
  constructor
  · intro h
    unfold ofName? at h
    split at h <;> cases h <;> simp [name]
  · rintro (rfl | ⟨rfl, rfl⟩)
    · exact ofName?_name a
    · rfl

namespace Notification

open Text (IsBlank)

/-! ## What the values stand for -/

/-- A text that names an action. -/
def NamesAction (value : List Char) (a : Action) : Prop :=
  String.ofList value = a.name ∨ (a = .parameter ∧ String.ofList value = "parameter")

/-- A text that writes a node, in decimal digits below `2 ^ 64` and maybe a plus sign in front. -/
def WritesNode (value : List Char) (id : Nat) : Prop :=
  id < UInt64.size ∧ ∃ ds, Json.IsNumeral ds id ∧ (value = ds ∨ value = '+' :: ds)

/-- A text that writes a range as four numbers, the last column inclusively. -/
def WritesRange (value : List Char) (r : SourceRange) : Prop :=
  ∃ sl sc el ec, Json.IsArray [sl, sc, el, ec] value ∧ (∀ n ∈ [sl, sc, el, ec + 1], n < UInt64.size) ∧
    r = SourceRange.ofInclusive sl sc el ec ∧ r.RunsForwards

/-- A text that writes a range whose last column is the greatest of 64 bits, with none after it. -/
def EndsBeyond (value : List Char) : Prop :=
  ∃ sl sc el ec, Json.IsArray [sl, sc, el, ec] value ∧ ec + 1 = UInt64.size

theorem runsForwards_ofInclusive_iff {sl sc el ec : Nat} :
    (SourceRange.ofInclusive sl sc el ec).RunsForwards ↔
      ¬ (sl = 0 ∨ sc = 0 ∨ (SourceRange.ofInclusive sl sc el ec).stop <
        (SourceRange.ofInclusive sl sc el ec).start) := by
  rw [not_or, not_or, not_lt]
  constructor
  · rintro ⟨hline, hcolumn, hforwards⟩
    exact ⟨Nat.pos_iff_ne_zero.mp hline, Nat.pos_iff_ne_zero.mp hcolumn, hforwards⟩
  · rintro ⟨hline, hcolumn, hforwards⟩
    exact ⟨Nat.pos_iff_ne_zero.mpr hline, Nat.pos_iff_ne_zero.mpr hcolumn, hforwards⟩

/-- **The locations that are read.** -/
theorem location?_eq_some_iff {value : List Char} {r : SourceRange} (hbeyond : ¬ EndsBeyond value) :
    location? (String.ofList value) = some r ↔ WritesRange value r := by
  constructor
  · intro h
    obtain ⟨⟨sl, sc, el, ec⟩, hfour, hr⟩ := Option.bind_eq_some_iff.mp h
    obtain ⟨harray, hlt⟩ := fourSizes?_read?_eq_some_iff.mp hfour
    obtain ⟨hnot, hr⟩ := Option.ite_none_left_eq_some.mp hr
    cases hr
    rw [String.toList_ofList] at harray
    have hcolumn : ec + 1 ≠ UInt64.size := fun h => hbeyond ⟨sl, sc, el, ec, harray, h⟩
    refine ⟨sl, sc, el, ec, harray, ?_, rfl, runsForwards_ofInclusive_iff.mpr hnot⟩
    simp only [List.forall_mem_cons] at hlt ⊢
    obtain ⟨hsl, hsc, hel, hec, hnil⟩ := hlt
    exact ⟨hsl, hsc, hel, by omega, by simp⟩
  · rintro ⟨sl, sc, el, ec, harray, hlt, rfl, hforwards⟩
    have hfour : (Json.read? (String.ofList value)).bind fourSizes? = some (sl, sc, el, ec) := by
      refine fourSizes?_read?_eq_some_iff.mpr ⟨by rwa [String.toList_ofList], ?_⟩
      simp only [List.forall_mem_cons] at hlt ⊢
      obtain ⟨hsl, hsc, hel, hec, hnil⟩ := hlt
      exact ⟨hsl, hsc, hel, by omega, hnil⟩
    exact Option.bind_eq_some_iff.mpr ⟨_, hfour, if_neg (runsForwards_ofInclusive_iff.mp hforwards)⟩

/-- **The nodes that are read.** -/
theorem nodeId?_eq_some_iff {value : List Char} {id : Nat} :
    nodeId? value = some id ↔ WritesNode value id := by
  have hnumeral (ds : List Char) :
      (if ds.isEmpty || !ds.all Char.isDigit then none
        else if Json.digitsValue (ds.map fun c => c.toNat - '0'.toNat) < UInt64.size then
          some (Json.digitsValue (ds.map fun c => c.toNat - '0'.toNat))
        else none) = some id ↔ id < UInt64.size ∧ Json.IsNumeral ds id := by
    rw [Json.digitsValue_map, Option.ite_none_left_eq_some, Option.ite_none_right_eq_some]
    simp only [Bool.or_eq_true, List.isEmpty_iff, Bool.not_eq_true', List.all_eq_false, not_or,
      not_exists, not_and, not_not, Option.some_inj]
    constructor
    · rintro ⟨⟨hne, hall⟩, hlt, rfl⟩
      exact ⟨hlt, hne, hall, rfl⟩
    · rintro ⟨hlt, hne, hall, rfl⟩
      exact ⟨⟨hne, hall⟩, hlt, rfl⟩
  unfold nodeId? WritesNode
  dsimp only
  rw [hnumeral]
  refine and_congr_right fun _ => ?_
  split
  · next rest =>
    constructor
    · exact fun h => ⟨rest, h, .inr rfl⟩
    · rintro ⟨ds, h, hds | hds⟩
      · exact absurd (h.digits '+' (hds ▸ List.mem_cons_self)) (by decide)
      · rwa [(List.cons_eq_cons.mp hds).2]
  · next hplus =>
    constructor
    · exact fun h => ⟨value, h, .inl rfl⟩
    · rintro ⟨ds, h, rfl | rfl⟩
      · exact h
      · exact absurd rfl (hplus ds)

/-! ## What a metadata text says -/

/-- What the values of the keys have to be. -/
structure IsValid (ps : List Pair) : Prop where
  actions : ∀ v ∈ values 'a' ps, ∃ a, NamesAction v a
  locations : ∀ v ∈ values 'l' ps, ∃ r, WritesRange v r
  nodes : ∀ v ∈ values 'n' ps, ∃ id, WritesNode v id
  action : values 'a' ps ≠ []
  type : ∀ a, Option.Rel NamesAction (values 'a' ps).getLast? (some a) → a.carriesValue = true →
    values 't' ps ≠ []

/-- The notification that the last value of each key makes. -/
structure Describes (ps : List Pair) (n : Notification) : Prop where
  action : Option.Rel NamesAction (values 'a' ps).getLast? (some n.action)
  identifier : n.identifier = (values 'i' ps).getLast?.map String.ofList
  type : n.type = (values 't' ps).getLast?.map String.ofList
  location : Option.Rel WritesRange (values 'l' ps).getLast? n.location
  node : Option.Rel WritesNode (values 'n' ps).getLast? n.node

/-- A value that is read, or none, as a relation. -/
theorem bind_eq_iff_rel {α β : Type} {f : α → Option β} {R : α → β → Prop} {o : Option α}
    (hR : ∀ v ∈ o, ∀ b, f v = some b ↔ R v b) (hf : ∀ v ∈ o, ∃ b, R v b) {x : Option β} :
    o.bind f = x ↔ Option.Rel R o x := by
  cases o with
  | none =>
    constructor
    · rintro rfl
      exact .none
    · rintro ⟨⟩
      rfl
  | some v =>
    obtain ⟨b, hb⟩ := hf v rfl
    have hv : f v = some b := (hR v rfl b).mpr hb
    rw [Option.bind_some, hv]
    constructor
    · rintro rfl
      exact .some hb
    · rintro (h | _)
      rw [← hv, (hR v rfl _).mpr h]

theorem rel_some_iff {α β : Type} {R : α → β → Prop} {o : Option α} {b : β} :
    Option.Rel R o (some b) ↔ ∃ v, o = some v ∧ R v b := by
  constructor
  · rintro ⟨h⟩
    exact ⟨_, rfl, h⟩
  · rintro ⟨v, rfl, h⟩
    exact .some h

variable {ps : List Pair} {n : Notification}

theorem ofLast_eq_iff_describes (hbeyond : ∀ v ∈ values 'l' ps, ¬ EndsBeyond v)
    (ha : ∀ v ∈ values 'a' ps, ∃ a, NamesAction v a)
    (hl : ∀ v ∈ values 'l' ps, ∃ r, WritesRange v r)
    (hn : ∀ v ∈ values 'n' ps, ∃ id, WritesNode v id) :
    Draft.ofLast ps = ⟨n.action, n.identifier, n.type, n.location, n.node⟩ ↔ Describes ps n := by
  rw [Draft.ofLast, Draft.mk.injEq,
    bind_eq_iff_rel (fun v _ a => Action.ofName?_eq_some_iff)
      fun v hv => ha v (List.mem_of_getLast? hv),
    bind_eq_iff_rel (fun v hv r => location?_eq_some_iff (hbeyond v (List.mem_of_getLast? hv)))
      fun v hv => hl v (List.mem_of_getLast? hv),
    bind_eq_iff_rel (fun v _ id => nodeId?_eq_some_iff) fun v hv => hn v (List.mem_of_getLast? hv)]
  constructor
  · rintro ⟨haction, hidentifier, htype, hlocation, hnode⟩
    exact ⟨haction, hidentifier.symm, htype.symm, hlocation, hnode⟩
  · rintro ⟨haction, hidentifier, htype, hlocation, hnode⟩
    exact ⟨haction, hidentifier.symm, htype.symm, hlocation, hnode⟩

/-- A text names one action at most. -/
theorem NamesAction.unique {v : List Char} {a b : Action} (ha : NamesAction v a)
    (hb : NamesAction v b) : a = b :=
  Option.some.inj ((Action.ofName?_eq_some_iff.mpr ha).symm.trans (Action.ofName?_eq_some_iff.mpr hb))

theorem Describes.type_eq_none_iff (h : Describes ps n) : n.type = none ↔ values 't' ps = [] := by
  rw [h.type, Option.map_eq_none_iff, List.getLast?_eq_none_iff]

/-- The pairs are read when the values stand for something. -/
theorem forall_isReadable_iff_exists (hbeyond : ∀ v ∈ values 'l' ps, ¬ EndsBeyond v) :
    (∀ p ∈ ps, p.IsReadable) ↔
      (∀ v ∈ values 'a' ps, ∃ a, NamesAction v a) ∧ (∀ v ∈ values 'l' ps, ∃ r, WritesRange v r) ∧
        ∀ v ∈ values 'n' ps, ∃ id, WritesNode v id := by
  rw [forall_isReadable_iff]
  refine and_congr ?_ (and_congr ?_ ?_)
  · refine forall₂_congr fun v _ => ?_
    simp only [Option.isSome_iff_exists, Action.ofName?_eq_some_iff, NamesAction]
  · refine forall₂_congr fun v hv => ?_
    simp only [Option.isSome_iff_exists, location?_eq_some_iff (hbeyond v hv)]
  · refine forall₂_congr fun v _ => ?_
    simp only [Option.isSome_iff_exists, nodeId?_eq_some_iff]

/-- **A metadata text is read just when it is valid, and as what the last values make.** -/
theorem parse_eq_ok_iff_describes {metadata : String}
    (hbeyond : ∀ v ∈ values 'l' (written metadata), ¬ EndsBeyond v) :
    parse metadata = .ok n ↔ IsValid (written metadata) ∧ Describes (written metadata) n := by
  rw [parse_eq_ok_iff, forall_isReadable_iff_exists hbeyond, Draft.finish_eq_ok_iff]
  constructor
  · rintro ⟨⟨ha, hl, hn⟩, hdraft, htype⟩
    have hdescribes := (ofLast_eq_iff_describes hbeyond ha hl hn).mp hdraft
    refine ⟨⟨ha, hl, hn, ?_, ?_⟩, hdescribes⟩
    · intro hnil
      have haction := hdescribes.action
      rw [hnil] at haction
      cases haction
    · intro a hlast hvalue hnil
      obtain ⟨v, hv, ha⟩ := rel_some_iff.mp hlast
      obtain ⟨v', hv', haction⟩ := rel_some_iff.mp hdescribes.action
      obtain rfl := Option.some.inj (hv.symm.trans hv')
      rw [ha.unique haction] at hvalue
      exact htype hvalue (hdescribes.type_eq_none_iff.mpr hnil)
  · rintro ⟨hvalid, hdescribes⟩
    refine ⟨⟨hvalid.actions, hvalid.locations, hvalid.nodes⟩, ?_, ?_⟩
    · exact (ofLast_eq_iff_describes hbeyond hvalid.actions hvalid.locations hvalid.nodes).mpr
        hdescribes
    · exact fun hvalue hnone =>
        hvalid.type _ hdescribes.action hvalue (hdescribes.type_eq_none_iff.mp hnone)

/-- **What is valid describes a notification.** -/
theorem IsValid.exists_describes (hbeyond : ∀ v ∈ values 'l' ps, ¬ EndsBeyond v) (h : IsValid ps) :
    ∃ n, Describes ps n := by
  obtain ⟨v, hlast⟩ := Option.ne_none_iff_exists'.mp (mt List.getLast?_eq_none_iff.mp h.action)
  obtain ⟨a, ha⟩ := h.actions v (List.mem_of_getLast? hlast)
  let d := Draft.ofLast ps
  refine ⟨⟨a, d.identifier, d.type, d.location, d.node⟩, ?_⟩
  refine (ofLast_eq_iff_describes hbeyond h.actions h.locations h.nodes).mp ?_
  have haction : d.action = some a := by
    show (values 'a' ps).getLast?.bind _ = _
    rw [hlast]
    exact Action.ofName?_eq_some_iff.mpr ha
  rw [← haction]

/-! ## Rewording -/

/-- The metadata text with given pieces between its semicolons. -/
def ofPieces (pieces : List (List Char)) : String := String.ofList (List.intercalate [';'] pieces)

/-- The pieces of metadata texts that say the same: pieces without a known key are put in, white space is
put around a piece or around its sign, and pieces are reordered that have different keys. -/
inductive Reworded : List (List Char) → List (List Char) → Prop
  | ignored {ps qs : List (List Char)} {s : List Char}
      (hs : ∀ key ∈ keys, (Pair.ofText s).key ≠ [key]) : Reworded (ps ++ qs) (ps ++ s :: qs)
  | around {ps qs : List (List Char)} {s w w' : List Char} (hw : IsBlank w) (hw' : IsBlank w') :
      Reworded (ps ++ s :: qs) (ps ++ (w ++ (s ++ w')) :: qs)
  | sign {ps qs : List (List Char)} {k v w w' : List Char} (hk : '=' ∉ k) (hw : IsBlank w)
      (hw' : IsBlank w') :
      Reworded (ps ++ (k ++ '=' :: v) :: qs) (ps ++ (k ++ (w ++ '=' :: (w' ++ v))) :: qs)
  | reordered {ps qs : List (List Char)}
      (h : ∀ key, ps.filter (fun s => (Pair.ofText s).key = key) =
        qs.filter (fun s => (Pair.ofText s).key = key)) : Reworded ps qs

theorem values_written_ofPieces {pieces : List (List Char)} (h : ∀ s ∈ pieces, ';' ∉ s) (key : Char) :
    values key (written (ofPieces pieces)) = values key (pieces.map Pair.ofText) := by
  rw [written, ofPieces, String.toList_ofList]
  cases pieces with
  | nil => rfl
  | cons s pieces => rw [Text.splitAtChar_intercalate (List.cons_ne_nil s pieces) h]

theorem values_eq_of_reworded {ps qs : List (List Char)} (h : Reworded ps qs) {key : Char}
    (hkey : key ∈ keys) : values key (ps.map Pair.ofText) = values key (qs.map Pair.ofText) := by
  simp only [values, List.filterMap_map]
  cases h with
  | @ignored ps qs s hs =>
    have hnone : (Pair.ofText s).value? key = none := if_neg (hs key hkey)
    simp [List.filterMap_append, hnone]
  | around hw hw' => simp [List.filterMap_append, List.filterMap_cons, Pair.value?_around hw hw']
  | sign hk hw hw' => simp [List.filterMap_append, List.filterMap_cons, Pair.value?_sign hw hw' hk]
  | reordered h =>
    have hfilter (pieces : List (List Char)) :
        pieces.filterMap (Pair.value? key ∘ Pair.ofText) =
          (pieces.filter fun s => (Pair.ofText s).key = [key]).filterMap
            (Pair.value? key ∘ Pair.ofText) := by
      rw [List.filterMap_filter]
      refine List.filterMap_congr fun s _ => ?_
      by_cases hs : (Pair.ofText s).key = [key] <;> simp [Pair.value?, hs]
    rw [hfilter ps, hfilter qs, h]

/-- **Rewording takes no value from a key.** -/
theorem values_eq_of_eqvGen {ps qs : List (List Char)} (h : Relation.EqvGen Reworded ps qs)
    {key : Char} (hkey : key ∈ keys) :
    values key (ps.map Pair.ofText) = values key (qs.map Pair.ofText) := by
  induction h with
  | rel ps qs h => exact values_eq_of_reworded h hkey
  | refl ps => rfl
  | symm ps qs _ ih => exact ih.symm
  | trans ps qs rs _ _ ih ih' => exact ih.trans ih'

/-- The last piece with a key gives it what stands behind the first sign. -/
theorem getLast?_values_append_cons {before after : List (List Char)} {k v : List Char} {key : Char}
    (hk : '=' ∉ k) (htrim : Text.trim k = [key])
    (hafter : ∀ s ∈ after, (Pair.ofText s).key ≠ [key]) :
    (values key ((before ++ (k ++ '=' :: v) :: after).map Pair.ofText)).getLast? =
      some (Text.trim v) := by
  have hnone : after.filterMap (fun s => (Pair.ofText s).value? key) = [] :=
    List.filterMap_eq_nil_iff.mpr fun s hs => if_neg (hafter s hs)
  have hvalue : (Pair.ofText (k ++ '=' :: v)).value? key = some (Text.trim v) := by
    rw [Pair.ofText_append_cons hk]
    exact if_pos htrim
  simp [values, List.filterMap_map, List.filterMap_append, hvalue, hnone]

/-- The two fields that are texts, with their keys. -/
def textFields : List (Char × (Notification → Option String)) :=
  [('i', Notification.identifier), ('t', Notification.type)]

theorem textField_of_parse {metadata : String} (h : parse metadata = .ok n) {key : Char}
    {field : Notification → Option String} (hfield : (key, field) ∈ textFields) :
    field n = (values key (written metadata)).getLast?.map String.ofList := by
  obtain ⟨hdraft, -⟩ := Draft.finish_eq_ok_iff.mp (parse_eq_ok_iff.mp h).2
  rcases List.mem_pair.mp hfield with hi | ht
  · cases hi
    exact (congrArg Draft.identifier hdraft).symm
  · cases ht
    exact (congrArg Draft.type hdraft).symm

/-- **What a metadata text says is a matter of its values.** It is read when each value of a key is one
that the key can have and the last ones make a notification, which is then what is read. So rewording
changes nothing, and an identifier or a type is taken as it stands behind the first sign, signs included.
-/
theorem parse_spec :
    (∀ metadata : String, (∀ v ∈ values 'l' (written metadata), ¬ EndsBeyond v) →
      ((∃ n, parse metadata = .ok n) ↔ IsValid (written metadata)) ∧
        ∀ n, parse metadata = .ok n ↔ IsValid (written metadata) ∧ Describes (written metadata) n) ∧
    (∀ ps qs : List (List Char), (∀ s ∈ ps ++ qs, ';' ∉ s) → Relation.EqvGen Reworded ps qs →
      (parse (ofPieces ps)).toOption = (parse (ofPieces qs)).toOption) ∧
    ∀ (before after : List (List Char)) (k v : List Char) (n : Notification) (key : Char)
      (field : Notification → Option String), (key, field) ∈ textFields →
      (∀ s ∈ before ++ (k ++ '=' :: v) :: after, ';' ∉ s) → '=' ∉ k → Text.trim k = [key] →
      (∀ s ∈ after, (Pair.ofText s).key ≠ [key]) →
      parse (ofPieces (before ++ (k ++ '=' :: v) :: after)) = .ok n →
      field n = some (String.ofList (Text.trim v)) := by
  refine ⟨fun metadata hbeyond => ⟨⟨?_, fun hvalid => ?_⟩, fun n => parse_eq_ok_iff_describes hbeyond⟩,
    ?_, ?_⟩
  · rintro ⟨n, h⟩
    exact ((parse_eq_ok_iff_describes hbeyond).mp h).1
  · obtain ⟨n, hn⟩ := hvalid.exists_describes hbeyond
    exact ⟨n, (parse_eq_ok_iff_describes hbeyond).mpr ⟨hvalid, hn⟩⟩
  · intro ps qs hpieces hreworded
    refine toOption_parse_congr fun key hkey => ?_
    rw [values_written_ofPieces fun s hs => hpieces s (List.mem_append_left qs hs),
      values_written_ofPieces fun s hs => hpieces s (List.mem_append_right ps hs)]
    exact values_eq_of_eqvGen hreworded hkey
  · intro before after k v n key field hfield hpieces hk htrim hafter hparse
    rw [textField_of_parse hparse hfield, values_written_ofPieces hpieces,
      getLast?_values_append_cons hk htrim hafter, Option.map_some]

/-- Pieces with much white space, a blank one among them, and an identifier that begins with a sign. -/
def spacedPieces : List (List Char) :=
  [" a = eval ".toList, " ".toList, "t=unsigned int".toList, "l=[2, 5,2,9 ]".toList, "n=+07".toList,
    "i==b ".toList]

/-- What they say. -/
def spacedNotification : Notification :=
  ⟨.eval, some "=b", some "unsigned int", some ⟨⟨2, 5⟩, ⟨2, 10⟩⟩, some 7⟩

theorem spacedPieces_parse_spec :
    (IsValid (written (ofPieces spacedPieces)) ∧
      Describes (written (ofPieces spacedPieces)) spacedNotification) ∧
    (parse (ofPieces spacedPieces)).toOption = (parse (ofPieces ("x=1".toList :: spacedPieces))).toOption ∧
    spacedNotification.identifier = some (String.ofList (Text.trim "=b ".toList)) := by
  have hlocations : values 'l' (written (ofPieces spacedPieces)) = ["[2, 5,2,9 ]".toList] := by
    decide +kernel
  have harray : Json.IsArray [2, 5, 2, 9] "[2, 5,2,9 ]".toList :=
    (fourSizes?_read?_eq_some_iff.mp (by decide +kernel)).1
  have hbeyond : ∀ v ∈ values 'l' (written (ofPieces spacedPieces)), ¬ EndsBeyond v := by
    rw [hlocations]
    rintro v hv ⟨sl, sc, el, ec, hother, hsize⟩
    rw [List.mem_singleton.mp hv] at hother
    cases harray.unique hother
    exact absurd hsize (by decide)
  have hignored : ∀ key ∈ keys, (Pair.ofText "x=1".toList).key ≠ [key] := by
    have hkey : (Pair.ofText "x=1".toList).key = ['x'] := by decide +kernel
    rw [hkey]
    simp [keys]
  refine ⟨((parse_spec.1 _ hbeyond).2 spacedNotification).mp (by decide +kernel), ?_, ?_⟩
  · exact parse_spec.2.1 _ _ (by decide +kernel) (.rel _ _ (@Reworded.ignored [] _ _ hignored))
  · exact parse_spec.2.2 (spacedPieces.take 5) [] ['i'] "=b ".toList spacedNotification 'i' _
      List.mem_cons_self (by decide +kernel) (by decide) (by decide) (by decide) (by decide +kernel)

/-- A node beyond 64 bits is not read, although it is a natural number. -/
theorem parse_nodeBeyond :
    values 'a' (written "a=stat;n=18446744073709551616") = ["stat".toList] ∧
      NamesAction "stat".toList .statement ∧ Action.statement.carriesValue = false ∧
      values 'l' (written "a=stat;n=18446744073709551616") = [] ∧
      values 'n' (written "a=stat;n=18446744073709551616") = ["18446744073709551616".toList] ∧
      Json.IsNumeral "18446744073709551616".toList 18446744073709551616 ∧
      ¬ ∃ n, parse "a=stat;n=18446744073709551616" = .ok n := by
  have herror : parse "a=stat;n=18446744073709551616" =
      .error (.malformedLocation "node id '18446744073709551616'") := by decide +kernel
  refine ⟨by decide +kernel, .inl rfl, rfl, by decide +kernel, by decide +kernel,
    ⟨by decide, List.all_eq_true.mp (by decide), by decide⟩, ?_⟩
  rintro ⟨n, h⟩
  cases herror.symm.trans h

end Notification

end Retrace
