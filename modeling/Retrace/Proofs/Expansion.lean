import Retrace.Proofs.FirstError
import Retrace.Recorder

/-!
# Expanding templates

Templates become steps in order, and those with a type take the payloads in turn. Which payload a
template takes depends on nothing but how many templates with a type come before it, so the payloads
can be handed out first, and each template makes its step, or is rejected, for itself.

* `handOut`: templates with the payloads that they take.
* `Notification.Makes`, `Notification.Rejects`: what a template can do with what it takes.
* `expand_eq_mapM`: expansion is a traversal of templates with their payloads.
* `expand_eq_ok_iff`, `expand_eq_error_iff`: it gives every template's step, or else the error of
  the first that is rejected.
-/

namespace Retrace

/-- Templates with the payloads that they take: the first that has a type takes the first payload,
and so on, for as long as there are any. -/
def handOut (templates : List Notification) (payloads : List (List UInt8)) :
    List (Notification × Option (List UInt8)) :=
  templates.mapIdx fun i template =>
    (template, if template.type.isSome then
      payloads[(templates.take i).countP fun other => other.type.isSome]? else none)

namespace Notification

/-- A template that needs a payload says of what type it is. -/
def Complete (template : Notification) : Prop :=
  template.needsPayload = true → template.type.isSome = true

/-- The step that a template makes of the payload that it takes, or of none. -/
inductive Makes (template : Notification) : Option (List UInt8) → Step → Prop
  | bare (hneeds : template.type = none ∨ template.needsPayload = false) :
      Makes template none template.toStep
  | valued {type : String} {payload : List UInt8} {value : Value}
      (htype : template.type = some type) (hvalue : Payload.decode type payload = .ok value) :
      Makes template (some payload) { template.toStep with value := some ⟨type, value⟩ }

/-- Why a template makes no step: its payload is missing, or holds no value of its type. -/
inductive Rejects (template : Notification) : Option (List UInt8) → TraceError → Prop
  | missing {type : String} (htype : template.type = some type)
      (hneeds : template.needsPayload = true) :
      Rejects template none (.missingPayload template.action.name type)
  | undecodable {type : String} {payload : List UInt8} {e : TraceError}
      (htype : template.type = some type) (hvalue : Payload.decode type payload = .error e) :
      Rejects template (some payload) e

end Notification

/-- The error of the first template that is rejected. -/
def FirstRejection (handed : List (Notification × Option (List UInt8))) (e : TraceError) : Prop :=
  ∃ before template payload after, handed = before ++ (template, payload) :: after ∧
    template.Rejects payload e ∧ ∀ x ∈ before, ∀ e', ¬ x.1.Rejects x.2 e'

/-- A template's step, when it takes what it is given. -/
def makeStep (template : Notification) (payload : Option (List UInt8)) : Except TraceError Step :=
  (expandOne template payload.toList).map Prod.fst

/-! ## One template -/

/-- A template from a metadata text is complete. -/
theorem Notification.complete_of_parse {metadata : String} {template : Notification}
    (h : parse metadata = .ok template) : template.Complete := by
  obtain ⟨draft, -, hfinish⟩ := bind_eq_ok_iff.mp h
  unfold Draft.finish at hfinish
  split at hfinish
  · cases hfinish
  · split at hfinish
    · cases hfinish
    · next action _ hmissing =>
      obtain rfl := Except.ok.inj hfinish
      intro hneeds
      have hneeds : action.carriesValue = true := hneeds
      rw [hneeds, Bool.true_and] at hmissing
      cases htype : draft.type with
      | none =>
        rw [htype] at hmissing
        exact absurd rfl hmissing
      | some type => rfl

theorem Payload.of_decode_eq_error {type : String} {payload : List UInt8} {e : TraceError}
    (h : decode type payload = .error e) :
    e = .unsupportedType type ∨ ∃ needed, e = .payloadTooShort type needed payload.length := by
  have htake {α : Type} {needed : Nat} {f : List UInt8 → α}
      (h : (take type payload needed).map f = .error e) :
      e = .payloadTooShort type needed payload.length := by
    unfold take at h
    split at h
    · exact (Except.error.inj h).symm
    · cases h
  unfold decode at h
  split at h
  case h_7 => exact Or.inl (Except.error.inj h).symm
  all_goals exact Or.inr ⟨_, htake h⟩

namespace Notification.Rejects

variable {template : Notification} {payload : Option (List UInt8)} {e : TraceError}

/-- The error of a rejected template does not say that the program ran away. -/
theorem isRunaway_eq_false (h : template.Rejects payload e) : e.isRunaway = false := by
  cases h with
  | missing => rfl
  | undecodable _ hvalue =>
    rcases Payload.of_decode_eq_error hvalue with rfl | ⟨needed, rfl⟩ <;> rfl

/-- The error of a rejected template does not say that a reference is unknown. -/
theorem ne_unknownReference (h : template.Rejects payload e) (reference : UInt32) :
    e ≠ .unknownReference reference := by
  cases h with
  | missing => exact nofun
  | undecodable _ hvalue =>
    rcases Payload.of_decode_eq_error hvalue with rfl | ⟨needed, rfl⟩ <;> exact nofun

end Notification.Rejects

section OneTemplate

variable {template : Notification} {payload : Option (List UInt8)} {s : Step} {e : TraceError}

theorem Notification.Makes.makeStep_eq (h : template.Makes payload s) :
    makeStep template payload = .ok s := by
  unfold makeStep expandOne
  cases h with
  | bare hneeds =>
    cases htype : template.type with
    | none => rfl
    | some type =>
      rcases hneeds with hnone | hneeds
      · cases htype.symm.trans hnone
      · dsimp only [Option.toList_none]
        rw [hneeds]
        rfl
  | valued htype hvalue =>
    rw [htype]
    dsimp only [Option.toList_some]
    rw [hvalue]
    rfl

theorem Notification.Rejects.makeStep_eq (h : template.Rejects payload e) :
    makeStep template payload = .error e := by
  unfold makeStep expandOne
  cases h with
  | missing htype hneeds =>
    rw [htype]
    dsimp only [Option.toList_none]
    rw [hneeds]
    rfl
  | undecodable htype hvalue =>
    rw [htype]
    dsimp only [Option.toList_some]
    rw [hvalue]
    rfl

theorem Notification.makes_or_rejects
    (htyped : payload.isSome = true → template.type.isSome = true) :
    (∃ s, template.Makes payload s) ∨ ∃ e, template.Rejects payload e := by
  cases payload with
  | none =>
    cases hneeds : template.needsPayload with
    | false => exact .inl ⟨_, .bare (.inr hneeds)⟩
    | true =>
      cases htype : template.type with
      | none => exact .inl ⟨_, .bare (.inl htype)⟩
      | some type => exact .inr ⟨_, .missing htype hneeds⟩
  | some payload =>
    obtain ⟨type, htype⟩ := Option.isSome_iff_exists.mp (htyped rfl)
    cases hvalue : Payload.decode type payload with
    | ok value => exact .inl ⟨_, .valued htype hvalue⟩
    | error e => exact .inr ⟨_, .undecodable htype hvalue⟩

theorem makeStep_eq_ok_iff (htyped : payload.isSome = true → template.type.isSome = true) :
    makeStep template payload = .ok s ↔ template.Makes payload s := by
  refine ⟨fun h => ?_, Notification.Makes.makeStep_eq⟩
  rcases Notification.makes_or_rejects htyped with ⟨s', hmakes⟩ | ⟨e, hrejects⟩
  · cases hmakes.makeStep_eq.symm.trans h
    exact hmakes
  · cases hrejects.makeStep_eq.symm.trans h

theorem makeStep_eq_error_iff (htyped : payload.isSome = true → template.type.isSome = true) :
    makeStep template payload = .error e ↔ template.Rejects payload e := by
  refine ⟨fun h => ?_, Notification.Rejects.makeStep_eq⟩
  rcases Notification.makes_or_rejects htyped with ⟨s, hmakes⟩ | ⟨e', hrejects⟩
  · cases hmakes.makeStep_eq.symm.trans h
  · cases hrejects.makeStep_eq.symm.trans h
    exact hrejects

end OneTemplate

/-- A complete template's step has a value when its action calls for one. -/
theorem Notification.Makes.isSome_value {template : Notification} {payload : Option (List UInt8)}
    {s : Step} (h : template.Makes payload s) (hcomplete : template.Complete)
    (hcarries : s.action.carriesValue = true) : s.value.isSome = true := by
  cases h with
  | bare hneeds =>
    have htype := hcomplete hcarries
    rcases hneeds with hnone | hneeds
    · rw [hnone] at htype
      cases htype
    · cases hneeds.symm.trans hcarries
  | valued => rfl

/-! ## All templates -/

theorem handOut_cons (template : Notification) (rest : List Notification)
    (payloads : List (List UInt8)) :
    handOut (template :: rest) payloads =
      (template, if template.type.isSome then payloads.head? else none) ::
        handOut rest (if template.type.isSome then payloads.tail else payloads) := by
  unfold handOut
  rw [List.mapIdx_cons]
  congr 1
  · rw [List.take_zero, List.countP_nil, List.head?_eq_getElem?]
  · congr 1
    funext i other
    rw [List.take_succ_cons, List.countP_cons]
    cases template.type.isSome with
    | false => rfl
    | true => simp

theorem isSome_type_of_mem_handOut {templates : List Notification} {payloads : List (List UInt8)}
    {x : Notification × Option (List UInt8)} (hx : x ∈ handOut templates payloads)
    (h : x.2.isSome = true) : x.1.type.isSome = true := by
  obtain ⟨i, hi, rfl⟩ := List.mem_mapIdx.mp hx
  dsimp only at h ⊢
  split at h
  · assumption
  · cases h

theorem map_fst_handOut (templates : List Notification) (payloads : List (List UInt8)) :
    (handOut templates payloads).map Prod.fst = templates := by
  induction templates generalizing payloads with
  | nil => rfl
  | cons template rest ih => rw [handOut_cons, List.map_cons, ih]

theorem expandOne_eq (template : Notification) (payloads : List (List UInt8)) :
    expandOne template payloads =
      (makeStep template (if template.type.isSome then payloads.head? else none)).map fun s =>
        (s, if template.type.isSome then payloads.tail else payloads) := by
  unfold makeStep expandOne
  cases htype : template.type with
  | none => rfl
  | some type =>
    cases payloads with
    | nil => cases template.needsPayload <;> rfl
    | cons payload rest =>
      simp only [Option.isSome_some, if_true, List.head?_cons, Option.toList_some, List.tail_cons]
      cases Payload.decode type payload <;> rfl

/-- **Expansion is a traversal** of the templates with their payloads. -/
theorem expand_eq_mapM (templates : List Notification) (payloads : List (List UInt8)) :
    expand templates payloads = (handOut templates payloads).mapM fun x => makeStep x.1 x.2 := by
  induction templates generalizing payloads with
  | nil => rfl
  | cons template rest ih =>
    rw [handOut_cons, List.mapM_cons, ← ih, expand, expandOne_eq]
    cases makeStep template (if template.type.isSome then payloads.head? else none) <;> rfl

section AllTemplates

variable {templates : List Notification} {payloads : List (List UInt8)}

/-- **Expansion gives every template's step**, in order. -/
theorem expand_eq_ok_iff {steps : List Step} : expand templates payloads = .ok steps ↔
    List.Forall₂ (fun x s => x.1.Makes x.2 s) (handOut templates payloads) steps := by
  have htyped : ∀ x ∈ handOut templates payloads, x.2.isSome = true → x.1.type.isSome = true :=
    fun x hx => isSome_type_of_mem_handOut hx
  rw [expand_eq_mapM, mapM_eq_ok_iff]
  constructor
  · intro h
    exact (List.forall₂_and_left _ _ |>.mpr ⟨htyped, h⟩).imp fun x s ⟨hx, hs⟩ =>
      (makeStep_eq_ok_iff hx).mp hs
  · exact fun h => h.imp fun _ _ hs => hs.makeStep_eq

/-- **Expansion fails with the error of the first template that is rejected.** -/
theorem expand_eq_error_iff {e : TraceError} :
    expand templates payloads = .error e ↔ FirstRejection (handOut templates payloads) e := by
  have hstep : ∀ x ∈ handOut templates payloads, ∀ e,
      error? (makeStep x.1 x.2) = some e ↔ x.1.Rejects x.2 e := fun x hx e =>
    error?_eq_some_iff.trans (makeStep_eq_error_iff (isSome_type_of_mem_handOut hx))
  rw [expand_eq_mapM, ← error?_eq_some_iff, error?_mapM, List.findSome?_eq_some_iff]
  constructor
  · rintro ⟨before, ⟨template, payload⟩, after, heq, hx, hbefore⟩
    rw [heq] at hstep
    refine ⟨before, template, payload, after, heq, (hstep _ (by simp) e).mp hx, ?_⟩
    intro x hx e' hrejects
    have herror := (hstep x (List.mem_append_left _ hx) e').mpr hrejects
    cases (hbefore x hx).symm.trans herror
  · rintro ⟨before, template, payload, after, heq, hrejects, hbefore⟩
    rw [heq] at hstep
    refine ⟨before, (template, payload), after, heq, (hstep _ (by simp) e).mpr hrejects, ?_⟩
    intro x hx
    refine Option.eq_none_iff_forall_ne_some.mpr fun e' herror => ?_
    exact hbefore x hx e' ((hstep x (List.mem_append_left _ hx) e').mp herror)

end AllTemplates

end Retrace
