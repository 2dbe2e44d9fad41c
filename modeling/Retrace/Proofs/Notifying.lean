import Retrace.Proofs.Recording

/-!
# Notifying a recorder

What a notification records depends on its payloads and on the templates that earlier requests have
registered under its reference: all of their steps, when none of them is rejected, as far as the
limit allows; otherwise none.

* `Recorder.registered`: the templates that requests register under a reference.
* `Recorder.templatesOf_performAll`: those are the templates that the recorder has.
* `Recorder.announced`: the templates that requests bring along, registered or not.
* `Recorder.recordTemplates_of_rejection`, `Recorder.recordTemplates_of_makes`: all steps or none.
* `Recorder.recordAll_register`: recording does not look at templates, nor registering at steps.
* `Recorder.notify_eq_unknownReference_iff`, `Recorder.recordTemplates_performAll_of_le`,
  `Recorder.recordTemplates_performAll_of_lt`: when a reference is unknown, and which steps are
  recorded of a reached recorder.
* `Recorder.notify_reached`: what a recorder does with a notification, however it was reached.
-/

namespace Retrace.Recorder

variable {r : Recorder}

/-- The template that a request registers under a reference. -/
def Request.template? (reference : UInt32) : Request → Option Notification
  | .register other template => if other = reference then some template else none
  | .registerMetadata other metadata =>
    if other = reference then (Notification.parse metadata).toOption else none
  | _ => none

/-- The templates that requests register under a reference, in order. -/
def registered (reference : UInt32) (requests : List Request) : List Notification :=
  requests.filterMap (Request.template? reference)

/-- The template that a request brings along, to be registered or for one step. -/
def Request.announced? : Request → Option Notification
  | .register _ template => some template
  | .registerMetadata _ metadata | .notifyMetadata metadata _ =>
    (Notification.parse metadata).toOption
  | _ => none

/-- The templates that requests bring along, in order. -/
def announced (requests : List Request) : List Notification := requests.filterMap Request.announced?

/-- A template that is registered ready-made has been read from a metadata text before. -/
def Request.FromMetadata : Request → Prop
  | .register _ template => ∃ metadata, Notification.parse metadata = .ok template
  | _ => True

/-- Registers what a metadata text describes under a reference, and then notifies by that. -/
def registerAndNotify (r : Recorder) (reference : UInt32) (metadata : String)
    (payloads : List (List UInt8)) : Recorder × Outcome :=
  match r.registerMetadata reference metadata with
  | (r, .ok ()) => r.notify reference payloads
  | (r, .error e) => (r, .error e)

/-! ## Templates -/

/-- Requests for steps register nothing. -/
theorem templates_perform_of_records {request : Request} (h : request.records = true) :
    (r.perform request).1.templates = r.templates := by
  rcases perform_of_records r h with ⟨-, steps, hperform⟩ | ⟨e, -, hperform⟩
  · rw [hperform]
    rcases r.recordAll_cases steps with h | ⟨room, h⟩ <;> rw [h] <;> rfl
  · rw [hperform]

theorem templatesOf_register (r : Recorder) (other : UInt32) (template : Notification)
    (reference : UInt32) : (r.register other template).templatesOf reference =
      r.templatesOf reference ++ (if other = reference then some template else none).toList := by
  unfold templatesOf register
  rw [Array.toList_push, List.filterMap_append]
  rfl

theorem templatesOf_perform (r : Recorder) (request : Request) (reference : UInt32) :
    (r.perform request).1.templatesOf reference =
      r.templatesOf reference ++ (request.template? reference).toList := by
  cases hrecords : request.records with
  | true =>
    have hnone : request.template? reference = none := by
      cases request with
      | register | registerMetadata => cases hrecords
      | notify | notifyMetadata | printOutput | printError => rfl
    rw [templatesOf, templates_perform_of_records hrecords, hnone, Option.toList_none,
      List.append_nil]
    rfl
  | false =>
    cases request with
    | register other template => exact templatesOf_register r other template reference
    | registerMetadata other metadata =>
      rw [perform, registerMetadata, Request.template?]
      cases Notification.parse metadata with
      | ok template => exact templatesOf_register r other template reference
      | error e => simp [Except.toOption]
    | notify | notifyMetadata | printOutput | printError => cases hrecords

/-- **A recorder has the templates that were registered**, in order. -/
theorem templatesOf_performAll (limit : Nat) (requests : List Request) (reference : UInt32) :
    ((new limit).performAll requests).1.templatesOf reference = registered reference requests := by
  induction requests using List.reverseRecOn with
  | nil => rfl
  | append_singleton requests request ih =>
    rw [performAll_append_singleton, templatesOf_perform, ih, registered, registered,
      List.filterMap_append]
    cases h : request.template? reference <;> simp [h]

theorem registered_subset_announced (reference : UInt32) (requests : List Request) :
    registered reference requests ⊆ announced requests := by
  intro template h
  obtain ⟨request, hrequest, htemplate⟩ := List.mem_filterMap.mp h
  refine List.mem_filterMap.mpr ⟨request, hrequest, ?_⟩
  cases request with
  | register | registerMetadata => exact (Option.ite_none_right_eq_some.mp htemplate).2
  | notify | notifyMetadata | printOutput | printError => cases htemplate

theorem announced_append_singleton (requests : List Request) (request : Request) :
    announced (requests ++ [request]) = announced requests ++ request.announced?.toList := by
  unfold announced
  rw [List.filterMap_append]
  cases h : request.announced? <;> simp [h]

/-- What is announced has been read from a metadata text. -/
theorem exists_parse_of_mem_announced {requests : List Request}
    (h : ∀ request ∈ requests, request.FromMetadata) {template : Notification}
    (ht : template ∈ announced requests) : ∃ metadata, Notification.parse metadata = .ok template := by
  obtain ⟨request, hrequest, htemplate⟩ := List.mem_filterMap.mp ht
  have hread {metadata : String} (h : (Notification.parse metadata).toOption = some template) :
      Notification.parse metadata = .ok template := by
    cases hparse : Notification.parse metadata with
    | error e =>
      rw [hparse] at h
      cases h
    | ok given =>
      rw [hparse] at h
      rw [Option.some.inj h]
  have hfrom := h request hrequest
  cases request with
  | register reference given =>
    obtain rfl := Option.some.inj htemplate
    exact hfrom
  | registerMetadata reference metadata => exact ⟨metadata, hread htemplate⟩
  | notifyMetadata metadata payloads => exact ⟨metadata, hread htemplate⟩
  | notify | printOutput | printError => cases htemplate

theorem complete_of_mem_registered {requests : List Request}
    (h : ∀ request ∈ requests, request.FromMetadata) {reference : UInt32} {template : Notification}
    (ht : template ∈ registered reference requests) : template.Complete := by
  obtain ⟨metadata, hparse⟩ :=
    exists_parse_of_mem_announced h (registered_subset_announced reference requests ht)
  exact Notification.complete_of_parse hparse

/-! ## All steps or none -/

section Templates

variable {templates : List Notification} {payloads : List (List UInt8)}

theorem recordTemplates_of_rejection {e : TraceError}
    (h : FirstRejection (handOut templates payloads) e) :
    r.recordTemplates templates payloads = (r, .error e) := by
  rw [recordTemplates, expand_eq_error_iff.mpr h]

theorem recordTemplates_of_makes {steps : List Step}
    (h : List.Forall₂ (fun x s => x.1.Makes x.2 s) (handOut templates payloads) steps) :
    r.recordTemplates templates payloads = r.recordAll steps := by
  rw [recordTemplates, expand_eq_ok_iff.mpr h]

theorem makes_or_rejection (templates : List Notification) (payloads : List (List UInt8)) :
    (∃ steps, List.Forall₂ (fun x s => x.1.Makes x.2 s) (handOut templates payloads) steps) ∨
      ∃ e, FirstRejection (handOut templates payloads) e := by
  cases hexpand : expand templates payloads with
  | ok steps => exact .inl ⟨steps, expand_eq_ok_iff.mp hexpand⟩
  | error e => exact .inr ⟨e, expand_eq_error_iff.mp hexpand⟩

/-- Templates that are found are not unknown, whatever becomes of them. -/
theorem recordTemplates_ne_unknownReference (r : Recorder) (templates : List Notification)
    (payloads : List (List UInt8)) (reference : UInt32) :
    (r.recordTemplates templates payloads).2 ≠ .error (.unknownReference reference) := by
  rcases makes_or_rejection templates payloads with ⟨steps, hmakes⟩ | ⟨e, hrejection⟩
  · rw [recordTemplates_of_makes hmakes]
    rcases r.recordAll_cases steps with h | ⟨room, h⟩ <;> rw [h] <;> exact nofun
  · rw [recordTemplates_of_rejection hrejection]
    obtain ⟨-, template, payload, -, -, hrejects, -⟩ := hrejection
    exact fun h => hrejects.ne_unknownReference reference (Except.error.inj h)

end Templates

/-! ## Notifying without registering -/

theorem recordAll_register (r : Recorder) (reference : UInt32) (template : Notification)
    (steps : List Step) : (r.register reference template).recordAll steps =
      ((r.recordAll steps).1.register reference template, (r.recordAll steps).2) := by
  induction steps generalizing r with
  | nil => rfl
  | cons s steps ih =>
    rw [recordAll, recordAll]
    change (if r.limit ≤ r.steps.size then _ else _) = _
    by_cases hfull : r.limit ≤ r.steps.size
    · rw [if_pos hfull, if_pos hfull]
      rfl
    · rw [if_neg hfull, if_neg hfull]
      exact ih { r with steps := r.steps.push s }

theorem recordTemplates_register (r : Recorder) (reference : UInt32) (template : Notification)
    (templates : List Notification) (payloads : List (List UInt8)) :
    (r.register reference template).recordTemplates templates payloads =
      ((r.recordTemplates templates payloads).1.register reference template,
        (r.recordTemplates templates payloads).2) := by
  unfold recordTemplates
  cases expand templates payloads with
  | ok steps => exact recordAll_register r reference template steps
  | error e => rfl

/-- **A notification by its metadata is one by a fresh reference**, but for what stays registered.
-/
theorem notifyMetadata_eq_registerAndNotify (hrunning : r.halted = false) {fresh : UInt32}
    (hfresh : r.templatesOf fresh = []) (metadata : String) (payloads : List (List UInt8)) :
    (r.notifyMetadata metadata payloads).2 = (r.registerAndNotify fresh metadata payloads).2 ∧
    (r.notifyMetadata metadata payloads).1.steps =
      (r.registerAndNotify fresh metadata payloads).1.steps ∧
    (r.notifyMetadata metadata payloads).1.halted =
      (r.registerAndNotify fresh metadata payloads).1.halted := by
  unfold registerAndNotify registerMetadata
  cases hparse : Notification.parse metadata with
  | error e =>
    rw [notifyMetadata_of_error hrunning hparse]
    exact ⟨rfl, rfl, rfl⟩
  | ok template =>
    have htemplates : (r.register fresh template).templatesOf fresh = [template] := by
      rw [templatesOf_register, hfresh, if_pos rfl]
      rfl
    have hnotify := notify_of_ne_nil (r := r.register fresh template) hrunning
      (htemplates ▸ List.cons_ne_nil template []) payloads
    rw [notifyMetadata_of_ok hrunning hparse]
    dsimp only
    rw [hnotify, htemplates, recordTemplates_register]
    exact ⟨rfl, rfl, rfl⟩

/-! ## However the recorder was reached -/

section Reached

variable {limit : Nat} {requests : List Request} {reference : UInt32}
  {payloads : List (List UInt8)} {steps : List Step}

/-- Under a reference without templates there is nothing to notify about. -/
theorem notify_of_registered_eq_nil
    (hrunning : ((new limit).performAll requests).1.halted = false)
    (h : registered reference requests = []) (payloads : List (List UInt8)) :
    ((new limit).performAll requests).1.notify reference payloads =
      (((new limit).performAll requests).1, .error (.unknownReference reference)) :=
  notify_of_nil hrunning ((templatesOf_performAll limit requests reference).trans h) payloads

theorem notify_of_registered_ne_nil
    (hrunning : ((new limit).performAll requests).1.halted = false)
    (h : registered reference requests ≠ []) (payloads : List (List UInt8)) :
    ((new limit).performAll requests).1.notify reference payloads =
      ((new limit).performAll requests).1.recordTemplates (registered reference requests)
        payloads := by
  rw [← templatesOf_performAll limit] at h ⊢
  exact notify_of_ne_nil hrunning h payloads

/-- **A reference is unknown just when nothing was registered under it.** -/
theorem notify_eq_unknownReference_iff
    (hrunning : ((new limit).performAll requests).1.halted = false) :
    (((new limit).performAll requests).1.notify reference payloads).2 =
      .error (.unknownReference reference) ↔ registered reference requests = [] := by
  constructor
  · intro h
    by_contra hne
    rw [notify_of_registered_ne_nil hrunning hne] at h
    exact recordTemplates_ne_unknownReference _ _ _ _ h
  · intro h
    rw [notify_of_registered_eq_nil hrunning h]

/-- The steps that registered templates make have the values that their actions call for. -/
theorem isSome_value_of_makes (hparsed : ∀ request ∈ requests, request.FromMetadata)
    (hmakes : List.Forall₂ (fun x s => x.1.Makes x.2 s)
      (handOut (registered reference requests) payloads) steps) {s : Step} (hs : s ∈ steps)
    (hcarries : s.action.carriesValue = true) : s.value.isSome = true := by
  obtain ⟨x, hx, hmakes⟩ := exists_of_mem_forall₂ hmakes hs
  have hmem : x.1 ∈ registered reference requests := by
    rw [← map_fst_handOut (registered reference requests) payloads]
    exact List.mem_map_of_mem hx
  exact hmakes.isSome_value (complete_of_mem_registered hparsed hmem) hcarries

/-- Steps that all have room are all recorded. -/
theorem recordTemplates_performAll_of_le {templates : List Notification}
    (hmakes : List.Forall₂ (fun x s => x.1.Makes x.2 s) (handOut templates payloads) steps)
    (hle : ((new limit).performAll requests).1.steps.size + steps.length ≤ limit) :
    ((new limit).performAll requests).1.recordTemplates templates payloads =
      (((new limit).performAll requests).1.add steps, .ok ()) := by
  have hguarded := guarded_performAll limit requests
  rw [recordTemplates_of_makes hmakes, recordAll_of_le (hle.trans_eq hguarded.made.symm)]

/-- Otherwise those that have room are, and the recorder is halted. -/
theorem recordTemplates_performAll_of_lt {templates : List Notification}
    (hmakes : List.Forall₂ (fun x s => x.1.Makes x.2 s) (handOut templates payloads) steps)
    (hlt : limit < ((new limit).performAll requests).1.steps.size + steps.length) :
    ((new limit).performAll requests).1.recordTemplates templates payloads =
      ((((new limit).performAll requests).1.add
        (steps.take (limit - ((new limit).performAll requests).1.steps.size))).halt,
        .error (.stepLimitExceeded limit)) := by
  have hguarded := guarded_performAll limit requests
  have hroom := hguarded.room
  have hleft : ((new limit).performAll requests).1.steps.size +
      (limit - ((new limit).performAll requests).1.steps.size) =
        ((new limit).performAll requests).1.limit := by
    rw [hguarded.made]
    omega
  rw [recordTemplates_of_makes hmakes, recordAll_of_lt hleft (by omega), hguarded.made]

end Reached

/-- **What a notification does**, after any requests that have not halted the recorder and whose
templates come from metadata texts. Its reference is unknown just when nothing was registered under
it. Otherwise each template registered under it makes one step, in order, with the payload that it
takes; the first that is rejected gives the error, and nothing is changed. Steps that all have room
are all added; if not, those that have room are, and the recorder is halted. A notification by its
metadata has the same outcome and leaves the same steps as one by a reference under which nothing
but that was registered. -/
theorem notify_reached {limit : Nat} {requests : List Request}
    (hparsed : ∀ request ∈ requests, request.FromMetadata)
    (hrunning : ((new limit).performAll requests).1.halted = false) (reference : UInt32)
    (payloads : List (List UInt8)) :
    let r := ((new limit).performAll requests).1
    let templates := registered reference requests
    ((r.notify reference payloads).2 = .error (.unknownReference reference) ↔ templates = []) ∧
    (templates = [] → (r.notify reference payloads).1 = r) ∧
    (templates ≠ [] → ∀ e, FirstRejection (handOut templates payloads) e →
      r.notify reference payloads = (r, .error e)) ∧
    (templates ≠ [] → (∀ e, ¬ FirstRejection (handOut templates payloads) e) →
      ∃ steps, List.Forall₂ (fun x s => x.1.Makes x.2 s) (handOut templates payloads) steps ∧
        steps.length = templates.length ∧
        (∀ s ∈ steps, s.action.carriesValue = true → s.value.isSome = true) ∧
        (r.steps.size + steps.length ≤ limit →
          r.notify reference payloads = (r.add steps, .ok ())) ∧
        (limit < r.steps.size + steps.length →
          r.notify reference payloads = ((r.add (steps.take (limit - r.steps.size))).halt,
            .error (.stepLimitExceeded limit)))) ∧
    ∀ fresh metadata, registered fresh requests = [] →
      (r.notifyMetadata metadata payloads).2 = (r.registerAndNotify fresh metadata payloads).2 ∧
      (r.notifyMetadata metadata payloads).1.steps =
        (r.registerAndNotify fresh metadata payloads).1.steps ∧
      (r.notifyMetadata metadata payloads).1.halted =
        (r.registerAndNotify fresh metadata payloads).1.halted := by
  intro r templates
  refine ⟨notify_eq_unknownReference_iff hrunning, fun h => ?_, fun h e hrejection => ?_,
    fun h hno => ?_, fun fresh metadata hfresh => ?_⟩
  · rw [notify_of_registered_eq_nil hrunning h]
  · rw [notify_of_registered_ne_nil hrunning h]
    exact recordTemplates_of_rejection hrejection
  · obtain ⟨steps, hmakes⟩ :=
      (makes_or_rejection templates payloads).resolve_right fun ⟨e, he⟩ => hno e he
    have hlength : steps.length = templates.length := by
      rw [← hmakes.length_eq, handOut, List.length_mapIdx]
    rw [notify_of_registered_ne_nil hrunning h]
    exact ⟨steps, hmakes, hlength, fun s => isSome_value_of_makes hparsed hmakes,
      recordTemplates_performAll_of_le hmakes, recordTemplates_performAll_of_lt hmakes⟩
  · rw [← templatesOf_performAll limit] at hfresh
    exact notifyMetadata_eq_registerAndNotify hrunning hfresh metadata payloads

/-- A statement and an evaluation are registered under one reference, and a line is written. -/
def twoTemplates : List Request :=
  [.registerMetadata 1 "a=stat", .registerMetadata 1 "a=eval;t=int", .printOutput "ready"]

/-- With room for two steps, a notification then records the statement, but not the evaluation, and
halts the recorder. -/
theorem twoTemplates_notify :
    let r := ((new 2).performAll twoTemplates).1
    r.halted = false ∧ r.steps.size = 1 ∧ r.notify 1 [[35, 0, 0, 0]] =
      ((r.add [{ action := .statement }]).halt, .error (.stepLimitExceeded 2)) := by
  have hrunning : ((new 2).performAll twoTemplates).1.halted = false := by decide +kernel
  have hsize : ((new 2).performAll twoTemplates).1.steps.size = 1 := by decide +kernel
  have hparsed : ∀ request ∈ twoTemplates, request.FromMetadata := by
    simp [twoTemplates, Request.FromMetadata]
  have hexpand : expand (registered 1 twoTemplates) [[35, 0, 0, 0]] =
      .ok [{ action := .statement }, { action := .eval, value := some ⟨"int", .int 35⟩ }] := by
    decide +kernel
  obtain ⟨-, -, -, hmakes, -⟩ := notify_reached hparsed hrunning 1 [[35, 0, 0, 0]]
  obtain ⟨steps, hsteps, -, -, -, hexceeded⟩ := hmakes (by decide +kernel) fun e hrejection => by
    cases hexpand.symm.trans (expand_eq_error_iff.mpr hrejection)
  obtain rfl := Except.ok.inj (hexpand.symm.trans (expand_eq_ok_iff.mpr hsteps))
  rw [hsize] at hexceeded
  exact ⟨hrunning, hsize, hexceeded (by decide)⟩

end Retrace.Recorder
