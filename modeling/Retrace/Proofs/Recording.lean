import Retrace.Proofs.Expansion
import Retrace.Proofs.Loading
import Retrace.Proofs.Moves

/-!
# Recorders under requests

A recorder is made for a number of steps and then asked, in any order, to register templates and to
record. One request can record many steps and meet the limit in the middle of them; the steps that
fit are kept, and from then on nothing is recorded any more.

* `Recorder.Request`, `Recorder.perform`, `Recorder.performAll`: what can be asked of a recorder.
* `Recorder.recordAll_of_le`, `Recorder.recordAll_of_lt`: recording with and without room for all
  steps.
* `Recorder.Effect`: everything that a request can do.
* `Recorder.Guarded`: the steps stay within the limit, and the recorder is halted just when a
  request has exceeded it.
* `Recorder.performAll_within_limit`: all of it for a new recorder and the trace that it hands over.
-/

namespace Retrace

namespace Notification

theorem Draft.isRunaway_of_add {draft : Draft} {pair : Pair} {e : TraceError}
    (h : draft.add pair = .error e) : e.isRunaway = false := by
  unfold add at h
  split at h
  · split at h <;> cases h
    rfl
  · cases h
  · cases h
  · split at h <;> cases h
    rfl
  · split at h <;> cases h
    rfl
  · cases h

theorem Draft.isRunaway_of_foldlM {draft : Draft} {ps : List Pair} {e : TraceError}
    (h : ps.foldlM Draft.add draft = .error e) : e.isRunaway = false := by
  induction ps generalizing draft with
  | nil => cases h
  | cons pair ps ih =>
    rw [List.foldlM_cons] at h
    cases hadd : draft.add pair with
    | error e' =>
      rw [hadd] at h
      cases h
      exact isRunaway_of_add hadd
    | ok next =>
      rw [hadd] at h
      exact ih h

theorem Draft.isRunaway_of_finish {draft : Draft} {e : TraceError} (h : draft.finish = .error e) :
    e.isRunaway = false := by
  unfold finish at h
  split at h
  · cases h
    rfl
  · split at h <;> cases h
    rfl

/-- A metadata text that is refused does not say that the program ran away. -/
theorem isRunaway_of_parse {metadata : String} {e : TraceError}
    (h : parse metadata = .error e) : e.isRunaway = false := by
  unfold parse ofPairs at h
  cases hdraft : (pairs metadata.toList).foldlM Draft.add {} with
  | error e' =>
    rw [hdraft] at h
    cases h
    exact Draft.isRunaway_of_foldlM hdraft
  | ok draft =>
    rw [hdraft] at h
    exact Draft.isRunaway_of_finish h

end Notification

namespace Recorder

/-- What can be asked of a recorder. -/
inductive Request where
  | register (reference : UInt32) (template : Notification)
  | registerMetadata (reference : UInt32) (metadata : String)
  | notify (reference : UInt32) (payloads : List (List UInt8))
  | notifyMetadata (metadata : String) (payloads : List (List UInt8))
  | printOutput (line : String)
  | printError (line : String)
  deriving DecidableEq, Repr

/-- Whether a request is for steps, and not for a template. -/
def Request.records : Request → Bool
  | .register _ _ | .registerMetadata _ _ => false
  | _ => true

/-- The result of a request. -/
abbrev Outcome := Except TraceError Unit

/-- Whether a request was refused because the program ran away. -/
def Outcome.isRunaway : Outcome → Bool
  | .ok _ => false
  | .error e => e.isRunaway

/-- The recorder after a request, and the request's outcome. -/
def perform (r : Recorder) : Request → Recorder × Outcome
  | .register reference template => (r.register reference template, .ok ())
  | .registerMetadata reference metadata => r.registerMetadata reference metadata
  | .notify reference payloads => r.notify reference payloads
  | .notifyMetadata metadata payloads => r.notifyMetadata metadata payloads
  | .printOutput line => r.printOutput line
  | .printError line => r.printError line

/-- The recorder after requests, and their outcomes in order. -/
def performAll (r : Recorder) (requests : List Request) : Recorder × List Outcome :=
  requests.foldl (fun (r, outcomes) request =>
    ((r.perform request).1, outcomes ++ [(r.perform request).2])) (r, [])

/-- The recorder with steps added. -/
def add (r : Recorder) (steps : List Step) : Recorder :=
  { r with steps := (r.steps.toList ++ steps).toArray }

/-- The recorder, halted. -/
def halt (r : Recorder) : Recorder := { r with halted := true }

/-- Everything that a request can do to a recorder: it adds a template, is refused and changes
nothing, adds steps, or adds as many steps as there is room for and halts. -/
inductive Effect (r : Recorder) : Recorder → Outcome → Prop
  | registered (reference : UInt32) (template : Notification) :
      Effect r (r.register reference template) (.ok ())
  | refused {e : TraceError} (he : e.isRunaway = false) : Effect r r (.error e)
  | recorded {steps : List Step} (hrunning : r.halted = false)
      (hroom : r.steps.size + steps.length ≤ r.limit) :
      Effect r (r.add steps) (.ok ())
  | exceeded {steps : List Step} {room : Nat} (hrunning : r.halted = false)
      (hroom : r.steps.size + room = r.limit) (hfull : room < steps.length) :
      Effect r (r.add (steps.take room)).halt (.error (.stepLimitExceeded r.limit))

/-- A recorder made for some steps, and the outcomes so far: the steps stay within the limit and
reach it before the recorder halts, and the one request that exceeds it halts the recorder. -/
structure Guarded (limit : Nat) (r : Recorder) (outcomes : List Outcome) : Prop where
  made : r.limit = limit
  room : r.steps.size ≤ limit
  full : r.halted = true → r.steps.size = limit
  runaways : outcomes.filter Outcome.isRunaway =
    if r.halted then [.error (.stepLimitExceeded limit)] else []

variable {r : Recorder}

@[simp] theorem size_add (r : Recorder) (steps : List Step) :
    (r.add steps).steps.size = r.steps.size + steps.length := by
  simp [add]

theorem toList_add (r : Recorder) (steps : List Step) :
    (r.add steps).steps.toList = r.steps.toList ++ steps := by
  simp [add]

/-! ## Recording steps -/

theorem recordAll_of_le {steps : List Step} (h : r.steps.size + steps.length ≤ r.limit) :
    r.recordAll steps = (r.add steps, .ok ()) := by
  induction steps generalizing r with
  | nil => simp [recordAll, add]
  | cons s steps ih =>
    rw [List.length_cons] at h
    have hrest : (r.steps.push s).size + steps.length ≤ r.limit := by
      rw [Array.size_push]
      omega
    rw [recordAll, if_neg (by omega), ih hrest]
    simp [add]

theorem recordAll_of_lt {steps : List Step} {room : Nat} (hroom : r.steps.size + room = r.limit)
    (h : room < steps.length) :
    r.recordAll steps = ((r.add (steps.take room)).halt, .error (.stepLimitExceeded r.limit)) := by
  induction steps generalizing r room with
  | nil => exact absurd h (Nat.not_lt_zero room)
  | cons s steps ih =>
    rw [recordAll]
    cases room with
    | zero =>
      rw [if_pos (by omega)]
      simp [add, halt]
    | succ room =>
      have hrest : (r.steps.push s).size + room = r.limit := by
        rw [Array.size_push]
        omega
      rw [if_neg (by omega), ih hrest (Nat.lt_of_succ_lt_succ h)]
      simp [add, halt]

/-- Recording adds steps, all of them or up to the limit, and touches nothing else. -/
theorem recordAll_cases (r : Recorder) (steps : List Step) :
    r.recordAll steps = (r.add steps, .ok ()) ∨ ∃ room, r.recordAll steps =
      ((r.add (steps.take room)).halt, .error (.stepLimitExceeded r.limit)) := by
  rcases Nat.lt_or_ge r.limit (r.steps.size + steps.length) with h | h
  · cases steps with
    | nil => exact .inl (by simp [recordAll, add])
    | cons s steps =>
      by_cases hfull : r.limit ≤ r.steps.size
      · refine .inr ⟨0, ?_⟩
        rw [recordAll, if_pos hfull]
        simp [add, halt]
      · exact .inr ⟨r.limit - r.steps.size, recordAll_of_lt (by omega) (by omega)⟩
  · exact .inl (recordAll_of_le h)

/-! ## One request -/

/-- **A halted recorder records nothing.** -/
theorem perform_of_halted (h : r.halted = true) {request : Request}
    (hrecords : request.records = true) : r.perform request = (r, .error .halted) := by
  cases request with
  | register | registerMetadata => cases hrecords
  | notify | notifyMetadata | printOutput | printError => exact if_pos h

theorem notify_of_nil {reference : UInt32} (hrunning : r.halted = false)
    (h : r.templatesOf reference = []) (payloads : List (List UInt8)) :
    r.notify reference payloads = (r, .error (.unknownReference reference)) := by
  rw [notify, hrunning, h]
  rfl

theorem notify_of_ne_nil {reference : UInt32} (hrunning : r.halted = false)
    (h : r.templatesOf reference ≠ []) (payloads : List (List UInt8)) :
    r.notify reference payloads = r.recordTemplates (r.templatesOf reference) payloads := by
  obtain ⟨template, rest, htemplates⟩ := List.exists_cons_of_ne_nil h
  rw [notify, hrunning, htemplates]
  rfl

theorem notifyMetadata_of_ok {metadata : String} {template : Notification}
    (hrunning : r.halted = false) (h : Notification.parse metadata = .ok template)
    (payloads : List (List UInt8)) :
    r.notifyMetadata metadata payloads = r.recordTemplates [template] payloads := by
  rw [notifyMetadata, hrunning, h]
  rfl

theorem notifyMetadata_of_error {metadata : String} {e : TraceError} (hrunning : r.halted = false)
    (h : Notification.parse metadata = .error e) (payloads : List (List UInt8)) :
    r.notifyMetadata metadata payloads = (r, .error e) := by
  rw [notifyMetadata, hrunning, h]
  rfl

theorem print_of_running (hrunning : r.halted = false) (stream : Action) (line : String) :
    r.print stream line = r.recordAll [{ action := stream, text := some (line ++ "\n") }] := by
  rw [print, hrunning]
  rfl

theorem recordTemplates_cases (r : Recorder) (templates : List Notification)
    (payloads : List (List UInt8)) :
    (∃ steps, r.recordTemplates templates payloads = r.recordAll steps) ∨
      ∃ e, e.isRunaway = false ∧ r.recordTemplates templates payloads = (r, .error e) := by
  unfold recordTemplates
  cases hexpand : expand templates payloads with
  | ok steps => exact .inl ⟨steps, rfl⟩
  | error e =>
    obtain ⟨-, template, payload, -, -, hrejects, -⟩ := expand_eq_error_iff.mp hexpand
    exact .inr ⟨e, hrejects.isRunaway_eq_false, rfl⟩

theorem perform_of_running (hrunning : r.halted = false) {request : Request}
    (h : request.records = true) :
    (∃ steps, r.perform request = r.recordAll steps) ∨
      ∃ e, e.isRunaway = false ∧ r.perform request = (r, .error e) := by
  cases request with
  | register | registerMetadata => cases h
  | notify reference payloads =>
    by_cases htemplates : r.templatesOf reference = []
    · exact .inr ⟨_, rfl, notify_of_nil hrunning htemplates payloads⟩
    · rw [perform, notify_of_ne_nil hrunning htemplates]
      exact recordTemplates_cases r _ payloads
  | notifyMetadata metadata payloads =>
    cases hparse : Notification.parse metadata with
    | ok template =>
      rw [perform, notifyMetadata_of_ok hrunning hparse]
      exact recordTemplates_cases r _ payloads
    | error e =>
      exact .inr ⟨e, Notification.isRunaway_of_parse hparse,
        notifyMetadata_of_error hrunning hparse payloads⟩
  | printOutput line => exact .inl ⟨_, print_of_running hrunning .stdout line⟩
  | printError line => exact .inl ⟨_, print_of_running hrunning .stderr line⟩

/-- **A request for steps records a list of steps, or else is refused** and changes nothing. -/
theorem perform_of_records (r : Recorder) {request : Request} (h : request.records = true) :
    (r.halted = false ∧ ∃ steps, r.perform request = r.recordAll steps) ∨
      ∃ e, e.isRunaway = false ∧ r.perform request = (r, .error e) := by
  cases hrunning : r.halted with
  | true => exact .inr ⟨.halted, rfl, perform_of_halted hrunning h⟩
  | false => exact (perform_of_running hrunning h).imp_left fun h => ⟨rfl, h⟩

/-- A request for a template registers it, or else is refused and changes nothing. -/
theorem perform_of_not_records (r : Recorder) {request : Request} (h : request.records = false) :
    (∃ reference template, r.perform request = (r.register reference template, .ok ())) ∨
      ∃ e, e.isRunaway = false ∧ r.perform request = (r, .error e) := by
  cases request with
  | register reference template => exact .inl ⟨reference, template, rfl⟩
  | registerMetadata reference metadata =>
    rw [perform, registerMetadata]
    cases hparse : Notification.parse metadata with
    | ok template => exact .inl ⟨reference, template, rfl⟩
    | error e => exact .inr ⟨e, Notification.isRunaway_of_parse hparse, rfl⟩
  | notify | notifyMetadata | printOutput | printError => cases h

theorem recordAll_effect (hrunning : r.halted = false) (hroom : r.steps.size ≤ r.limit)
    (steps : List Step) : Effect r (r.recordAll steps).1 (r.recordAll steps).2 := by
  obtain ⟨room, hroom⟩ := Nat.exists_eq_add_of_le hroom
  rcases Nat.lt_or_ge room steps.length with h | h
  · rw [recordAll_of_lt hroom.symm h]
    exact .exceeded hrunning hroom.symm h
  · rw [recordAll_of_le (by omega)]
    exact .recorded hrunning (by omega)

/-- **What a request does is one of the effects.** -/
theorem effect_perform (hroom : r.steps.size ≤ r.limit) (request : Request) :
    Effect r (r.perform request).1 (r.perform request).2 := by
  cases hrecords : request.records with
  | true =>
    rcases perform_of_records r hrecords with ⟨hrunning, steps, hperform⟩ | ⟨e, he, hperform⟩
    · rw [hperform]
      exact recordAll_effect hrunning hroom steps
    · rw [hperform]
      exact .refused he
  | false =>
    rcases perform_of_not_records r hrecords with
      ⟨reference, template, hperform⟩ | ⟨e, he, hperform⟩
    · rw [hperform]
      exact .registered reference template
    · rw [hperform]
      exact .refused he

/-! ## Any number of requests -/

theorem performAll_append_singleton (r : Recorder) (requests : List Request) (request : Request) :
    r.performAll (requests ++ [request]) =
      (((r.performAll requests).1.perform request).1,
        (r.performAll requests).2 ++ [((r.performAll requests).1.perform request).2]) := by
  unfold performAll
  rw [List.foldl_append]
  rfl

theorem filter_isRunaway_append {outcome : Outcome} (h : outcome.isRunaway = false)
    (outcomes : List Outcome) : (outcomes ++ [outcome]).filter Outcome.isRunaway =
      outcomes.filter Outcome.isRunaway := by
  rw [List.filter_append, List.filter_cons_of_neg (by rw [h]; exact Bool.false_ne_true),
    List.filter_nil, List.append_nil]

theorem Effect.guarded {limit : Nat} {r' : Recorder} {outcomes : List Outcome} {outcome : Outcome}
    (h : Effect r r' outcome) (hr : Guarded limit r outcomes) :
    Guarded limit r' (outcomes ++ [outcome]) := by
  obtain ⟨hmade, hroom, hfull, hrunaways⟩ := hr
  cases h with
  | registered reference template =>
    exact ⟨hmade, hroom, hfull, (filter_isRunaway_append rfl outcomes).trans hrunaways⟩
  | @refused e he =>
    have hkeep : (Outcome.isRunaway (.error e)) = false := he
    exact ⟨hmade, hroom, hfull, (filter_isRunaway_append hkeep outcomes).trans hrunaways⟩
  | recorded hrunning h =>
    refine ⟨hmade, ?_, fun hhalted => ?_, (filter_isRunaway_append rfl outcomes).trans hrunaways⟩
    · rw [size_add]
      omega
    · cases hrunning.symm.trans hhalted
  | @exceeded steps room hrunning h hlt =>
    have hsize : (r.add (steps.take room)).steps.size = limit := by
      rw [size_add, List.length_take]
      omega
    rw [hrunning] at hrunaways
    refine ⟨hmade, hsize.le, fun _ => hsize, ?_⟩
    rw [List.filter_append, hrunaways, hmade]
    rfl

/-- The steps of a new recorder are guarded, whatever is asked of it. -/
theorem guarded_performAll (limit : Nat) (requests : List Request) :
    Guarded limit ((new limit).performAll requests).1 ((new limit).performAll requests).2 := by
  induction requests using List.reverseRecOn with
  | nil => exact ⟨rfl, Nat.zero_le limit, nofun, rfl⟩
  | append_singleton requests request ih =>
    rw [performAll_append_singleton]
    exact (effect_perform (ih.room.trans_eq ih.made.symm) request).guarded ih

theorem Effect.isPrefix {r' : Recorder} {outcome : Outcome} (h : Effect r r' outcome) :
    r.steps.toList <+: r'.steps.toList := by
  cases h with
  | registered | refused => exact List.prefix_refl _
  | @recorded steps =>
    rw [toList_add]
    exact List.prefix_append _ steps
  | @exceeded steps room =>
    change r.steps.toList <+: (r.add (steps.take room)).steps.toList
    rw [toList_add]
    exact List.prefix_append _ _

/-- Registering leaves the steps alone, and does not halt. -/
theorem steps_perform_of_not_records (r : Recorder) {request : Request}
    (h : request.records = false) :
    (r.perform request).1.steps = r.steps ∧ (r.perform request).1.halted = r.halted := by
  rcases perform_of_not_records r h with ⟨reference, template, hperform⟩ | ⟨e, -, hperform⟩ <;>
    rw [hperform] <;> exact ⟨rfl, rfl⟩

theorem length_of_finish {code : String} {nodes : List SyntaxNode} {trace : Trace}
    (h : r.finish code nodes = .ok trace) : trace.steps.length = r.steps.size := by
  rw [Trace.eq_of_build h]
  simp [Label.assign]

/-- **A recorder within its limit.** Whatever is asked of a new recorder, it never holds more steps
than its limit, and a request only adds to them. It is halted just when a request has exceeded the
limit; then it holds as many steps as the limit says, at most one request was told so, and every
further one for steps is refused and changes nothing. Templates are registered without touching the
steps. The trace that it hands over is short enough for every session with the same limit or a
higher one. -/
theorem performAll_within_limit (limit : Nat) (requests : List Request) :
    let r := ((new limit).performAll requests).1
    let outcomes := ((new limit).performAll requests).2
    r.steps.size ≤ limit ∧
    (∀ request, r.steps.toList <+: (r.perform request).1.steps.toList) ∧
    ((r.halted = true ↔ .error (.stepLimitExceeded limit) ∈ outcomes) ∧
      (r.halted = true → r.steps.size = limit)) ∧
    (outcomes.countP Outcome.isRunaway ≤ 1 ∧
      ∀ n, .error (.stepLimitExceeded n) ∈ outcomes → n = limit) ∧
    (r.halted = true → ∀ request, request.records = true →
      r.perform request = (r, .error .halted)) ∧
    (∀ request, request.records = false →
      (r.perform request).1.steps = r.steps ∧ (r.perform request).1.halted = r.halted) ∧
    ∀ code nodes trace, r.finish code nodes = .ok trace →
      ∀ producer config, producer.produce.1 = .ok trace → limit ≤ config.stepLimit →
        (Session.new producer config).run.2 = .ok () := by
  intro r outcomes
  have hguarded : Guarded limit r outcomes := guarded_performAll limit requests
  have hroom : r.steps.size ≤ r.limit := hguarded.room.trans_eq hguarded.made.symm
  have hrunaway (n : Nat) :
      .error (.stepLimitExceeded n) ∈ outcomes ↔ r.halted = true ∧ n = limit := by
    have hfilter : .error (.stepLimitExceeded n) ∈ outcomes ↔
        .error (.stepLimitExceeded n) ∈ outcomes.filter Outcome.isRunaway := by
      rw [List.mem_filter]
      exact ⟨fun h => ⟨h, rfl⟩, fun h => h.1⟩
    rw [hfilter, hguarded.runaways]
    cases r.halted <;> simp
  refine ⟨hguarded.room, fun request => (effect_perform hroom request).isPrefix,
    ⟨by rw [hrunaway limit]; simp, hguarded.full⟩, ⟨?_, fun n h => ((hrunaway n).mp h).2⟩,
    fun h request hrecords => perform_of_halted h hrecords,
    fun request h => steps_perform_of_not_records r h, ?_⟩
  · rw [List.countP_eq_length_filter, hguarded.runaways]
    split
    · exact Nat.le_refl 1
    · exact Nat.zero_le 1
  · intro code nodes trace hfinish producer config hproduce hlimit
    refine (Session.run_new_eq_ok_iff producer config).mpr ⟨trace, hproduce, ?_⟩
    rw [length_of_finish hfinish]
    exact hguarded.room.trans hlimit

end Recorder

end Retrace
