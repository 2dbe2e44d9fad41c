import Retrace.Notification
import Retrace.Trace.Basic
import Retrace.Value.Payload

/-!
# Recording

Instrumented code registers templates under numeric references and then notifies by reference,
handing over payloads; each template under the reference becomes a step. Templates with a type take
the payloads in turn. When the steps reach their limit the next one halts the recorder for good.

Models `Notifier` and `expand`.

* `expand`: the steps that templates and payloads make.
* `Recorder.notify`, `Recorder.notifyMetadata`, `Recorder.print`: the calls that record.
* `Recorder.finish`: the trace of what was recorded.
-/

namespace Retrace

/-- What a program has registered and recorded. -/
structure Recorder where
  templates : Array (UInt32 × Notification)
  steps : Array Step
  limit : Nat
  halted : Bool

/-- A template's step; a typed template takes the first payload, and the payloads left come second.
-/
def expandOne (template : Notification) (payloads : List (List UInt8)) :
    Except TraceError (Step × List (List UInt8)) :=
  match template.type with
  | none => .ok (template.toStep, payloads)
  | some type =>
    match payloads with
    | payload :: rest =>
      (Payload.decode type payload).map fun v =>
        ({ template.toStep with value := some ⟨type, v⟩ }, rest)
    | [] =>
      if template.needsPayload then .error (.missingPayload template.action.name type)
      else .ok (template.toStep, [])

/-- The steps of a list of templates, with payloads handed out in order. -/
def expand : List Notification → List (List UInt8) → Except TraceError (List Step)
  | [], _ => .ok []
  | template :: rest, payloads => do
    let (step, payloads) ← expandOne template payloads
    let steps ← expand rest payloads
    return step :: steps

namespace Recorder

/-- A recorder for at most `limit` steps. -/
def new (limit : Nat) : Recorder := ⟨#[], #[], limit, false⟩

/-- Adds a template under a reference. -/
def register (r : Recorder) (reference : UInt32) (template : Notification) : Recorder :=
  { r with templates := r.templates.push (reference, template) }

/-- Adds the template that a metadata text describes. -/
def registerMetadata (r : Recorder) (reference : UInt32) (metadata : String) :
    Recorder × Except TraceError Unit :=
  match Notification.parse metadata with
  | .ok template => (r.register reference template, .ok ())
  | .error e => (r, .error e)

/-- The templates under a reference, in order of registration. -/
def templatesOf (r : Recorder) (reference : UInt32) : List Notification :=
  r.templates.toList.filterMap fun (other, template) =>
    if other = reference then some template else none

/-- Records steps one by one; the first beyond the limit halts the recorder. -/
def recordAll (r : Recorder) : List Step → Recorder × Except TraceError Unit
  | [] => (r, .ok ())
  | s :: rest =>
    if r.limit ≤ r.steps.size then ({ r with halted := true }, .error (.stepLimitExceeded r.limit))
    else recordAll { r with steps := r.steps.push s } rest

/-- Records the steps of templates, or nothing when one of them fails. -/
def recordTemplates (r : Recorder) (templates : List Notification) (payloads : List (List UInt8)) :
    Recorder × Except TraceError Unit :=
  match expand templates payloads with
  | .ok steps => r.recordAll steps
  | .error e => (r, .error e)

/-- Records the steps of the templates under a reference. -/
def notify (r : Recorder) (reference : UInt32) (payloads : List (List UInt8)) :
    Recorder × Except TraceError Unit :=
  if r.halted then (r, .error .halted)
  else
    match r.templatesOf reference with
    | [] => (r, .error (.unknownReference reference))
    | templates => r.recordTemplates templates payloads

/-- Records the step that a metadata text describes. -/
def notifyMetadata (r : Recorder) (metadata : String) (payloads : List (List UInt8)) :
    Recorder × Except TraceError Unit :=
  if r.halted then (r, .error .halted)
  else
    match Notification.parse metadata with
    | .ok template => r.recordTemplates [template] payloads
    | .error e => (r, .error e)

/-- Records a line of output. -/
def print (r : Recorder) (stream : Action) (line : String) : Recorder × Except TraceError Unit :=
  if r.halted then (r, .error .halted)
  else r.recordAll [{ action := stream, text := some (line ++ "\n") }]

/-- Records a line of the program's output. -/
def printOutput (r : Recorder) (line : String) : Recorder × Except TraceError Unit :=
  r.print .stdout line

/-- Records a line of the program's error output. -/
def printError (r : Recorder) (line : String) : Recorder × Except TraceError Unit :=
  r.print .stderr line

/-- The trace of the recorded steps. -/
def finish (r : Recorder) (code : String) (nodes : List SyntaxNode) : Except TraceError Trace :=
  Trace.build code nodes r.steps.toList

end Recorder

end Retrace
