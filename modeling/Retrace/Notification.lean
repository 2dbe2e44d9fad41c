import Retrace.Error
import Retrace.Json.Reader
import Retrace.Step
import Retrace.Text.Blank
import Retrace.Text.Lines
import Retrace.Trace.File

/-!
# Notifications

An instrumented program describes each notification by pairs `key=value` between semicolons, such as
`a=eval;t=int;l=[2,5,2,9]`. The keys are `a` for the action, `i` for an identifier, `t` for a type,
`l` for a location with an inclusive end column, and `n` for a node; other keys mean nothing.

Models `Notification`, `parse_metadata` and `parse_location`.

* `Notification.pairs`: the pairs of a text.
* `Notification.ofPairs`: what they say; the last pair of a key counts, the first bad pair is the
  error.
* `Notification.parse`: both together.
-/

namespace Retrace

/-- What a notification says about the step that it announces. -/
structure Notification where
  action : Action
  identifier : Option String
  type : Option String
  location : Option SourceRange
  node : Option Nat
  deriving DecidableEq, Repr

namespace Notification

/-- Whether the step needs a payload. -/
def needsPayload (n : Notification) : Bool := n.action.carriesValue

/-- The step that is announced, as yet without a value. -/
def toStep (n : Notification) : Step :=
  { action := n.action, node := n.node, range := n.location, identifier := n.identifier }

/-- A key and its value, which starts behind the first `=`; the key has no white space around it. -/
structure Pair where
  key : List Char
  value : List Char
  deriving DecidableEq, Repr

/-- The pair written in the text between two semicolons. -/
def Pair.ofText (s : List Char) : Pair :=
  ⟨Text.trim (s.takeWhile (· != '=')), (s.dropWhile (· != '=')).drop 1⟩

/-- The pairs of a metadata text; blank ones are left out. -/
def pairs (metadata : List Char) : List Pair :=
  (((Text.splitAtChar ';' metadata).map Text.trim).filter fun s => !s.isEmpty).map Pair.ofText

/-- A value without white space around it. -/
def Pair.trimmed (p : Pair) : String := String.ofList (Text.trim p.value)

/-- The range in an `l` value: an array of four natural numbers that start from one and run
forwards. -/
def location? (value : String) : Option SourceRange := do
  let (sl, sc, el, ec) ← (Json.read? value).bind fourSizes?
  let range := SourceRange.ofInclusive sl sc el ec
  if sl = 0 ∨ sc = 0 ∨ range.stop < range.start then none else some range

/-- The node id in an `n` value: decimal digits, after an optional plus sign, below `2 ^ 64`. -/
def nodeId? (value : List Char) : Option Nat :=
  let digits :=
    match value with
    | '+' :: rest => rest
    | _ => value
  if digits.isEmpty || !digits.all Char.isDigit then none
  else
    let n := Json.digitsValue (digits.map fun c => c.toNat - '0'.toNat)
    if n < UInt64.size then some n else none

/-- What has been read of a notification. -/
structure Draft where
  action : Option Action := none
  identifier : Option String := none
  type : Option String := none
  location : Option SourceRange := none
  node : Option Nat := none
  deriving DecidableEq, Repr

namespace Draft

/-- The draft after one more pair. -/
def add (d : Draft) (p : Pair) : Except TraceError Draft :=
  match String.ofList p.key with
  | "a" =>
    match Action.ofName? p.trimmed with
    | some action => .ok { d with action := some action }
    | none => .error (.unknownAction p.trimmed)
  | "i" => .ok { d with identifier := some p.trimmed }
  | "t" => .ok { d with type := some p.trimmed }
  | "l" =>
    match location? p.trimmed with
    | some range => .ok { d with location := some range }
    | none => .error (.malformedLocation (String.ofList p.value))
  | "n" =>
    match nodeId? (Text.trim p.value) with
    | some id => .ok { d with node := some id }
    | none => .error (.malformedLocation ("node id '" ++ String.ofList p.value ++ "'"))
  | _ => .ok d

/-- The finished notification: it needs an action, and a type when the action carries a value. -/
def finish (d : Draft) : Except TraceError Notification :=
  match d.action with
  | none => .error (.missingKey "a")
  | some action =>
    if action.carriesValue && d.type.isNone then .error (.missingKey "t")
    else .ok ⟨action, d.identifier, d.type, d.location, d.node⟩

end Draft

/-- The notification that pairs describe. -/
def ofPairs (ps : List Pair) : Except TraceError Notification := do
  let draft ← ps.foldlM Draft.add {}
  draft.finish

/-- The notification that a metadata text describes. -/
def parse (metadata : String) : Except TraceError Notification := ofPairs (pairs metadata.toList)

end Notification

end Retrace
