import Retrace.Json.Reader
import Retrace.Trace.Raw

/-!
# Trace files

The JSON form of a trace. A range or a value has several shapes, tried in order; those with named
parts are objects only. It has to be sound as a whole, members that no shape uses included;
elsewhere, members without a meaning are passed over.

Models `from_json` and what its reader of JSON accepts.
-/

namespace Retrace

/-- Four natural numbers in an array. -/
def fourSizes? : Json → Option (Nat × Nat × Nat × Nat)
  | .array [a, b, c, d] => do some (← a.size?, ← b.size?, ← c.size?, ← d.size?)
  | _ => none

/-- The values of the named parts of an object. -/
def parts? (names : List String) (j : Json) : Option (List (Option Json)) :=
  match j with
  | .object _ => j.fields? (names.map ([·]))
  | _ => none

namespace WireRange

/-- The shape with named lines and columns. -/
def linesOfJson? (j : Json) : Option WireRange := do
  match ← parts? ["startLine", "startColumn", "endLine", "endColumn"] j with
  | [some sl, some sc, some el, some ec] =>
    some (.lines (← sl.size?) (← sc.size?) (← el.size?) (← ec.size?))
  | _ => none

/-- The shape with named byte offsets. -/
def offsetsOfJson? (j : Json) : Option WireRange := do
  match ← parts? ["startIndex", "endIndex"] j with
  | [some start, some stop] => some (.offsets (← start.size?) (← stop.size?))
  | _ => none

/-- A range in any of its shapes, inside `depth` containers less than the limit allows. -/
def ofJson? (depth : Nat) (j : Json) : Option WireRange :=
  if j.isSound depth then
    ((fourSizes? j).map fun (sl, sc, el, ec) => .location sl sc el ec).or
      ((linesOfJson? j).or (offsetsOfJson? j))
  else none

/-- The range that a JSON text holds. -/
def read? (text : String) : Option WireRange := (Json.read? text).bind (ofJson? Json.nestingLimit)

end WireRange

namespace Value

/-- The number that a JSON number stands for: integers stay integers while they fit 64 bits with
sign. -/
def ofNumber : Json.NumberValue → Value
  | .natural n => if n ≤ Int64.maxValue.toInt then .int (.ofNat n) else .float (.ofInt n)
  | .negative n => .int (.ofInt n)
  | .float x => .float x

/-- A pointer with its address and snapshot. -/
def pointerOfJson? (j : Json) : Option Value := do
  match ← parts? ["address", "bytes"] j with
  | [some address, some bytes] =>
    let address ← address.natural? UInt32.size
    let bytes ← (← bytes.elements?).mapM (Json.natural? UInt8.size)
    some (.pointer (.ofNat address) (bytes.map UInt8.ofNat))
  | _ => none

/-- A value in any of its shapes, inside `depth` containers less than the limit allows. -/
def ofJson? (depth : Nat) (j : Json) : Option Value :=
  if j.isSound depth then
    match j with
    | .number n => n.value?.map ofNumber
    | .string s => s.map .text
    | _ => pointerOfJson? j
  else none

/-- The value that a JSON text holds. -/
def read? (text : String) : Option Value := (Json.read? text).bind (ofJson? Json.nestingLimit)

end Value

/-- How many containers enclose a member of a node or a step: the record, its list and the trace. -/
def memberNesting : Nat := 3

/-- A node. -/
def RawNode.ofJson? (j : Json) : Option RawNode := do
  match ← j.fields? [["id"], ["parentId"], ["range"]] with
  | [id, parent, range] =>
    some {
      id := ← Json.required? Json.size? id
      parentId := ← Json.optional? Json.size? parent
      range := ← Json.required? (WireRange.ofJson? (Json.nestingLimit - memberNesting)) range }
  | _ => none

/-- A step; its location and its text have two names each. -/
def RawStep.ofJson? (j : Json) : Option RawStep := do
  let range := WireRange.ofJson? (Json.nestingLimit - memberNesting)
  match ← j.fields? [["action"], ["nodeId"], ["location", "range"], ["identifier"], ["dataType"],
      ["dataValue"], ["scope"], ["ref"], ["value", "text"]] with
  | [action, node, location, identifier, type, value, scope, label, text] =>
    some {
      action := ← Json.required? Json.text? action
      node := ← Json.optional? Json.size? node
      location := ← Json.optional? range location
      identifier := ← Json.optional? Json.text? identifier
      type := ← Json.optional? Json.text? type
      value := ← Json.optional? (Value.ofJson? (Json.nestingLimit - memberNesting)) value
      scope := ← Json.optional? range scope
      label := ← Json.optional? Json.text? label
      text := ← Json.optional? Json.text? text }
  | _ => none

/-- Adds a type to a table ordered by name; a name that is there already gets the new value. -/
def insertType (name : String) (value : Json) : List (String × Json) → List (String × Json)
  | [] => [(name, value)]
  | (other, old) :: rest =>
    if name = other then (name, value) :: rest
    else if name < other then (name, value) :: (other, old) :: rest
    else (other, old) :: insertType name value rest

/-- The table of types, ordered by name. -/
def typesOfJson? : Json → Option (List (String × Json))
  | .object members =>
    if Json.haveSound (Json.nestingLimit - 2) members then
      some (members.foldl (fun table (name, value) => insertType (name.getD "") value table) [])
    else none
  | _ => none

/-- A trace. -/
def RawTrace.ofJson? (j : Json) : Option RawTrace := do
  match ← j.fields? [["code"], ["nodes"], ["steps"], ["types"]] with
  | [code, nodes, steps, types] =>
    some {
      code := ← Json.required? Json.text? code
      nodes := ← Json.orDefault? (fun j => j.elements?.bind (List.mapM RawNode.ofJson?)) [] nodes
      steps := ← Json.orDefault? (fun j => j.elements?.bind (List.mapM RawStep.ofJson?)) [] steps
      types := ← Json.orDefault? typesOfJson? [] types }
  | _ => none

/-- The trace that the text of a trace file holds. -/
def Trace.ofText (text : String) : Except TraceError Trace :=
  match (Json.read? text).bind RawTrace.ofJson? with
  | none => .error .malformedJson
  | some raw => raw.resolve

end Retrace
