import Retrace.Json.Number

/-!
# JSON values

The tree of a JSON text, and how records are read out of it. A string whose escapes leave half of a
surrogate pair alone has no text; such a string, like a number out of range, does no harm where
nobody looks. `Json.isSound` says that a value can be looked at as a whole, with a bound on its
nesting.

A record is an object with named members or an array with its fields in order. `Json.fields?` reads
both: members with other names are passed over, a field given twice is refused.
-/

namespace Retrace

/-- A JSON value; texts that are no sequences of characters are `none`. -/
inductive Json where
  | null
  | bool (b : Bool)
  | number (n : Json.Number)
  | string (s : Option String)
  | array (elements : List Json)
  | object (members : List (Option String × Json))

namespace Json

/-- How many containers may be nested in one another. -/
def nestingLimit : Nat := 127

mutual

/-- Whether every text and number in a value can be represented and at most `depth` containers nest.
-/
def isSound (depth : Nat) : Json → Bool
  | .null => true
  | .bool _ => true
  | .number n => n.value?.isSome
  | .string s => s.isSome
  | .array elements =>
    match depth with
    | 0 => false
    | depth + 1 => areSound depth elements
  | .object members =>
    match depth with
    | 0 => false
    | depth + 1 => haveSound depth members

/-- Whether every value of a list is sound. -/
def areSound (depth : Nat) : List Json → Bool
  | [] => true
  | value :: rest => isSound depth value && areSound depth rest

/-- Whether every member of a list has a sound name and value. -/
def haveSound (depth : Nat) : List (Option String × Json) → Bool
  | [] => true
  | (name, value) :: rest => name.isSome && isSound depth value && haveSound depth rest

end

/-- The value of the one member with a name among `names`: absent is `some none`, repeated is
`none`. -/
def member? (names : List String) (members : List (Option String × Json)) : Option (Option Json) :=
  match members.filter fun (name, _) => name.any names.contains with
  | [] => some none
  | [(_, value)] => some (some value)
  | _ => none

/-- The values of a record's fields, each named in one or more ways; absent ones are `none`. -/
def fields? (names : List (List String)) : Json → Option (List (Option Json))
  | .object members =>
    if members.all fun (name, _) => name.isSome then
      names.mapM fun aliases => member? aliases members
    else none
  | .array elements =>
    if names.length < elements.length then none
    else some (elements.map some ++ List.replicate (names.length - elements.length) none)
  | _ => none

/-- A text. -/
def text? : Json → Option String
  | .string s => s
  | _ => none

/-- A natural number below a bound, written as an integer. -/
def natural? (bound : Nat) : Json → Option Nat
  | .number n =>
    match n.value? with
    | some (.natural k) => if k < bound then some k else none
    | _ => none
  | _ => none

/-- A 64-bit natural number. -/
def size? (j : Json) : Option Nat := j.natural? UInt64.size

/-- The elements of an array. -/
def elements? : Json → Option (List Json)
  | .array elements => some elements
  | _ => none

/-- A field that may be absent or null; otherwise it is read by `read`. -/
def optional? {α : Type} (read : Json → Option α) : Option Json → Option (Option α)
  | none | some .null => some none
  | some value => (read value).map some

/-- A field that may be absent but not null; the default then stands for it. -/
def orDefault? {α : Type} (read : Json → Option α) (default : α) : Option Json → Option α
  | none => some default
  | some value => read value

/-- A field that must be present. -/
def required? {α : Type} (read : Json → Option α) : Option Json → Option α
  | none => none
  | some value => read value

end Json

end Retrace
