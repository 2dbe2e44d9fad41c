/-!
# TOML values

The tree of a TOML text and the rules by which its lines build it. A table remembers how it came
about: a header names a table once, a dotted key adds only to tables that dotted keys made, and the
tables above a header's last key come into being with it. What is written as a value is closed to
later lines.

* `Toml.insertAt?`: a key with a value, under a path of dotted keys.
* `Toml.openTable?`, `Toml.appendTable?`: the headers of a table and of one more table in an array.
-/

namespace Retrace

/-- How a table came about: by its own header, above another header, or by a dotted key. -/
inductive Toml.Origin where
  | header
  | implied
  | dotted
  deriving DecidableEq, Repr

/-- A TOML value; what is inside a float or a date is of no interest here. -/
inductive Toml where
  | string (s : String)
  | integer (n : Int)
  | float
  | boolean (b : Bool)
  | dateTime
  | array (elements : List Toml)
  | inlineTable (entries : List (String × Toml))
  | table (origin : Toml.Origin) (entries : List (String × Toml))
  | tables (elements : List (List (String × Toml)))

namespace Toml

/-- The entries of a table, in the order in which their keys appeared. -/
abbrev Entries := List (String × Toml)

/-- The value under a key. -/
def get? (key : String) : Entries → Option Toml
  | [] => none
  | (k, value) :: rest => if k = key then some value else get? key rest

/-- The entries with the value under a key changed or added; the change may be refused. -/
def alter? (key : String) (change : Option Toml → Option Toml) : Entries → Option Entries
  | [] => (change none).map fun value => [(key, value)]
  | (k, value) :: rest =>
    if k = key then (change (some value)).map fun value => (k, value) :: rest
    else (alter? key change rest).map ((k, value) :: ·)

/-- A change to the last table of an array. -/
def changeLast? (change : Entries → Option Entries) : List Entries → Option (List Entries)
  | [] => none
  | [last] => (change last).map ([·])
  | first :: rest => (changeLast? change rest).map (first :: ·)

/-- Adds a key that must be new. -/
def insert? (key : String) (value : Toml) : Entries → Option Entries :=
  alter? key fun
    | none => some value
    | some _ => none

/-- Adds a value under dotted keys, `dotted` saying whether a dotted key made the table at hand. -/
def insertAt? (dotted : Bool) (value : Toml) (last : String) :
    List String → Entries → Option Entries
  | [], entries => if dotted then insert? last value entries else none
  | key :: path, entries =>
    alter? key (fun
      | none => (insertAt? true value last path []).map (.table .dotted)
      | some (.table .header _) => none
      | some (.table origin inner) =>
        (insertAt? (origin == .dotted) value last path inner).map (.table origin)
      | some (.tables elements) =>
        (changeLast? (insertAt? false value last path) elements).map .tables
      | some _ => none) entries

/-- Adds a key and its value to a table; a plain key needs no table below. -/
def insertKey? (key : List String × String) (value : Toml) (entries : Entries) : Option Entries :=
  insertAt? key.1.isEmpty value key.2 key.1 entries

/-- A change to the table that a header's path leads to; tables on the way come into being. -/
def changeAt? (change : Entries → Option Entries) : List String → Entries → Option Entries
  | [], entries => change entries
  | key :: path, entries =>
    alter? key (fun
      | none => (changeAt? change path []).map (.table .implied)
      | some (.table origin inner) => (changeAt? change path inner).map (.table origin)
      | some (.tables elements) => (changeLast? (changeAt? change path) elements).map .tables
      | some _ => none) entries

/-- The header of a table, which may have been implied but not opened before. -/
def openTable? (key : List String × String) (entries : Entries) : Option Entries :=
  changeAt? (alter? key.2 fun
    | none => some (.table .header [])
    | some (.table .implied inner) => some (.table .header inner)
    | some _ => none) key.1 entries

/-- The header of one more table in an array of tables. -/
def appendTable? (key : List String × String) (entries : Entries) : Option Entries :=
  changeAt? (alter? key.2 fun
    | none => some (.tables [[]])
    | some (.tables elements) => some (.tables (elements ++ [[]]))
    | some _ => none) key.1 entries

end Toml

end Retrace
