import Retrace.Step
import Retrace.Toml.Reader

/-!
# Configuration

The settings of a replay, read from TOML. Every key is optional and unknown keys mean nothing, but a
key that is known must have a value of its kind.

Models `SimulatorConfig` and `from_toml`.
-/

namespace Retrace

/-- The settings of a replay. -/
structure Config where
  stepLimit : Nat := 10000
  outputBanner : String := "> program.exe\n"
  stepMode : StepMode := .break
  highlightBlock : Char := '█'
  scopedVariables : Bool := true
  deriving DecidableEq, Repr

/-- Why a configuration could not be loaded. -/
inductive ConfigError where
  | unreadable
  | invalid
  deriving DecidableEq, Repr

/-- The wording of a configuration error. -/
def ConfigError.message : ConfigError → String
  | .unreadable => "failed to read config"
  | .invalid => "invalid config"

namespace Config

/-- A limit: an integer that is not negative. -/
def limit? : Toml → Option Nat
  | .integer n => if 0 ≤ n then some n.toNat else none
  | _ => none

/-- A text. -/
def text? : Toml → Option String
  | .string s => some s
  | _ => none

/-- A text of one character. -/
def char? : Toml → Option Char
  | .string s =>
    match s.toList with
    | [c] => some c
    | _ => none
  | _ => none

/-- A truth value. -/
def boolean? : Toml → Option Bool
  | .boolean b => some b
  | _ => none

/-- Whether a value is an empty table or array. -/
def isEmptyValue : Toml → Bool
  | .array [] | .inlineTable [] | .table _ [] | .tables [] => true
  | _ => false

/-- A step mode by name; a table whose only key is the name, with nothing in it, stands for it too.
-/
def mode? : Toml → Option StepMode
  | .string s => StepMode.ofName? s
  | .inlineTable [(name, value)] | .table _ [(name, value)] =>
    if isEmptyValue value then StepMode.ofName? name else none
  | _ => none

/-- The value of a key as `read` gives it, or the default when the key is absent. -/
def setting? {α : Type} (entries : Toml.Entries) (key : String) (read : Toml → Option α)
    (default : α) : Option α :=
  match Toml.get? key entries with
  | none => some default
  | some value => read value

/-- The configuration in the entries of a TOML text. -/
def ofEntries? (entries : Toml.Entries) : Option Config := do
  let base : Config := {}
  some {
    stepLimit := ← setting? entries "step_limit" limit? base.stepLimit
    outputBanner := ← setting? entries "output_banner" text? base.outputBanner
    stepMode := ← setting? entries "step_mode" mode? base.stepMode
    highlightBlock := ← setting? entries "highlight_block" char? base.highlightBlock
    scopedVariables := ← setting? entries "scoped_variables" boolean? base.scopedVariables }

/-- The configuration that a TOML text describes. -/
def ofToml (text : String) : Except ConfigError Config :=
  match (Toml.read? text).bind ofEntries? with
  | some config => .ok config
  | none => .error .invalid

/-- The configuration in a file with the given contents, if it can be read. -/
def ofFile (contents : Option String) : Except ConfigError Config :=
  match contents with
  | some text => ofToml text
  | none => .error .unreadable

end Config

end Retrace
