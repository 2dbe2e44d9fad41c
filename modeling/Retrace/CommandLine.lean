import Retrace.Dump

/-!
# The command line

Arguments are read from left to right. A request for the version or for help is granted as soon as
it is met; anything that cannot be understood before that is a usage error, whatever follows.

Models `Cli` and `main`.

* `CommandLine.parse?`: what the arguments ask for.
* `Arguments.answer`: what a replay does, given the contents of its files.
-/

namespace Retrace

/-- The arguments of a replay. -/
structure Arguments where
  trace : String
  config : Option String
  mode : Option StepMode
  dump : Bool
  deriving DecidableEq, Repr

/-- What a command line asks for. -/
inductive Request where
  | version
  | help
  | replay (arguments : Arguments)
  deriving DecidableEq, Repr

/-- What comes of it: an end, with a text to print and a complaint if it failed, or a session to
view. -/
inductive Outcome where
  | exit (code : Nat) (text : String) (complaint : Option String)
  | view (session : Session)

namespace CommandLine

/-- The program's name and version. -/
def versionText : String := "stepscope 0.1.0\n"

/-- How the program is called. -/
def usageText : String := "Usage: stepscope [OPTIONS] <TRACE>"

/-- The text of a request for help. -/
def helpText : String :=
  "Replay an instrumented C program one step at a time\n\n" ++ usageText ++ "\n\n" ++
  "Arguments:\n" ++
  "  <TRACE>  JSON trace written by the instrumented program\n\n" ++
  "Options:\n" ++
  "  -c, --config <CONFIG>  TOML configuration file\n" ++
  "  -m, --mode <MODE>      Stepping granularity (overrides the config file) " ++
  "[possible values: break, statement, expression]\n" ++
  "      --dump             Print every step to stdout instead of starting the viewer\n" ++
  "  -h, --help             Print help\n" ++
  "  -V, --version          Print version\n"

/-- The exit code of a failed replay. -/
def failure : Nat := 1

/-- The exit code of a usage error. -/
def usageError : Nat := 2

/-- The arguments met so far. -/
structure Draft where
  trace : Option String := none
  config : Option String := none
  mode : Option StepMode := none
  dump : Bool := false
  deriving DecidableEq, Repr

/-- The options that take a value. -/
inductive ValueOption where
  | config
  | mode
  deriving DecidableEq, Repr

/-- Options written as one argument. -/
inductive Flag where
  | version
  | help
  | dump
  | valued (option : ValueOption) (value : Option String)
  deriving DecidableEq, Repr

/-- An option by its long name, given with or without a value behind `=`. -/
def longFlag? (name : String) (value : Option String) : Option Flag :=
  match name, value with
  | "version", none => some .version
  | "help", none => some .help
  | "dump", none => some .dump
  | "config", _ => some (.valued .config value)
  | "mode", _ => some (.valued .mode value)
  | _, _ => none

/-- The value that follows a short option in its own argument, an `=` between them left out. -/
def attached? : List Char → Option String
  | [] => none
  | '=' :: rest => some (String.ofList rest)
  | rest => some (String.ofList rest)

/-- An option by its short name, with the characters that follow it. -/
def shortFlag? : List Char → Option Flag
  | 'V' :: _ => some .version
  | 'h' :: _ => some .help
  | 'c' :: rest => some (.valued .config (attached? rest))
  | 'm' :: rest => some (.valued .mode (attached? rest))
  | _ => none

/-- The option that an argument is, if it is meant as one; the inner `none` is an unknown option. -/
def flag? (argument : String) : Option (Option Flag) :=
  match argument.toList with
  | '-' :: '-' :: rest =>
    let name := String.ofList (rest.takeWhile (· != '='))
    match rest.dropWhile (· != '=') with
    | [] => some (longFlag? name none)
    | _ :: value => some (longFlag? name (some (String.ofList value)))
  | '-' :: c :: rest => some (shortFlag? (c :: rest))
  | _ => none

/-- The draft with a positional argument, of which there is one. -/
def Draft.setTrace? (d : Draft) (path : String) : Option Draft :=
  if d.trace.isSome || path.isEmpty then none else some { d with trace := some path }

/-- The draft with the value of an option, which may be given once. -/
def Draft.setValue? (d : Draft) (option : ValueOption) (value : String) : Option Draft :=
  match option with
  | .config =>
    if d.config.isSome || value.isEmpty then none
    else some { d with config := some value }
  | .mode =>
    match d.mode, StepMode.ofName? value with
    | none, some mode => some { d with mode := some mode }
    | _, _ => none

/-- The draft with the dump flag, which may be given once. -/
def Draft.setDump? (d : Draft) : Option Draft :=
  if d.dump then none else some { d with dump := true }

/-- The finished request: a replay needs a trace. -/
def Draft.finish? (d : Draft) : Option Request :=
  d.trace.map fun trace => .replay ⟨trace, d.config, d.mode, d.dump⟩

/-- The request of the arguments behind those met so far. -/
def parseFrom? (d : Draft) : List String → Option Request
  | [] => d.finish?
  | "--" :: rest => (rest.foldlM Draft.setTrace? d).bind Draft.finish?
  | argument :: rest =>
    match flag? argument with
    | none => (d.setTrace? argument).bind fun d => parseFrom? d rest
    | some none => none
    | some (some .version) => some .version
    | some (some .help) => some .help
    | some (some .dump) => d.setDump?.bind fun d => parseFrom? d rest
    | some (some (.valued option (some value))) =>
      (d.setValue? option value).bind fun d => parseFrom? d rest
    | some (some (.valued option none)) =>
      match rest with
      | [] => none
      | value :: rest =>
        if (flag? value).isSome then none
        else (d.setValue? option value).bind fun d => parseFrom? d rest

/-- What the arguments ask for; nothing when they are wrong. -/
def parse? (arguments : List String) : Option Request := parseFrom? {} arguments

end CommandLine

/-- The configuration of a replay, `file` being the contents of the configuration file if one is
named. -/
def Arguments.configuration (a : Arguments) (file : Option String) : Except ConfigError Config := do
  let config ← if a.config.isSome then Config.ofFile file else .ok {}
  return { config with stepMode := a.mode.getD config.stepMode }

/-- The end of a replay that failed after writing a text. -/
def Outcome.failed (text complaint : String) : Outcome :=
  .exit CommandLine.failure text (some complaint)

/-- The end of a replay that wrote a dump. -/
def Outcome.ofDump (dump : Dump) : Outcome :=
  match dump.error with
  | some e => .failed dump.text e.message
  | none => .exit 0 dump.text none

/-- What a replay does, given the contents of the configuration file and of the trace file. -/
def Arguments.answer (a : Arguments) (configFile traceFile : Option String) : Outcome :=
  match a.configuration configFile with
  | .error e => .failed "" e.message
  | .ok config =>
    match (Session.new (.file traceFile config.stepLimit) config).run with
    | (_, .error e) => .failed "" e.message
    | (session, .ok ()) => if a.dump then .ofDump session.dump else .view session

/-- What a command line does, given what the files that it names contain. -/
def CommandLine.answer (arguments : List String) (contents : String → Option String) : Outcome :=
  match CommandLine.parse? arguments with
  | none => .exit CommandLine.usageError "" (some CommandLine.usageText)
  | some .version => .exit 0 CommandLine.versionText none
  | some .help => .exit 0 CommandLine.helpText none
  | some (.replay a) => a.answer (a.config.bind contents) (contents a.trace)

end Retrace
