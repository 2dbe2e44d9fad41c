import Retrace.Source.Location

/-!
# Errors

Each domain has its causes: recording and loading a trace, reconstructing source text, and building
the call tree. The wording of a cause is its `message`.

Models `ProducerError`, `ReconstructError` and `CallTreeError`.
-/

namespace Retrace

/-- Why a trace could not be recorded or loaded. -/
inductive TraceError where
  | missingKey (key : String)
  | unknownAction (name : String)
  | unsupportedType (type : String)
  | malformedLocation (quoted : String)
  | unknownNode (id : Nat)
  | missingPayload (action type : String)
  | payloadTooShort (type : String) (needed got : Nat)
  | unknownReference (reference : UInt32)
  | stepLimitExceeded (limit : Nat)
  | halted
  | alreadyConsumed
  | unreadable
  | malformedJson
  deriving DecidableEq, Repr

/-- Why the source text could not be reconstructed. -/
inductive SourceError where
  | multiLineHighlight (first last : Nat)
  | rangeOutOfBounds (range : SourceRange)
  | segmentOutOfBounds (start stop : Nat)
  deriving DecidableEq, Repr

/-- Why the steps form no call tree. -/
inductive CallTreeError where
  | unmatchedReturn (index : Nat)
  | multipleRoots (count : Nat)
  deriving DecidableEq, Repr

/-- The wording of a trace error. -/
def TraceError.message : TraceError → String
  | .missingKey key => "notification metadata is missing required key '" ++ key ++ "'"
  | .unknownAction name => "unknown step action '" ++ name ++ "'"
  | .unsupportedType type => "unsupported data type '" ++ type ++ "'"
  | .malformedLocation quoted => "malformed location '" ++ quoted ++ "'"
  | .unknownNode id => "step references unknown node " ++ toString id
  | .missingPayload action type =>
    "no data payload for " ++ action ++ " step of type '" ++ type ++ "'"
  | .payloadTooShort type needed got =>
    "payload for '" ++ type ++ "' needs " ++ toString needed ++ " bytes, got " ++ toString got
  | .unknownReference reference =>
    "no notification registered for reference " ++ toString reference.toNat
  | .stepLimitExceeded limit =>
    "too many steps (possible infinite loop): limit is " ++ toString limit
  | .halted => "producer halted after exceeding the step limit"
  | .alreadyConsumed => "trace has already been produced"
  | .unreadable => "failed to read trace"
  | .malformedJson => "failed to parse trace"

/-- Whether the error says that the program ran away. -/
def TraceError.isRunaway : TraceError → Bool
  | .stepLimitExceeded _ => true
  | _ => false

/-- The wording of a source error. -/
def SourceError.message : SourceError → String
  | .multiLineHighlight first last =>
    "cannot highlight statement spanning lines " ++ toString first ++ "-" ++ toString last
  | .rangeOutOfBounds range => "range " ++ range.text ++ " lies outside the source text"
  | .segmentOutOfBounds start stop =>
    "segment " ++ toString start ++ ".." ++ toString stop ++ " is out of order or outside the text"

/-- The wording of a call tree error. -/
def CallTreeError.message : CallTreeError → String
  | .unmatchedReturn index => "return step " ++ toString index ++ " has no matching invocation"
  | .multipleRoots count => "step prefix contains " ++ toString count ++ " top-level calls"

end Retrace
