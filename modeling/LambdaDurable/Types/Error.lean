import LambdaDurable.Types.Duration

/-!
# Errors of durable operations

The `source` chain of an error never reaches its text nor a replayed result, so a
`DurableError` here is the variant with the fields its text is made of.
-/

namespace LambdaDurable

/-- An error of user code: its text, and the text of its source if it has one. -/
structure BoxError where
  message : String
  source : Option String := none
  deriving DecidableEq, Repr

inductive DurableError
  | stepFailed (name : String) (attempts : Nat) (message : String)
  | callbackTimeout (name : String) (duration : Duration)
  | callbackFailed (name message : String)
  | invocationFailed (function message : String)
  | checkpointFailed (message : String) (recoverable : Bool)
  | serializationFailed (operation message : String)
  | replayValidationFailed (expected actual : String)
  | childContextFailed (name message : String)
  | batchOperationFailed (name message : String) (successfulCount failedCount : Nat)
  | waitConditionExceeded (name : String) (attempts : Nat)
  | invalidConfiguration (message : String)
  | contextValidationError (message : String)
  | internal (message : String)
  | awsSdk (message : String)
  deriving DecidableEq, Repr

namespace DurableError

def display : DurableError → String
  | stepFailed name attempts message => s!"Step '{name}' failed after {attempts} attempt(s): {message}"
  | callbackTimeout name duration => s!"Callback '{name}' timed out after {duration.display}"
  | callbackFailed name message => s!"Callback '{name}' failed: {message}"
  | invocationFailed function message => s!"Lambda invocation of '{function}' failed: {message}"
  | checkpointFailed message _ => s!"Checkpoint failed: {message}"
  | serializationFailed operation message =>
    s!"Serialization failed for operation '{operation}': {message}"
  | replayValidationFailed expected actual =>
    s!"Replay validation failed: expected {expected}, got {actual}"
  | childContextFailed name message => s!"Child context '{name}' failed: {message}"
  | batchOperationFailed name message _ _ => s!"Batch operation '{name}' failed: {message}"
  | waitConditionExceeded name attempts =>
    s!"Wait for condition '{name}' exceeded maximum attempts ({attempts})"
  | invalidConfiguration message => s!"Invalid configuration: {message}"
  | contextValidationError message => s!"Context validation error: {message}"
  | internal message => s!"Internal SDK error: {message}"
  | awsSdk message => s!"AWS SDK error: {message}"

def errorTypeName : DurableError → String
  | stepFailed .. => "StepFailed"
  | callbackTimeout .. => "CallbackTimeout"
  | callbackFailed .. => "CallbackFailed"
  | invocationFailed .. => "InvocationFailed"
  | checkpointFailed .. => "CheckpointFailed"
  | serializationFailed .. => "SerializationFailed"
  | replayValidationFailed .. => "ReplayValidationFailed"
  | childContextFailed .. => "ChildContextFailed"
  | batchOperationFailed .. => "BatchOperationFailed"
  | waitConditionExceeded .. => "WaitConditionExceeded"
  | invalidConfiguration .. => "InvalidConfiguration"
  | contextValidationError .. => "ContextValidationError"
  | internal _ => "Internal"
  | awsSdk .. => "AwsSdk"

end DurableError

structure ErrorObject where
  errorType : String
  errorMessage : String
  details : Option String
  deriving DecidableEq, Repr

namespace ErrorObject

def fromDurableError (error : DurableError) : ErrorObject :=
  { errorType := error.errorTypeName, errorMessage := error.display, details := none }

def fromError (error : BoxError) : ErrorObject :=
  { errorType := "Error", errorMessage := error.message, details := error.source }

@[simp] theorem fromDurableError_errorMessage (error : DurableError) :
    (fromDurableError error).errorMessage = error.display := rfl

@[simp] theorem fromError_errorMessage (error : BoxError) :
    (fromError error).errorMessage = error.message := rfl

end ErrorObject

end LambdaDurable
