import LambdaDurable.Types.Error

/-!
# The termination manager

`terminate` holds the mutex of the `terminated` flag over three actions: it sets the
flag, calls the checkpoint-terminating callback, and sends the result on the watch
channel. `ExecutionContext::new` installs the callback, which sets `is_terminating`
of the checkpoint manager, before any task exists.
-/

namespace LambdaDurable

inductive TerminationReason
  | retryScheduled | waitScheduled | callbackPending | invokePending | checkpointFailed
  | serdesFailed | contextValidationError | allOperationsIdle | handlerCompleted | handlerFailed
  deriving DecidableEq, Repr

structure TerminationResult where
  reason : TerminationReason
  message : Option String := none
  error : Option DurableError := none
  deriving DecidableEq, Repr

def TerminationResult.new (reason : TerminationReason) : TerminationResult := { reason }

def TerminationResult.withMessage (reason : TerminationReason) (message : String) :
    TerminationResult :=
  { reason, message := some message }

def TerminationResult.withError (reason : TerminationReason) (error : DurableError) :
    TerminationResult :=
  { reason, message := some error.display, error := some error }

/-- The reasons whose termination the runtime answers with PENDING. -/
def TerminationReason.isSuspension : TerminationReason → Bool
  | .checkpointFailed | .serdesFailed | .contextValidationError => false
  | _ => true

/-- Shared state of a `TerminationManager`; `published` is the value of the watch channel. -/
structure Termination where
  terminated : Bool := false
  locked : Bool := false
  isTerminating : Bool := false
  published : Option TerminationResult := none

/-- How far a call of `terminate` has come. -/
inductive TerminateStage
  | waiting | flagged | signalled | returned
  deriving DecidableEq, Repr

namespace Termination

/-- The next action of a call of `terminate` with the given result. -/
def advance (t : Termination) (result : TerminationResult) :
    TerminateStage → Option (Termination × TerminateStage)
  | .waiting =>
    if t.locked then none
    else if t.terminated then some (t, .returned)
    else some ({ t with terminated := true, locked := true }, .flagged)
  | .flagged => some ({ t with isTerminating := true }, .signalled)
  | .signalled => some ({ t with published := some result, locked := false }, .returned)
  | .returned => none

theorem advance_cases {t t' : Termination} {result : TerminationResult} {g g' : TerminateStage}
    (h : t.advance result g = some (t', g')) :
    (g = .waiting ∧ t.locked = false ∧ t.terminated = true ∧ t' = t ∧ g' = .returned) ∨
    (g = .waiting ∧ t.locked = false ∧ t.terminated = false ∧ g' = .flagged ∧
      t' = { t with terminated := true, locked := true }) ∨
    (g = .flagged ∧ g' = .signalled ∧ t' = { t with isTerminating := true }) ∨
    (g = .signalled ∧ g' = .returned ∧
      t' = { t with published := some result, locked := false }) := by
  cases g <;> simp only [advance] at h <;> grind

end Termination

end LambdaDurable
