import LambdaDurable.Types.Error

/-! # Results and completion of `map` and `parallel` -/

namespace LambdaDurable

inductive BatchItemStatus
  | succeeded | failed | started
  deriving DecidableEq, Repr

structure BatchItem (V : Type) where
  index : Nat
  status : BatchItemStatus
  result : Option V := none
  error : Option DurableError := none

inductive BatchCompletionReason
  | allCompleted | minSuccessfulReached | failureToleranceExceeded
  deriving DecidableEq, Repr

structure BatchResult (V : Type) where
  all : List (BatchItem V)
  completionReason : BatchCompletionReason

namespace BatchResult

variable {V : Type} (batch : BatchResult V)

def succeeded : List (BatchItem V) := batch.all.filter (·.status = .succeeded)

def failed : List (BatchItem V) := batch.all.filter (·.status = .failed)

def started : List (BatchItem V) := batch.all.filter (·.status = .started)

/-- The results in the order of the indices. -/
def values : List V :=
  ((batch.all.filterMap fun i => i.result.map fun r => (i.index, r)).mergeSort
    fun a b => a.1 ≤ b.1).map (·.2)

def successCount : Nat := batch.succeeded.length

def failureCount : Nat := batch.failed.length

end BatchResult

/-- A number of the configuration with its `Display` text. -/
structure Percentage where
  value : Float
  text : String

structure CompletionConfig where
  minSuccessful : Option Nat := none
  toleratedFailureCount : Option Nat := none
  toleratedFailurePercentage : Option Percentage := none

namespace CompletionConfig

variable (config : CompletionConfig)

def validateCompletionConfig (totalItems : Nat) (operationName : String) :
    Except DurableError Unit := do
  if let some min := config.minSuccessful then
    if min > totalItems then
      throw (.invalidConfiguration
        s!"{operationName}: min_successful ({min}) exceeds total items ({totalItems})")
  if let some tol := config.toleratedFailureCount then
    if tol > totalItems then
      throw (.invalidConfiguration
        s!"{operationName}: tolerated_failure_count ({tol}) exceeds total items ({totalItems})")
  if let some pct := config.toleratedFailurePercentage then
    if !pct.value.isFinite || !(0.0 ≤ pct.value && pct.value ≤ 100.0) then
      throw (.invalidConfiguration
        s!"{operationName}: tolerated_failure_percentage ({pct.text}) must be finite and between 0 and 100")

def hasCompletionCriteria : Bool :=
  config.minSuccessful.isSome || config.toleratedFailureCount.isSome ||
    config.toleratedFailurePercentage.isSome

def shouldContinueBatch (failureCount totalItems : Nat) : Bool :=
  if !config.hasCompletionCriteria then failureCount == 0
  else if config.toleratedFailureCount.any (failureCount > ·) then false
  else if config.toleratedFailurePercentage.any fun pct =>
      totalItems > 0 && (Float.ofNat failureCount / Float.ofNat totalItems) * 100.0 > pct.value then
    false
  else true

def computeBatchCompletionReason (failureCount successCount completedCount totalItems : Nat) :
    BatchCompletionReason :=
  if !config.shouldContinueBatch failureCount totalItems then .failureToleranceExceeded
  else if completedCount = totalItems then .allCompleted
  else
    match config.minSuccessful with
    | some min => if successCount ≥ min then .minSuccessfulReached else .allCompleted
    | none => .allCompleted

end CompletionConfig

def batchCompletionReasonStr : BatchCompletionReason → String
  | .allCompleted => "ALL_COMPLETED"
  | .minSuccessfulReached => "MIN_SUCCESSFUL_REACHED"
  | .failureToleranceExceeded => "FAILURE_TOLERANCE_EXCEEDED"

def batchStatusStr (failureCount : Nat) : String := if failureCount > 0 then "FAILED" else "SUCCEEDED"

/-- The summaries as `serde_json` writes them, keys in order. -/
def mapSummaryPayload (totalCount successCount failureCount : Nat)
    (completionReason : BatchCompletionReason) : String :=
  s!"\x7b\"completionReason\":\"{batchCompletionReasonStr completionReason}\"," ++
    s!"\"failureCount\":{failureCount},\"status\":\"{batchStatusStr failureCount}\"," ++
    s!"\"successCount\":{successCount},\"totalCount\":{totalCount},\"type\":\"MapResult\"\x7d"

def parallelSummaryPayload (totalCount successCount failureCount startedCount : Nat)
    (completionReason : BatchCompletionReason) : String :=
  s!"\x7b\"completionReason\":\"{batchCompletionReasonStr completionReason}\"," ++
    s!"\"failureCount\":{failureCount},\"startedCount\":{startedCount}," ++
    s!"\"status\":\"{batchStatusStr failureCount}\",\"successCount\":{successCount}," ++
    s!"\"totalCount\":{totalCount},\"type\":\"ParallelResult\"\x7d"

end LambdaDurable
