import LambdaDurable.Types.Operation

/-! # Lifecycle tracking of operations and the finished-ancestor guard -/

namespace LambdaDurable

inductive OperationLifecycle
  | notStarted | executing | retryWaiting | idleNotAwaited | idleAwaited | completed
  deriving DecidableEq, Repr

structure OperationInfo where
  id : String
  parentId : Option String
  operationType : OperationType
  lifecycle : OperationLifecycle
  awaited : Bool
  deriving DecidableEq, Repr

namespace CheckpointManager

/-- The `operations` map, one entry for each ID. -/
abbrev Lifecycles := List OperationInfo

def Lifecycles.insert (ops : Lifecycles) (info : OperationInfo) : Lifecycles :=
  info :: ops.filter (·.id ≠ info.id)

def hasFinishedAncestor (stepData : Table) (update : OperationUpdate) : Bool :=
  match update.parentId with
  | none => false
  | some parentId => stepData.terminal parentId

def updateOperationLifecycle (ops : Lifecycles) (update : OperationUpdate) : Lifecycles :=
  let existingAwaited := (ops.find? (·.id == update.id)).any (·.awaited)
  let lifecycle := match update.action with
    | .start =>
      if update.operationType = .wait ∨ update.operationType = .callback then
        if existingAwaited then .idleAwaited else .idleNotAwaited
      else .executing
    | .retry => .retryWaiting
    | .succeed | .fail => .completed
    | .cancel => .completed
  ops.insert { id := update.id, parentId := update.parentId, operationType := update.operationType,
               lifecycle, awaited := existingAwaited }

def markAwaited (ops : Lifecycles) (operationId : String) : Lifecycles :=
  ops.map fun info =>
    if info.id = operationId then
      { info with awaited := true,
                  lifecycle := if info.lifecycle = .idleNotAwaited then .idleAwaited else info.lifecycle }
    else info

def anyRetryWaiting (ops : Lifecycles) : Bool :=
  ops.any fun info => info.lifecycle == .retryWaiting

end CheckpointManager

end LambdaDurable
