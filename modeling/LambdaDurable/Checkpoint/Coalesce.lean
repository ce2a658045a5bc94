import LambdaDurable.Types.Operation

/-!
# Coalescing the updates of one batch

Updates of one operation are merged into one update at the place of the first of them.
-/

namespace LambdaDurable

def OperationType.debug : OperationType → String
  | .step => "Step"
  | .wait => "Wait"
  | .callback => "Callback"
  | .chainedInvoke => "ChainedInvoke"
  | .context => "Context"
  | .execution => "Execution"

namespace CheckpointManager

/-- Keep the newest action, but preserve metadata of the earlier update where the newer
one has none. -/
def mergeUpdate (existing update : OperationUpdate) : OperationUpdate :=
  { existing with
    action := update.action
    parentId := update.parentId.or existing.parentId
    name := update.name.or existing.name
    subType := update.subType.or existing.subType
    payload := update.payload.or existing.payload
    error := update.error.or existing.error
    contextOptions := update.contextOptions.or existing.contextOptions
    stepOptions := update.stepOptions.or existing.stepOptions
    waitOptions := update.waitOptions.or existing.waitOptions
    callbackOptions := update.callbackOptions.or existing.callbackOptions
    chainedInvokeOptions := update.chainedInvokeOptions.or existing.chainedInvokeOptions }

/-- The IDs in order of first occurrence, and the merged update of each. -/
structure Coalesced where
  order : List String := []
  byId : String → Option OperationUpdate := fun _ => none

def coalesceStep (acc : Coalesced) (update : OperationUpdate) : Except DurableError Coalesced :=
  match acc.byId update.id with
  | none => .ok { order := acc.order ++ [update.id],
                  byId := Function.update acc.byId update.id (some update) }
  | some existing =>
    if existing.operationType ≠ update.operationType then
      .error (.contextValidationError
        (s!"OperationUpdate type mismatch for id {existing.id}: " ++
          s!"{existing.operationType.debug} vs {update.operationType.debug}"))
    else
      .ok { acc with byId := Function.update acc.byId update.id (some (mergeUpdate existing update)) }

def coalesceUpdates (updates : List OperationUpdate) : Except DurableError (List OperationUpdate) :=
  if updates.length ≤ 1 then .ok updates
  else do
    let acc ← updates.foldlM coalesceStep {}
    -- IDs occur once in `order`, so taking out of the map is looking up.
    return acc.order.filterMap acc.byId

end CheckpointManager

end LambdaDurable
