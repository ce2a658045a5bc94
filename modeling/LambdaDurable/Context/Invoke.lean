import LambdaDurable.Context.Serdes

/-! # `invoke` -/

namespace LambdaDurable

variable {V I O : Type}

structure InvokeConfig (I O : Type) where
  payloadCodec : Codec I
  resultCodec : Codec O
  tenantId : Option String := none

namespace Invoke

/-- The outcome of a finished invoke; nothing if it is not finished. -/
def outcome (ctx : ExecutionContext) (op : Operation) (resultCodec : Codec O) (hashedId : String)
    (name : Option String) (functionId : String) : Option (Act V (DurableResult (Option O))) :=
  match op.status with
  | .succeeded => some <|
    match op.chainedInvokeDetails.bind (·.result) with
    | some payload => do
      match ← safeDeserialize resultCodec (some payload) (ctx.site hashedId name) with
      | some val => .ret (.ok (some val))
      | none => .ret (.error (.internal "Missing invoke result in replay"))
    | none => .ret (.error (.internal "Missing invoke result in replay"))
  | .failed => some (.ret (.error (.invocationFailed functionId
      (((op.chainedInvokeDetails.bind (·.error)).map (·.errorMessage)).getD "Invoke failed"))))
  | _ => none

def handleReplay (ctx : ExecutionContext) (operation : Option Operation) (resultCodec : Codec O)
    (hashedId : String) (name : Option String) (functionId : String) :
    Act V (DurableResult (Option O)) :=
  match operation with
  | none => .ret (.ok none)
  | some op =>
    match outcome ctx op resultCodec hashedId name functionId with
    | some finished => finished
    | none =>
      -- a failed refresh is only logged
      .act .forceCheckpoint fun _ => do
        let refreshed ← getStepData hashedId
        match refreshed.bind fun op => outcome ctx op resultCodec hashedId name functionId with
        | some finished => finished
        | none => do
          setMode .execution
          suspend (.new .invokePending)

def startUpdate (ctx : ExecutionContext) (name : Option String) (hashedId functionId : String)
    (tenantId payload : Option String) : OperationUpdate :=
  { ctx.update name hashedId .chainedInvoke "ChainedInvoke" .start with
    chainedInvokeOptions := some ⟨functionId, tenantId⟩
    payload }

theorem startUpdate_buildable (ctx : ExecutionContext) (name : Option String) (hashedId : String)
    {functionId : String} (tenantId payload : Option String) (h : blank functionId = false) :
    (startUpdate ctx name hashedId functionId tenantId payload).Buildable := by
  apply OperationUpdate.build_eq
  case hinvoke =>
    rintro _ ⟨⟩
    exact h
  all_goals rintro _ ⟨⟩

def runInvokeExecution (ctx : ExecutionContext) (name : Option String) (functionId : String)
    (input : Option I) (config : InvokeConfig I O) (stepId hashedId : String) :
    Act V (DurableResult O) := do
  let payload ← safeSerialize config.payloadCodec input (ctx.site hashedId name)
  (checkpoint stepId "chained invoke START"
    (startUpdate ctx name hashedId functionId config.tenantId payload)).andThen fun _ =>
      suspend (.new .invokePending)

/-- `invoke_with_config` once the record is read. -/
def body (ctx : ExecutionContext) (name : Option String) (functionId : String) (input : Option I)
    (config : InvokeConfig I O) (stepId : String) (operation : Option Operation) :
    Act V (DurableResult O) :=
  (handleReplay ctx operation config.resultCodec (ctx.hashId stepId) name functionId).andThen fun
    | some result => .ret (.ok result)
    | none => runInvokeExecution ctx name functionId input config stepId (ctx.hashId stepId)

end Invoke

def ExecutionContext.invokeWithConfig (ctx : ExecutionContext) (name : Option String)
    (functionId : String) (input : Option I) (config : InvokeConfig I O) :
    Act V (DurableResult O) := do
  let stepId ← ctx.nextOperationId name
  let operation ← getStepData (ctx.hashId stepId)
  Invoke.body ctx name functionId input config stepId operation

end LambdaDurable
