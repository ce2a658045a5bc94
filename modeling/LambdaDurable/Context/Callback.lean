import LambdaDurable.Context.Child
import LambdaDurable.Context.Step

/-! # Callbacks and `wait_for_callback` -/

namespace LambdaDurable

variable {V T : Type}

/-- The retry strategy is not here: it answers the effect `shouldRetry`. -/
structure CallbackConfig (T : Type) where
  timeout : Option Duration := none
  heartbeatTimeout : Option Duration := none
  codec : Codec T

structure CallbackHandle (T : Type) where
  callbackId : String
  stepId : String
  hashedId : String
  executionCtx : ExecutionContext
  codec : Codec T

namespace Callback

def errorMessage (op : Operation) : String :=
  ((op.callbackDetails.bind (·.error)).map (·.errorMessage)).getD "Unknown error"

/-- The outcome of a finished callback, its payload read by `read`; nothing if it is not finished. -/
def outcome (op : Operation) (stepId : String) (read : String → Act V (Option T)) :
    Option (Act V (DurableResult T)) :=
  match op.status with
  | .succeeded => some <|
    match op.callbackDetails.bind (·.result) with
    | some payload => do
      match ← read payload with
      | some val => .ret (.ok val)
      | none => .ret (.error (.internal "Missing callback result in replay"))
    | none => .ret (.error (.internal "Missing callback result in replay"))
  | .failed => some (.ret (.error (.callbackFailed stepId (errorMessage op))))
  | _ => none

/-- The common body of `wait_for_callback` and `wait_for_callback_raw` on a handle. -/
def await {S : Type} (handle : CallbackHandle S) (read : String → Act V (Option T)) :
    Act V (DurableResult T) := do
  let operation ← getStepData handle.hashedId
  match operation.bind fun op => outcome op handle.stepId read with
  | some finished => finished
  | none => .act (.markAwaited handle.hashedId) fun _ => suspend (.new .callbackPending)

def handleReplay (ctx : ExecutionContext) (operation : Option Operation) (codec : Codec T)
    (hashedId stepId : String) (name : Option String) : Act V (DurableResult (Option T)) :=
  match operation with
  | none => .ret (.ok none)
  | some op =>
    if op.operationType ≠ .callback then .ret (.ok none)
    else
      match outcome op stepId
          fun payload => safeDeserialize codec (some payload) (ctx.site hashedId name) with
      | some finished => finished.andThen fun val => .ret (.ok (some val))
      | none => do
        setMode .execution
        suspend (.new .callbackPending)

def startUpdate (ctx : ExecutionContext) (name : Option String) (hashedId : String)
    (config : Option (CallbackConfig T)) : OperationUpdate :=
  { ctx.update name hashedId .callback "Callback" .start with
    callbackOptions := config.map fun cfg =>
      ⟨cfg.timeout.map (·.toSecondsI32Saturating),
        cfg.heartbeatTimeout.map (·.toSecondsI32Saturating)⟩ }

theorem startUpdate_buildable (ctx : ExecutionContext) (name : Option String) (hashedId : String)
    (config : Option (CallbackConfig T)) : (startUpdate ctx name hashedId config).Buildable := by
  have hseconds : ∀ (duration : Option Duration), ∀ d ∈ duration.map (·.toSecondsI32Saturating), 0 ≤ d := by
    intro duration d hd
    obtain ⟨_, -, rfl⟩ := Option.map_eq_some_iff.mp hd
    exact Duration.toSecondsI32Saturating_nonneg _
  apply OperationUpdate.build_eq
  case htimeout | hheartbeat =>
    intro o ho
    obtain ⟨cfg, -, rfl⟩ := Option.map_eq_some_iff.mp ho
    exact hseconds _
  all_goals rintro _ ⟨⟩

end Callback

/-- `CallbackHandle::wait` -/
def CallbackHandle.wait (handle : CallbackHandle T) : Act V (DurableResult T) :=
  Callback.await handle fun payload =>
    safeDeserialize handle.codec (some payload)
      (handle.executionCtx.site handle.hashedId (some handle.stepId))

/-- `CallbackHandle::wait_raw` -/
def CallbackHandle.waitRaw (handle : CallbackHandle T) : Act V (DurableResult String) :=
  Callback.await handle fun payload => .ret (some payload)

/-- With no `config`, the codec is serde_json's. -/
def ExecutionContext.createCallback (ctx : ExecutionContext) (name : Option String)
    (config : Option (CallbackConfig T)) (codec : Codec T) :
    Act V (DurableResult (CallbackHandle T)) := do
  let stepId ← ctx.nextOperationId name
  let hashedId := ctx.hashId stepId
  let operation ← getStepData hashedId
  let started : Act V (DurableResult Unit) :=
    match operation with
    | none =>
      checkpoint stepId "callback START" (Callback.startUpdate ctx name hashedId config)
    | some _ => .ret (.ok ())
  started.andThen fun _ => do
    let stored ← getStepData hashedId
    let callbackId := (stored.bind fun op => op.callbackDetails.bind (·.callbackId)).getD
      s!"{ctx.durableExecutionArn}:{hashedId}"
    .ret (.ok ⟨callbackId, stepId, hashedId, ctx, codec⟩)

namespace Callback

/-- The closure of the child context in which the submitter runs. -/
def submit (config : CallbackConfig T) (unitCodec : Codec Unit) (child : ExecutionContext) :
    Act V (DurableResult String) :=
  (child.createCallback none (some config) config.codec).andThen fun handle =>
    (child.step (some "submitter")
      (fun _ attempt => .act (.submitter handle.callbackId attempt) fun r => .ret r)
      { codec := unitCodec }).andThen fun _ => handle.waitRaw

/-- `wait_for_callback` once the record is read. -/
def body (ctx : ExecutionContext) (name : Option String) (config : CallbackConfig T)
    (unitCodec : Codec Unit) (rawCodec : Codec String) (stepId : String)
    (operation : Option Operation) : Act V (DurableResult T) :=
  (handleReplay ctx operation config.codec (ctx.hashId stepId) stepId name).andThen fun
    | some result => .ret (.ok result)
    | none =>
      (ctx.runInChildContextWithIds stepId (ctx.hashId stepId) name (submit config unitCodec)
        { subType := "WaitForCallback", codec := rawCodec }).andThen fun rawPayload => do
          match ← safeDeserialize config.codec (some rawPayload)
              (ctx.site (ctx.hashId stepId) name) with
          | some val => .ret (.ok val)
          | none => .ret (.error (.internal "Missing callback result after wait"))

end Callback

/-- `unitCodec` and `rawCodec` are serde_json's, for `()` and for `String`. -/
def ExecutionContext.waitForCallback (ctx : ExecutionContext) (name : Option String)
    (config : CallbackConfig T) (unitCodec : Codec Unit) (rawCodec : Codec String) :
    Act V (DurableResult T) := do
  let stepId ← ctx.nextOperationId name
  let operation ← getStepData (ctx.hashId stepId)
  Callback.body ctx name config unitCodec rawCodec stepId operation

end LambdaDurable
