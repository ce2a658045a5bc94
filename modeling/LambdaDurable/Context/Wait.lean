import LambdaDurable.Context.Step

/-! # `wait` and `wait_for_condition` -/

namespace LambdaDurable

variable {V T : Type}

namespace Wait

def startUpdate (ctx : ExecutionContext) (name : Option String) (hashedId : String)
    (duration : Duration) : OperationUpdate :=
  { ctx.update name hashedId .wait "Wait" .start with
    waitOptions := some ⟨some duration.toSecondsI32Saturating⟩ }

theorem startUpdate_buildable (ctx : ExecutionContext) (name : Option String) (hashedId : String)
    (duration : Duration) : (startUpdate ctx name hashedId duration).Buildable := by
  apply OperationUpdate.build_eq
  case hwait =>
    rintro _ ⟨⟩ _ ⟨⟩
    exact Duration.toSecondsI32Saturating_nonneg _
  all_goals rintro _ ⟨⟩

def runWait (ctx : ExecutionContext) (name : Option String) (duration : Duration)
    (stepId hashedId : String) : Act V (DurableResult Unit) :=
  if duration.isZero then .ret (.ok ())
  else do
    match ← getStepData hashedId with
    | some operation =>
      match operation.status with
      | .succeeded => .ret (.ok ())
      | .failed => .ret (.error (.internal "Wait failed in replay"))
      | _ => do
        setMode .execution
        suspend (.new .waitScheduled)
    | none =>
      (checkpoint stepId "wait START" (startUpdate ctx name hashedId duration)).andThen fun _ => do
        let operation ← getStepData hashedId
        match (operation.map (·.status) : Option OperationStatus) with
        | some .succeeded => .ret (.ok ())
        | some .failed => .ret (.error (.internal "Wait failed immediately after checkpoint"))
        | _ => .act (.markAwaited hashedId) fun _ => suspend (.new .waitScheduled)

end Wait

def ExecutionContext.wait (ctx : ExecutionContext) (name : Option String) (duration : Duration) :
    Act V (DurableResult Unit) := do
  let stepId ← ctx.nextOperationId name
  Wait.runWait ctx name duration stepId (ctx.hashId stepId)

/-- The wait strategy is not here: it answers the effect `waitStrategy`. -/
structure WaitConditionConfig (V : Type) where
  initialState : V
  codec : Codec V
  maxAttempts : Option Nat := none

namespace WaitCondition

/-- Every update but START leaves the parent and the name out. -/
def update (hashedId : String) (action : OperationAction) : OperationUpdate :=
  { id := hashedId, operationType := .step, subType := some "WaitForCondition", action }

def retryUpdate (hashedId : String) (payload : Option String) (delay : Duration) :
    OperationUpdate :=
  { update hashedId .retry with
    payload
    stepOptions := some ⟨some delay.toSecondsI32Saturating⟩ }

def succeedUpdate (hashedId : String) (payload : Option String) : OperationUpdate :=
  { update hashedId .succeed with payload }

def failUpdate (hashedId : String) (error : DurableError) : OperationUpdate :=
  { update hashedId .fail with error := some (.fromDurableError error) }

def startUpdate (ctx : ExecutionContext) (name : Option String) (hashedId : String) :
    OperationUpdate :=
  ctx.update name hashedId .step "WaitForCondition" .start

theorem retryUpdate_buildable (hashedId : String) (payload : Option String) (delay : Duration) :
    (retryUpdate hashedId payload delay).Buildable := by
  apply OperationUpdate.build_eq
  · rintro _ ⟨⟩ _ ⟨⟩
    exact Duration.toSecondsI32Saturating_nonneg _
  all_goals rintro _ ⟨⟩

theorem succeedUpdate_buildable (hashedId : String) (payload : Option String) :
    (succeedUpdate hashedId payload).Buildable :=
  OperationUpdate.build_of_plain rfl rfl rfl rfl

theorem failUpdate_buildable (hashedId : String) (error : DurableError) :
    (failUpdate hashedId error).Buildable :=
  OperationUpdate.build_of_plain rfl rfl rfl rfl

theorem startUpdate_buildable (ctx : ExecutionContext) (name : Option String) (hashedId : String) :
    (startUpdate ctx name hashedId).Buildable :=
  OperationUpdate.build_of_plain rfl rfl rfl rfl

def handleReplay (ctx : ExecutionContext) (operation : Option Operation) (codec : Codec V)
    (hashedId stepId : String) (name : Option String) : Act V (DurableResult (Option V)) :=
  match operation with
  | none => .ret (.ok none)
  | some op =>
    match op.status with
    | .succeeded =>
      match op.stepDetails.bind (·.result) with
      | some payload => do
        match ← safeDeserialize codec (some payload) (ctx.site hashedId name) with
        | some val => .ret (.ok (some val))
        | none => .ret (.error (.internal "Missing wait-for-condition result in replay"))
      | none => .ret (.error (.internal "Missing wait-for-condition result in replay"))
    | .failed =>
      .ret (.error (.stepFailed stepId ((op.stepDetails.bind (·.attempt)).getD 1)
        (((op.stepDetails.bind (·.error)).map (·.errorMessage)).getD "Wait for condition failed")))
    | _ => do
      setMode .execution
      .ret (.ok none)

/-- The state a check starts from. -/
def currentState (ctx : ExecutionContext) (config : WaitConditionConfig V)
    (operation : Option Operation) (hashedId : String) (name : Option String) : Act V V :=
  match operation.bind fun op => op.stepDetails.bind (·.result) with
  | some payload => do
    let state ← safeDeserialize config.codec (some payload) (ctx.site hashedId name)
    .ret (state.getD config.initialState)
  | none => .ret config.initialState

/-- What follows a check that returned a new state. -/
def decide (ctx : ExecutionContext) (name : Option String) (config : WaitConditionConfig V)
    (stepId hashedId : String) (attempt : Nat) (state : V) : Act V (DurableResult V) := do
  let payload ← safeSerialize config.codec (some state) (ctx.site hashedId name)
  .act (.waitStrategy state attempt) fun
    | .stop =>
      (checkpoint stepId "wait_for_condition SUCCEED"
        (succeedUpdate hashedId payload)).andThen fun _ => .ret (.ok state)
    | .continue delay =>
      (checkpoint stepId "wait_for_condition RETRY"
        (retryUpdate hashedId payload delay)).andThen fun _ => suspend (.new .retryScheduled)

def runCheck (ctx : ExecutionContext) (name : Option String) (config : WaitConditionConfig V)
    (stepId hashedId : String) (attempt : Nat) (state : V) : Act V (DurableResult V) := do
  let operation ← getStepData hashedId
  let started : Act V (DurableResult Unit) :=
    match operation with
    | none =>
      checkpoint stepId "wait_for_condition START" (startUpdate ctx name hashedId)
    | some _ => .ret (.ok ())
  started.andThen fun _ => do
    let _ ← getMode
    .act (.checkFn state hashedId) fun
      | .ok newState => decide ctx name config stepId hashedId attempt newState
      -- `check_fn(state, step_ctx).await?`: no update says that the operation failed
      | .error e => .ret (.error e)

def exceeded (name : Option String) (attempt : Nat) : DurableError :=
  .waitConditionExceeded (name.getD "wait_for_condition") attempt

def runAttempt (ctx : ExecutionContext) (name : Option String) (config : WaitConditionConfig V)
    (stepId hashedId : String) (attempt : Nat) (state : V) : Act V (DurableResult V) :=
  if config.maxAttempts.any (attempt > ·) then
    (checkpoint stepId "wait_for_condition FAIL"
      (failUpdate hashedId (exceeded name attempt))).andThen fun _ =>
        .ret (.error (exceeded name attempt))
  else runCheck ctx name config stepId hashedId attempt state

def runWaitCondition (ctx : ExecutionContext) (name : Option String)
    (config : WaitConditionConfig V) (stepId hashedId : String) : Act V (DurableResult V) := do
  let operation ← getStepData hashedId
  let state ← currentState ctx config operation hashedId name
  let stored ← getStepData hashedId
  runAttempt ctx name config stepId hashedId ((stored.map (·.attemptIdx)).getD 0 + 1) state

/-- `wait_for_condition` once the record is read. -/
def body (ctx : ExecutionContext) (name : Option String) (config : WaitConditionConfig V)
    (stepId : String) (operation : Option Operation) : Act V (DurableResult V) :=
  (handleReplay ctx operation config.codec (ctx.hashId stepId) stepId name).andThen fun
    | some result => .ret (.ok result)
    | none => runWaitCondition ctx name config stepId (ctx.hashId stepId)

end WaitCondition

def ExecutionContext.waitForCondition (ctx : ExecutionContext) (name : Option String)
    (config : WaitConditionConfig V) : Act V (DurableResult V) := do
  let stepId ← ctx.nextOperationId name
  let operation ← getStepData (ctx.hashId stepId)
  WaitCondition.body ctx name config stepId operation

end LambdaDurable
