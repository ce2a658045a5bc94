import LambdaDurable.Context.Serdes

/-! # `step` -/

namespace LambdaDurable

variable {V T : Type}

inductive StepSemantics
  | atLeastOncePerRetry | atMostOncePerRetry
  deriving DecidableEq, Repr

/-- The retry strategy is not here: it answers the effect `shouldRetry`. -/
structure StepConfig (T : Type) where
  semantics : StepSemantics := .atLeastOncePerRetry
  codec : Codec T

namespace Step

def stepInterruptedError (stepId : String) (name : Option String) : BoxError :=
  { message := match name with
      | some n => s!"Step interrupted: {n} ({stepId})"
      | none => s!"Step interrupted: {stepId}" }

def update (ctx : ExecutionContext) (name : Option String) (hashedId : String)
    (action : OperationAction) : OperationUpdate :=
  ctx.update name hashedId .step "Step" action

def retryUpdate (ctx : ExecutionContext) (name : Option String) (hashedId : String)
    (error : BoxError) (delay : Option Duration) : OperationUpdate :=
  { update ctx name hashedId .retry with
    error := some (.fromError error)
    stepOptions := some ⟨some (delay.getD (.ofSeconds 1)).toSecondsI32Saturating⟩ }

def failUpdate (ctx : ExecutionContext) (name : Option String) (hashedId : String)
    (error : BoxError) : OperationUpdate :=
  { update ctx name hashedId .fail with error := some (.fromError error) }

def succeedUpdate (ctx : ExecutionContext) (name : Option String) (hashedId : String)
    (payload : Option String) : OperationUpdate :=
  { update ctx name hashedId .succeed with payload }

theorem update_buildable (ctx : ExecutionContext) (name : Option String) (hashedId : String)
    (action : OperationAction) : (update ctx name hashedId action).Buildable :=
  OperationUpdate.build_of_plain rfl rfl rfl rfl

theorem retryUpdate_buildable (ctx : ExecutionContext) (name : Option String) (hashedId : String)
    (error : BoxError) (delay : Option Duration) :
    (retryUpdate ctx name hashedId error delay).Buildable := by
  apply OperationUpdate.build_eq
  · rintro _ ⟨⟩ _ ⟨⟩
    exact Duration.toSecondsI32Saturating_nonneg _
  all_goals rintro _ ⟨⟩

theorem failUpdate_buildable (ctx : ExecutionContext) (name : Option String) (hashedId : String)
    (error : BoxError) : (failUpdate ctx name hashedId error).Buildable :=
  OperationUpdate.build_of_plain rfl rfl rfl rfl

theorem succeedUpdate_buildable (ctx : ExecutionContext) (name : Option String) (hashedId : String)
    (payload : Option String) : (succeedUpdate ctx name hashedId payload).Buildable :=
  OperationUpdate.build_of_plain rfl rfl rfl rfl

/-- The arm of `handle_replay` for a step that was started at most once and never finished. -/
def handleInterrupted (ctx : ExecutionContext) (op : Operation) (stepId hashedId : String)
    (name : Option String) : Act V (DurableResult (Option T)) := do
  setMode .execution
  let attemptsMade := op.attemptIdx + 1
  let interrupted := stepInterruptedError stepId name
  .act (.shouldRetry interrupted attemptsMade) fun decision =>
    if decision.shouldRetry then
      (checkpoint stepId "step RETRY"
        (retryUpdate ctx name hashedId interrupted decision.delay)).andThen fun _ =>
          suspend (.new .retryScheduled)
    else
      (checkpoint stepId "step FAIL" (failUpdate ctx name hashedId interrupted)).andThen fun _ =>
        .ret (.error (.stepFailed stepId attemptsMade interrupted.message))

def handleReplay (ctx : ExecutionContext) (operation : Option Operation) (stepId hashedId : String)
    (name : Option String) (semantics : StepSemantics) (codec : Codec T) : Act V (DurableResult (Option T)) :=
  match operation with
  | none => .ret (.ok none)
  | some op =>
    match op.status with
    | .succeeded =>
      match op.stepDetails.bind (·.result) with
      | some payload => do
        match ← safeDeserialize codec (some payload) (ctx.site hashedId name) with
        | some val => .ret (.ok (some val))
        | none => .ret (.error (.internal "Missing step output in replay"))
      | none => .ret (.error (.internal "Missing step output in replay"))
    | .failed =>
      .ret (.error (.stepFailed stepId (op.attemptIdx + 1)
        (((op.stepDetails.bind (·.error)).map (·.errorMessage)).getD "Replayed failure")))
    | .pending => do
      setMode .execution
      suspend (.new .retryScheduled)
    | .started =>
      match semantics with
      | .atMostOncePerRetry => handleInterrupted ctx op stepId hashedId name
      | .atLeastOncePerRetry => .ret (.ok none)
    | _ => .ret (.ok none)

def alreadyStarted (operation : Option Operation) : Bool :=
  operation.any fun op => op.status == .started || op.status == .ready

def startStep (ctx : ExecutionContext) (name : Option String) (stepId hashedId : String)
    (semantics : StepSemantics) : Act V (DurableResult Unit) :=
  match semantics with
  | .atMostOncePerRetry => checkpoint stepId "step START" (update ctx name hashedId .start)
  | .atLeastOncePerRetry => checkpointQueued stepId "step START" (update ctx name hashedId .start)

/-- What `run_step_execution` does once the closure has answered. -/
def finishStep (ctx : ExecutionContext) (name : Option String) (stepId hashedId : String)
    (attempt : Nat) (codec : Codec T) : Except BoxError T → Act V (DurableResult T)
  | .ok result => do
    let payload ← safeSerialize codec (some result) (ctx.site hashedId name)
    (checkpoint stepId "step SUCCEED"
      (succeedUpdate ctx name hashedId payload)).andThen fun _ => .ret (.ok result)
  | .error error =>
    .act (.shouldRetry error attempt) fun decision =>
      if decision.shouldRetry then
        (checkpoint stepId "step RETRY"
          (retryUpdate ctx name hashedId error decision.delay)).andThen fun _ =>
            suspend (.new .retryScheduled)
      else
        (checkpoint stepId "step FAIL" (failUpdate ctx name hashedId error)).andThen fun _ =>
          .ret (.error (.stepFailed stepId attempt error.message))

def runStepExecution (ctx : ExecutionContext) (name : Option String)
    (stepFn : String → Nat → Act V (Except BoxError T)) (stepId hashedId : String)
    (operation : Option Operation) (semantics : StepSemantics) (codec : Codec T) :
    Act V (DurableResult T) := do
  setMode .execution
  let started : Act V (DurableResult Unit) :=
    if alreadyStarted operation then .ret (.ok ())
    else startStep ctx name stepId hashedId semantics
  started.andThen fun _ => do
    let attempt := (operation.map (·.attemptIdx)).getD 0 + 1
    let _ ← getMode
    let outcome ← stepFn hashedId attempt
    finishStep ctx name stepId hashedId attempt codec outcome

/-- `step` once the record is read. -/
def body (ctx : ExecutionContext) (name : Option String)
    (stepFn : String → Nat → Act V (Except BoxError T)) (config : StepConfig T) (stepId : String)
    (operation : Option Operation) : Act V (DurableResult T) :=
  (handleReplay ctx operation stepId (ctx.hashId stepId) name config.semantics config.codec).andThen
    fun
    | some result => .ret (.ok result)
    | none =>
      runStepExecution ctx name stepFn stepId (ctx.hashId stepId) operation config.semantics
        config.codec

end Step

def ExecutionContext.step (ctx : ExecutionContext) (name : Option String)
    (stepFn : String → Nat → Act V (Except BoxError T)) (config : StepConfig T) :
    Act V (DurableResult T) := do
  let stepId ← ctx.nextOperationId name
  let operation ← getStepData (ctx.hashId stepId)
  Step.body ctx name stepFn config stepId operation

/-- The closure of a step: user code, told its attempt. -/
def userStep (hashedId : String) (attempt : Nat) : Act V (Except BoxError V) :=
  .act (.stepFn hashedId attempt) fun outcome => .ret outcome

end LambdaDurable
