import LambdaDurable.Context.Serdes

/-! # `run_in_child_context` -/

namespace LambdaDurable

variable {V T : Type}

def checkpointSizeLimitBytes : Nat := 256 * 1024

structure ChildContextConfig (T : Type) where
  subType : String := "RunInChildContext"
  codec : Codec T

/-- The recorded context asks for its result to be rebuilt from its children. -/
def Operation.replayChildren (op : Operation) : Bool :=
  op.contextDetails.bind (·.replayChildren) == some true

/-- `error_message` of the context details, or a text that stands in for it. -/
def Operation.contextErrorMessage (op : Operation) (missing : String) : String :=
  ((op.contextDetails.bind (·.error)).map (·.errorMessage)).getD missing

namespace Child

inductive ReplayDecision (T : Type)
  | return (val : T)
  | replayChildren
  | continue

def fromPayload (codec : Codec T) (payload : Option String) (site : SerdesSite) :
    Act V (Option T) :=
  match payload with
  | some p => safeDeserialize codec (some p) site
  | none => .ret none

def evaluateReplay (ctx : ExecutionContext) (operation : Option Operation) (codec : Codec T)
    (hashedId stepId : String) (name : Option String) :
    Act V (DurableResult (ReplayDecision T)) :=
  match operation with
  | none => .ret (.ok .continue)
  | some op =>
    match op.status with
    | .succeeded =>
      if op.replayChildren then .ret (.ok .replayChildren)
      else do
        match ← fromPayload codec (op.contextDetails.bind (·.result)) (ctx.site hashedId name) with
        | some val => .ret (.ok (.return val))
        | none =>
          -- older payload location
          match ← fromPayload codec (op.executionDetails.bind (·.outputPayload))
              (ctx.site hashedId name) with
          | some val => .ret (.ok (.return val))
          | none => .ret (.ok .continue)
    | .failed =>
      .ret (.error (.childContextFailed stepId (op.contextErrorMessage "Child context failed")))
    | _ => do
      setMode .execution
      .ret (.ok .continue)

def update (ctx : ExecutionContext) (name : Option String) (hashedId subType : String)
    (action : OperationAction) : OperationUpdate :=
  ctx.update name hashedId .context subType action

/-- The SUCCEED update: a payload over the limit is replaced by a note to replay the children. -/
def succeedUpdate (ctx : ExecutionContext) (name : Option String) (hashedId subType : String)
    (payload : Option String) : OperationUpdate :=
  if payload.any (·.utf8ByteSize > checkpointSizeLimitBytes) then
    { update ctx name hashedId subType .succeed with
      payload := some ""
      contextOptions := some ⟨some true⟩ }
  else { update ctx name hashedId subType .succeed with payload }

def failUpdate (ctx : ExecutionContext) (name : Option String) (hashedId subType : String)
    (error : DurableError) : OperationUpdate :=
  { update ctx name hashedId subType .fail with error := some (.fromDurableError error) }

theorem update_buildable (ctx : ExecutionContext) (name : Option String) (hashedId subType : String)
    (action : OperationAction) : (update ctx name hashedId subType action).Buildable :=
  OperationUpdate.build_of_plain rfl rfl rfl rfl

theorem failUpdate_buildable (ctx : ExecutionContext) (name : Option String)
    (hashedId subType : String) (error : DurableError) :
    (failUpdate ctx name hashedId subType error).Buildable :=
  OperationUpdate.build_of_plain rfl rfl rfl rfl

theorem succeedUpdate_buildable (ctx : ExecutionContext) (name : Option String)
    (hashedId subType : String) (payload : Option String) :
    (succeedUpdate ctx name hashedId subType payload).Buildable := by
  unfold succeedUpdate
  split <;> exact OperationUpdate.build_of_plain rfl rfl rfl rfl

/-- What `run_child_execution` does once the closure has returned. -/
def finishChild (ctx : ExecutionContext) (stepId hashedId : String) (name : Option String)
    (subType : String) (codec : Codec T) : DurableResult T → Act V (DurableResult T)
  | .ok result => do
    let payload ← safeSerialize codec (some result) (ctx.site hashedId name)
    (checkpoint stepId "child context completion"
      (succeedUpdate ctx name hashedId subType payload)).andThen fun _ => .ret (.ok result)
  | .error error =>
    (checkpoint stepId "child context FAIL"
      (failUpdate ctx name hashedId subType error)).andThen fun _ =>
        .ret (.error (.childContextFailed stepId error.display))

def runChildExecution (ctx : ExecutionContext) (stepId hashedId : String) (name : Option String)
    (contextFn : ExecutionContext → Act V (DurableResult T)) (subType : String)
    (codec : Codec T) : Act V (DurableResult T) := do
  let operation ← getStepData hashedId
  let started : Act V (DurableResult Unit) :=
    match operation with
    | none => checkpoint stepId "child context START" (update ctx name hashedId subType .start)
    | some _ => .ret (.ok ())
  started.andThen fun _ => do
    let child ← ctx.withParentId hashedId
    let outcome ← contextFn child
    finishChild ctx stepId hashedId name subType codec outcome

end Child

def ExecutionContext.runInChildContextWithIds (ctx : ExecutionContext) (stepId hashedId : String)
    (name : Option String) (contextFn : ExecutionContext → Act V (DurableResult T))
    (config : ChildContextConfig T) : Act V (DurableResult T) := do
  let operation ← getStepData hashedId
  (Child.evaluateReplay ctx operation config.codec hashedId stepId name).andThen fun
    | .return val => .ret (.ok val)
    | .replayChildren => do
      let child ← ctx.withParentId hashedId
      contextFn child
    | .continue =>
      Child.runChildExecution ctx stepId hashedId name contextFn config.subType config.codec

def ExecutionContext.runInChildContext (ctx : ExecutionContext) (name : Option String)
    (contextFn : ExecutionContext → Act V (DurableResult T)) (config : ChildContextConfig T) :
    Act V (DurableResult T) := do
  let stepId ← ctx.nextOperationId name
  ctx.runInChildContextWithIds stepId (ctx.hashId stepId) name contextFn config

/-- The closure of a child context: user code, given the context of the child. -/
def userContext (child : ExecutionContext) : Act V (DurableResult V) :=
  .act (.contextFn (child.currentParentId.getD "") child.operationCounter) fun outcome =>
    .ret outcome

end LambdaDurable
