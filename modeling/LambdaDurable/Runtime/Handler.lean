import LambdaDurable.Checkpoint.Manager

/-!
# `execute_durable_handler`

The handler is whatever its tasks do with the checkpoint manager: any manager steps, in
any order, and at some moment a result. The runtime races the handler against the
termination signal, waits for the queue, and computes the output.
-/

namespace LambdaDurable

inductive InvocationStatus
  | succeeded | failed | pending
  deriving DecidableEq, Repr

structure DurableExecutionInvocationOutput where
  status : InvocationStatus
  result : Option String := none
  error : Option ErrorObject := none
  deriving DecidableEq, Repr

namespace DurableExecutionInvocationOutput

def succeeded (result : Option String) : DurableExecutionInvocationOutput :=
  { status := .succeeded, result }

def failed (error : ErrorObject) : DurableExecutionInvocationOutput :=
  { status := .failed, error := some error }

def pending : DurableExecutionInvocationOutput := { status := .pending }

end DurableExecutionInvocationOutput

namespace Runtime

open CheckpointManager (Owner)

def lambdaResponseSizeLimit : Nat := 6 * 1024 * 1024 - 50

/-- What an invocation starts from: the context, with the execution operation found in its
table, and the JSON codecs of the handler's event and response. -/
structure Config (ε ρ : Type) where
  token : String
  stepData : Table
  context : Except DurableError (Option Operation)
  deserialize : String → Except String ε
  serialize : ρ → Except String String

/-- The event handed to the handler, or the error returned before the handler exists. -/
def Config.event {ε ρ : Type} (cfg : Config ε ρ) : Except String ε :=
  match cfg.context with
  | .error e => .error s!"Failed to initialize context: {e.display}"
  | .ok none => .error "Missing execution operation in initial execution state"
  | .ok (some op) =>
    match op.executionDetails.bind (·.inputPayload) with
    | none => .error "Missing input payload in execution operation"
    | some payload =>
      match cfg.deserialize payload with
      | .error e => .error s!"Failed to deserialize input: {e}"
      | .ok event => .ok event

/-- The branch `select!` took. -/
inductive Selected (ρ : Type)
  | handler (result : Except DurableError ρ)
  | terminated (result : TerminationResult)

/-- Where the invocation is. A large result remembers the call that carries its payload. -/
inductive Phase (ρ : Type)
  | running
  | waiting (selected : Selected ρ) (q : Nat)
  | large (payload : String) (c : Nat)
  | draining (payload : String) (c q : Nat)
  | returned (output : Except String DurableExecutionInvocationOutput) (large : Option (Nat × String))

structure State (ρ : Type) where
  manager : CheckpointManager.State
  phase : Phase ρ

/-- The output of an invocation that was terminated. -/
def terminationOutput (t : TerminationResult) : Except String DurableExecutionInvocationOutput :=
  match t.reason with
  | .checkpointFailed => .error (t.message.getD "Checkpoint failed")
  | .serdesFailed => .error (t.message.getD "Serdes operation failed")
  | .contextValidationError =>
    let message := match t.error with
      | some (.contextValidationError message) => message
      | some e => e.display
      | none => t.message.getD "Context validation error"
    .ok (.failed (.fromDurableError (.contextValidationError message)))
  | _ => .ok .pending

/-- The update that carries a result too large to return. -/
def largeResultUpdate (hashedId payload : String) : OperationUpdate :=
  { id := hashedId, operationType := .execution, action := .succeed, payload := some payload }

inductive Label (ρ : Type)
  -- a step of the handler's tasks, of a worker, or of the runtime's own calls of the manager
  | manager (l : CheckpointManager.Label)
  | handlerReturns (result : Except DurableError ρ) (q : Nat)
  | selectTermination (q : Nat)
  -- the queue is empty: compute the output, or send a large result under a fresh ID
  | queueDone (c : Nat) (stepId hashedId : String)
  | checkpointDone (q : Nat)
  | drained

namespace State

variable {ρ : Type}

/-- One manager step, after which the invocation is in the given phase. -/
def enter (s : State ρ) (l : CheckpointManager.Label) (phase : Phase ρ) : Option (State ρ) :=
  (CheckpointManager.step s.manager l).map fun manager => { manager, phase }

def queueEmptied (s : State ρ) (q : Nat) : Bool :=
  (s.manager.waiters q).any fun k => k.phase = .returned

end State

variable {ε ρ : Type}

def finish (cfg : Config ε ρ) (s : State ρ) (c : Nat) (stepId hashedId : String) :
    Selected ρ → Option (State ρ)
  | .handler (.ok response) =>
    match cfg.serialize response with
    | .error e => some { s with phase := .returned (.error s!"Failed to serialize output: {e}") none }
    | .ok payload =>
      if payload.utf8ByteSize > lambdaResponseSizeLimit then
        match (largeResultUpdate hashedId payload).build with
        | .error e =>
          some { s with phase := .returned (.error s!"Failed to build large-result update: {e}") none }
        | .ok update => s.enter (.call c .checkpoint stepId update) (.large payload c)
      else some { s with phase := .returned (.ok (.succeeded (some payload))) none }
  | .handler (.error e) =>
    some { s with phase := .returned (.ok (.failed (.fromDurableError e))) none }
  | .terminated t => some { s with phase := .returned (terminationOutput t) none }

def step (cfg : Config ε ρ) (s : State ρ) : Label ρ → Option (State ρ)
  | .manager l =>
    match s.phase with
    | .returned _ _ => none
    | phase => s.enter l phase
  | .handlerReturns result q =>
    match s.phase with
    | .running => s.enter (.startWait q) (.waiting (.handler result) q)
    | _ => none
  | .selectTermination q =>
    match s.phase, s.manager.termination.published with
    | .running, some t => s.enter (.startWait q) (.waiting (.terminated t) q)
    | _, _ => none
  | .queueDone c stepId hashedId =>
    match s.phase with
    | .waiting selected q => if s.queueEmptied q then finish cfg s c stepId hashedId selected else none
    | _ => none
  | .checkpointDone q =>
    match s.phase with
    -- `checkpoint` has no error to propagate
    | .large payload c =>
      if (s.manager.callers c).any (·.phase = .returned) then
        s.enter (.startWait q) (.draining payload c q)
      else none
    | _ => none
  | .drained =>
    match s.phase with
    | .draining payload c q =>
      if s.queueEmptied q then
        some { s with phase := .returned (.ok (.succeeded (some ""))) (some (c, payload)) }
      else none
    | _ => none

/-- One invocation. -/
def machine (cfg : Config ε ρ) : Transition.Machine (State ρ) (Label ρ) where
  init s := s.manager = .new cfg.token cfg.stepData ∧
    s.phase = match cfg.event with
      | .error message => .returned (.error message) none
      | .ok _ => .running
  step := step cfg

end Runtime

end LambdaDurable
