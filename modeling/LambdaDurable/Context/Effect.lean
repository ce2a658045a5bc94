import LambdaDurable.Library.Program
import LambdaDurable.Termination.Manager
import LambdaDurable.Types.Operation
import LambdaDurable.Types.Retry
import LambdaDurable.Types.Serdes

/-!
# What an operation asks of its surroundings

The operations of a context are programs over these effects: accesses to the shared
state of the invocation, calls of the checkpoint and termination managers, and calls
of user code, which answers as it likes.
-/

namespace LambdaDurable

open Effects

inductive ExecutionMode
  | execution | replay
  deriving DecidableEq, Repr

inductive WaitConditionDecision
  | continue (delay : Duration)
  | stop
  deriving DecidableEq, Repr

/-- Passage of a handler through the call at a position, noted by no code. -/
inductive Mark (V : Type)
  | enter (position : List Nat)
  | exit (position : List Nat) (result : Except DurableError (Option V))

inductive Effect (V : Type)
  -- `Arc::new(AtomicU64::new(0))`, and `fetch_add` on such a counter
  | newCounter
  | fetchAdd (counter : Nat)
  | getStepData (hashedId : String)
  | getMode
  | setMode (mode : ExecutionMode)
  | checkpoint (stepId : String) (update : OperationUpdate)
  | checkpointQueued (stepId : String) (update : OperationUpdate)
  | forceCheckpoint
  | markAwaited (hashedId : String)
  | terminate (result : TerminationResult)
  -- `std::future::pending().await`
  | pending
  -- `unreachable!`
  | panic (message : String)
  -- user code
  | stepFn (hashedId : String) (attempt : Nat)
  | submitter (callbackId : String) (attempt : Nat)
  | shouldRetry (error : BoxError) (attemptsMade : Nat)
  | checkFn (state : V) (hashedId : String)
  | waitStrategy (state : V) (attempt : Nat)
  | contextFn (hashedId : String) (counter : Nat)
  -- a `JoinSet` of child contexts; `joinNext` is asked only while the set is not empty
  | spawn (index : Nat) (childStepId childHashedId itemName : String)
  | joinNext
  | abortAll
  | mark (m : Mark V)

@[reducible] def Answer {V : Type} : Effect V → Type
  | .newCounter | .fetchAdd _ => Nat
  | .getStepData _ => Option Operation
  | .getMode => ExecutionMode
  | .checkpoint _ _ | .checkpointQueued _ _ | .forceCheckpoint => Except DurableError Unit
  | .pending | .panic _ => Empty
  | .stepFn _ _ => Except BoxError V
  | .submitter _ _ => Except BoxError Unit
  | .shouldRetry _ _ => RetryDecision
  | .checkFn _ _ | .contextFn _ _ => Except DurableError V
  | .waitStrategy _ _ => WaitConditionDecision
  -- a panic of the task, or its index and result
  | .joinNext => Except String (Nat × Except DurableError V)
  | .setMode _ | .markAwaited _ | .terminate _ | .spawn _ _ _ _ | .abortAll | .mark _ => Unit

/-- A program over the effects. -/
abbrev Act (V : Type) : Type → Type := Prog (Effect V) Answer

abbrev DurableResult (T : Type) : Type := Except DurableError T

/-- The part of an `ExecutionContext` an operation reads. `hashId` is `hash_id`, a
truncated SHA-256; `operationCounter` names the shared counter. -/
structure ExecutionContext where
  durableExecutionArn : String
  currentParentId : Option String := none
  operationCounter : Nat := 0
  hashId : String → String

namespace ExecutionContext

variable {V : Type} (ctx : ExecutionContext)

def operationId (name : Option String) (counter : Nat) : String :=
  let base := match name with
    | some n => s!"{n}_{counter}"
    | none => s!"op_{counter}"
  match ctx.currentParentId with
  | some pre => s!"{pre}:{base}"
  | none => base

def nextOperationId (name : Option String) : Act V String :=
  .act (.fetchAdd ctx.operationCounter) fun counter => .ret (ctx.operationId name counter)

def withParentId (parentId : String) : Act V ExecutionContext :=
  .act .newCounter fun counter =>
    .ret { ctx with currentParentId := some parentId, operationCounter := counter }

end ExecutionContext

variable {V T : Type}

def getStepData (hashedId : String) : Act V (Option Operation) :=
  .act (.getStepData hashedId) fun operation => .ret operation

def getMode : Act V ExecutionMode := .act .getMode fun mode => .ret mode

def setMode (mode : ExecutionMode) : Act V Unit := .act (.setMode mode) fun _ => .ret ()

/-- `terminate(..)` followed by `pending().await`. -/
def suspend (result : TerminationResult) : Act V T :=
  .act (.terminate result) fun _ => .act .pending Empty.elim

/-- `builder.build()` with the error every caller makes of its failure. -/
def buildUpdate (what : String) (update : OperationUpdate) : Except DurableError OperationUpdate :=
  match update.build with
  | .ok u => .ok u
  | .error e => .error (.internal s!"Failed to build {what} update: {e}")

/-- `checkpoint(step_id, builder.build()?).await?` -/
def checkpoint (stepId what : String) (update : OperationUpdate) : Act V (DurableResult Unit) :=
  match buildUpdate what update with
  | .ok u => .act (.checkpoint stepId u) fun r => .ret r
  | .error e => .ret (.error e)

/-- `checkpoint_queued(step_id, builder.build()?).await?` -/
def checkpointQueued (stepId what : String) (update : OperationUpdate) : Act V (DurableResult Unit) :=
  match buildUpdate what update with
  | .ok u => .act (.checkpointQueued stepId u) fun r => .ret r
  | .error e => .ret (.error e)

section

variable {T' : Type}

@[simp] theorem getStepData_bind (hashedId : String) (f : Option Operation → Act V T) :
    (getStepData hashedId >>= f) = .act (.getStepData hashedId) f := rfl

@[simp] theorem getMode_bind (f : ExecutionMode → Act V T) :
    (getMode >>= f) = .act .getMode f := rfl

@[simp] theorem setMode_bind (mode : ExecutionMode) (f : Unit → Act V T) :
    (setMode mode >>= f) = .act (.setMode mode) f := rfl

@[simp] theorem nextOperationId_bind (ctx : ExecutionContext) (name : Option String)
    (f : String → Act V T) :
    (ctx.nextOperationId name >>= f) =
      .act (.fetchAdd ctx.operationCounter) fun counter => f (ctx.operationId name counter) := rfl

@[simp] theorem withParentId_bind (ctx : ExecutionContext) (parentId : String)
    (f : ExecutionContext → Act V T) :
    (ctx.withParentId parentId >>= f) = .act .newCounter fun counter =>
      f { ctx with currentParentId := some parentId, operationCounter := counter } := rfl

/-- Nothing follows a suspension. -/
@[simp] theorem suspend_bind (result : TerminationResult) (f : T → Act V T') :
    (suspend result >>= f) = suspend result := by
  have hnever : ∀ k : Answer (Effect.pending : Effect V) → Act V T',
      Prog.act Effect.pending k = Prog.act Effect.pending Empty.elim := fun k =>
    congrArg (Prog.act Effect.pending) (funext fun a : Empty => a.elim)
  exact congrArg (Prog.act (Effect.terminate result)) (funext fun _ => hnever _)

@[simp] theorem suspend_andThen (result : TerminationResult) (f : T → Act V (DurableResult T')) :
    (suspend result : Act V (DurableResult T)).andThen f = suspend result :=
  suspend_bind result _

end

theorem checkpoint_of_build {u : OperationUpdate} (h : u.Buildable) (stepId what : String) :
    (checkpoint stepId what u : Act V (DurableResult Unit)) =
      .act (.checkpoint stepId u) fun r => .ret r := by
  simp only [checkpoint, buildUpdate, show u.build = .ok u from h]

theorem checkpointQueued_of_build {u : OperationUpdate} (h : u.Buildable)
    (stepId what : String) :
    (checkpointQueued stepId what u : Act V (DurableResult Unit)) =
      .act (.checkpointQueued stepId u) fun r => .ret r := by
  simp only [checkpointQueued, buildUpdate, show u.build = .ok u from h]

theorem checkpoint_cases (stepId what : String) (u : OperationUpdate) :
    (checkpoint stepId what u : Act V _) = .act (.checkpoint stepId u) (fun r => .ret r) ∨
      ∃ e, (checkpoint stepId what u : Act V _) = .ret (.error e) := by
  unfold checkpoint buildUpdate
  cases hbuild : u.build with
  | ok v =>
    obtain rfl := OperationUpdate.build_eq_ok hbuild
    exact Or.inl rfl
  | error e => exact Or.inr ⟨_, rfl⟩

theorem checkpointQueued_cases (stepId what : String) (u : OperationUpdate) :
    (checkpointQueued stepId what u : Act V _) =
        .act (.checkpointQueued stepId u) (fun r => .ret r) ∨
      ∃ e, (checkpointQueued stepId what u : Act V _) = .ret (.error e) := by
  unfold checkpointQueued buildUpdate
  cases hbuild : u.build with
  | ok v =>
    obtain rfl := OperationUpdate.build_eq_ok hbuild
    exact Or.inl rfl
  | error e => exact Or.inr ⟨_, rfl⟩

/-- `parent_id` and `name` of an update, set where there are any. -/
def ExecutionContext.update (ctx : ExecutionContext) (name : Option String) (hashedId : String)
    (operationType : OperationType) (subType : String) (action : OperationAction) :
    OperationUpdate :=
  { id := hashedId, parentId := ctx.currentParentId, name, operationType, subType := some subType,
    action }

end LambdaDurable
