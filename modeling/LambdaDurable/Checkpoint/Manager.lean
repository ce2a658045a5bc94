import LambdaDurable.Library.Transition
import LambdaDurable.Termination.Manager
import LambdaDurable.Checkpoint.Queue
import LambdaDurable.Checkpoint.Lifecycle

/-!
# The checkpoint manager as a machine

Any number of tasks call `checkpoint`, `checkpoint_queued`, `force_checkpoint`,
`wait_for_queue_completion` and `terminate`; `maybe_start_processing` spawns workers.
One step is one section under one lock, one atomic access, or one action of the
backend, so a run is an arbitrary interleaving. Every choice of the environment is
in the label. `log` records what the backend saw, newest first; no code reads it.
-/

namespace LambdaDurable.CheckpointManager

inductive CallKind
  | checkpoint | checkpointQueued
  deriving DecidableEq, Repr

/-- Where a call of `checkpoint` or `checkpoint_queued` is. -/
inductive CallerPhase
  -- before the `is_terminating` load
  | entered
  -- before `has_finished_ancestor`
  | notTerminating
  -- before `update_operation_lifecycle`
  | noFinishedAncestor
  -- before `push_back`
  | tracked
  -- between `push_back` and the end of `maybe_start_processing`
  | pushed
  -- in `notify.notified().await`
  | waiting
  -- returned `Ok(())`
  | returned
  -- in `std::future::pending().await`
  | blocked
  deriving DecidableEq, Repr

structure Caller where
  kind : CallKind
  stepId : String
  update : OperationUpdate
  phase : CallerPhase
  deriving DecidableEq, Repr

structure CheckpointResponse where
  checkpointToken : Option String := none
  newExecutionState : Option (List Operation) := none
  deriving DecidableEq, Repr

/-- Where a call of `process_batch` is. -/
inductive BatchCall
  -- before the token is read
  | start
  -- token read, request not yet sent
  | holding (token : String)
  -- request sent
  | inFlight (token : String) (updates : List OperationUpdate)
  -- accepted; the token is not yet written back
  | responded (response : CheckpointResponse)
  -- token written back; the returned operations are not yet merged
  | merging (newState : Option (List Operation))
  | finished (result : Except DurableError Unit)
  deriving DecidableEq

/-- What a worker does after a call of `terminate`: leave the loop, or go on with it. -/
inductive Resume
  | leave | loop
  deriving DecidableEq, Repr

/-- Where a spawned `process_queue` is. -/
inductive WorkerPhase
  -- about to build a batch
  | top
  | calling (batch : List QueuedCheckpoint) (call : BatchCall)
  -- notifying the waiters of the batch, `rest` still to go
  | notifying (rest : List QueuedCheckpoint) (failure : Option DurableError)
  -- about to notify and clear the queue behind a failed batch
  | draining (error : DurableError)
  | terminating (stage : TerminateStage) (result : TerminationResult) (resume : Resume)
  -- in `check_and_schedule_termination`, before the first look
  | checking
  -- in the cooldown before the second look
  | cooling
  -- out of the loop, `is_processing` still set
  | exiting
  -- `is_processing` reset, `notify_waiters` still to come
  | leaving
  | done
  deriving DecidableEq

/-- A call of `wait_for_queue_completion`. -/
inductive WaiterPhase
  -- the `Notified` future exists, the condition is not yet checked
  | created
  | waiting
  | returned
  deriving DecidableEq, Repr

structure Waiter where
  phase : WaiterPhase := .created
  woken : Bool := false
  deriving DecidableEq, Repr

structure Terminator where
  result : TerminationResult
  stage : TerminateStage := .waiting
  deriving DecidableEq, Repr

/-- Who is inside `process_batch`. -/
inductive Owner
  | worker (w : Nat)
  | force (n : Nat)
  deriving DecidableEq, Repr

inductive ServiceEvent
  | requested (owner : Owner) (batch : List QueuedCheckpoint) (token : String)
      (updates : List OperationUpdate)
  | accepted (owner : Owner) (batch : List QueuedCheckpoint) (token : String)
      (updates : List OperationUpdate) (response : CheckpointResponse)
  | rejected (owner : Owner) (batch : List QueuedCheckpoint) (error : DurableError)
  deriving DecidableEq

structure State where
  token : String
  stepData : Table
  queue : List QueuedCheckpoint := []
  isProcessing : Bool := false
  operations : Lifecycles := []
  termination : Termination := {}
  callers : Nat → Option Caller := fun _ => none
  /-- the permits stored in the `Notify` of each call -/
  notified : Nat → Bool := fun _ => false
  workers : Nat → Option WorkerPhase := fun _ => none
  forces : Nat → Option BatchCall := fun _ => none
  waiters : Nat → Option Waiter := fun _ => none
  terminators : Nat → Option Terminator := fun _ => none
  log : List ServiceEvent := []

/-- `CheckpointManager::new` -/
def State.new (token : String) (stepData : Table) : State := { token, stepData }

inductive Label
  | call (c : Nat) (kind : CallKind) (stepId : String) (update : OperationUpdate)
  | checkTerminating (c : Nat)
  | checkAncestor (c : Nat)
  | track (c : Nat)
  | push (c : Nat)
  | maybeStart (c w : Nat)
  | wake (c : Nat)
  | takeBatch (w : Nat)
  | force (n : Nat)
  | readToken (o : Owner)
  | send (o : Owner)
  | respond (o : Owner) (answer : Except DurableError CheckpointResponse)
  | writeToken (o : Owner)
  | merge (o : Owner)
  | finishBatch (w : Nat)
  | notify (w : Nat)
  | drain (w : Nat)
  | workerTerminate (w : Nat)
  | checkRetry (w : Nat)
  | recheckRetry (w : Nat)
  | release (w : Nat)
  | notifyWaiters (w : Nat)
  | startWait (q : Nat)
  | checkQueue (q : Nat)
  | wakeWaiter (q : Nat)
  | terminate (n : Nat) (result : TerminationResult)
  | advanceTerminate (n : Nat)
  | markAwaited (operationId : String)

namespace State

def setCaller (s : State) (c : Nat) (k : Caller) : State :=
  { s with callers := Function.update s.callers c (some k) }

def setWorker (s : State) (w : Nat) (p : WorkerPhase) : State :=
  { s with workers := Function.update s.workers w (some p) }

def setWaiter (s : State) (q : Nat) (k : Waiter) : State :=
  { s with waiters := Function.update s.waiters q (some k) }

/-- `queue_empty_notify.notify_waiters()` -/
def wakeWaiters (s : State) : State :=
  { s with waiters := fun q => (s.waiters q).map fun k : Waiter => { k with woken := true } }

def setForce (s : State) (n : Nat) (call : BatchCall) : State :=
  { s with forces := Function.update s.forces n (some call) }

def setTerminator (s : State) (n : Nat) (k : Terminator) : State :=
  { s with terminators := Function.update s.terminators n (some k) }

def pushBack (s : State) (checkpoint : QueuedCheckpoint) : State :=
  { s with queue := s.queue ++ [checkpoint] }

/-- The batch and the progress of a `process_batch` call; `force_checkpoint` sends `vec![]`. -/
def callOf (s : State) : Owner → Option (List QueuedCheckpoint × BatchCall)
  | .worker w =>
    match s.workers w with
    | some (.calling batch call) => some (batch, call)
    | _ => none
  | .force n => (s.forces n).map fun call => ([], call)

def setCall (s : State) (batch : List QueuedCheckpoint) (call : BatchCall) : Owner → State
  | .worker w => s.setWorker w (.calling batch call)
  | .force n => s.setForce n call

theorem eq_or_of_update {α : Type} {f : Nat → Option α} {w v : Nat} {p p' : α}
    (h : Function.update f w (some p') v = some p) : f v = some p ∨ p' = p := by
  rw [Function.update_apply] at h
  split at h
  · exact Or.inr (Option.some.inj h)
  · exact Or.inl h

theorem setCall_callers (s : State) (batch : List QueuedCheckpoint) (call : BatchCall) (o : Owner) :
    (s.setCall batch call o).callers = s.callers := by
  cases o <;> rfl

theorem setCall_log (s : State) (batch : List QueuedCheckpoint) (call : BatchCall) (o : Owner) :
    (s.setCall batch call o).log = s.log := by
  cases o <;> rfl

theorem setCall_token (s : State) (batch : List QueuedCheckpoint) (call : BatchCall) (o : Owner) :
    (s.setCall batch call o).token = s.token := by
  cases o <;> rfl

theorem callOf_worker {s : State} {w : Nat} {batch : List QueuedCheckpoint} {call : BatchCall} :
    s.callOf (.worker w) = some (batch, call) ↔ s.workers w = some (.calling batch call) := by
  unfold callOf
  dsimp only
  split <;> simp_all

theorem callOf_force {s : State} {n : Nat} {batch : List QueuedCheckpoint} {call : BatchCall} :
    s.callOf (.force n) = some (batch, call) ↔ batch = [] ∧ s.forces n = some call := by
  simp only [callOf, Option.map_eq_some_iff, Prod.mk.injEq]
  constructor
  · rintro ⟨_, hn, rfl, rfl⟩
    exact ⟨rfl, hn⟩
  · rintro ⟨rfl, hn⟩
    exact ⟨call, hn, rfl, rfl⟩

end State

open State

/-- The phase of a call once `maybe_start_processing` is over. -/
def CallKind.afterStart : CallKind → CallerPhase
  | .checkpoint => .waiting
  | .checkpointQueued => .returned

def Resume.phase : Resume → WorkerPhase
  | .leave => .exiting
  | .loop => .top

def callerStep (s : State) (c : Nat) (k : Caller) : Label → Option State
  | .checkTerminating _ =>
    if k.phase = .entered then
      some (s.setCaller c { k with
        phase := if s.termination.isTerminating then .blocked else .notTerminating })
    else none
  | .checkAncestor _ =>
    if k.phase = .notTerminating then
      some (s.setCaller c { k with
        phase := if hasFinishedAncestor s.stepData k.update then .blocked else .noFinishedAncestor })
    else none
  | .track _ =>
    if k.phase = .noFinishedAncestor then
      some ({ s with operations := updateOperationLifecycle s.operations k.update }.setCaller c
        { k with phase := .tracked })
    else none
  | .push _ =>
    if k.phase = .tracked then
      some ((s.pushBack ⟨k.stepId, k.update, c⟩).setCaller c { k with phase := .pushed })
    else none
  | .maybeStart _ w =>
    if k.phase = .pushed then
      if s.isProcessing then some (s.setCaller c { k with phase := k.kind.afterStart })
      else if s.workers w = none then
        some (({ s with isProcessing := true }.setWorker w .top).setCaller c
          { k with phase := k.kind.afterStart })
      else none
    else none
  | .wake _ =>
    if k.phase = .waiting ∧ s.notified c then some (s.setCaller c { k with phase := .returned })
    else none
  | _ => none

/-- One step of `process_batch`. -/
def batchStep (s : State) (o : Owner) (batch : List QueuedCheckpoint) :
    BatchCall → Label → Option State
  | .start, .readToken _ => some (s.setCall batch (.holding s.token) o)
  | .holding token, .send _ =>
    match coalesceUpdates (batch.map (·.update)) with
    | .error e => some ({ s with log := .rejected o batch e :: s.log }.setCall batch
        (.finished (.error e)) o)
    | .ok updates => some ({ s with log := .requested o batch token updates :: s.log }.setCall batch
        (.inFlight token updates) o)
  | .inFlight token updates, .respond _ answer =>
    match answer with
    | .error e => some ({ s with log := .rejected o batch e :: s.log }.setCall batch
        (.finished (.error e)) o)
    | .ok response => some ({ s with log := .accepted o batch token updates response :: s.log }.setCall
        batch (.responded response) o)
  | .responded response, .writeToken _ =>
    some ({ s with token := response.checkpointToken.getD s.token }.setCall batch
      (.merging response.newExecutionState) o)
  | .merging newState, .merge _ =>
    some ({ s with stepData := s.stepData.insertAll (newState.getD []) }.setCall batch
      (.finished (.ok ())) o)
  | _, _ => none

def workerStep (s : State) (w : Nat) : WorkerPhase → Label → Option State
  | .top, .takeBatch _ =>
    if s.queue = [] then some (s.setWorker w .exiting)
    else if (buildBatch s.queue).1 = [] then
      some ({ s with queue := (buildBatch s.queue).2 }.setWorker w .exiting)
    else some ({ s with queue := (buildBatch s.queue).2 }.setWorker w
      (.calling (buildBatch s.queue).1 .start))
  | .calling batch (.finished result), .finishBatch _ =>
    match result with
    | .ok () => some (s.setWorker w (.notifying batch none))
    | .error e => some (s.setWorker w (.notifying batch (some e)))
  | .notifying (c :: rest) failure, .notify _ =>
    some ({ s with notified := Function.update s.notified c.notify true }.setWorker w
      (.notifying rest failure))
  | .notifying [] failure, .notify _ =>
    match failure with
    | none => some (s.setWorker w .checking)
    | some e => some (s.setWorker w (.draining e))
  | .draining e, .drain _ =>
    some ({ s with
        queue := []
        notified := fun c => s.notified c || s.queue.any (·.notify == c) }.setWorker w
      (.terminating .waiting (.withError .checkpointFailed e) .leave))
  | .terminating stage result resume, .workerTerminate _ =>
    match s.termination.advance result stage with
    | none => none
    | some (t, .returned) => some ({ s with termination := t }.setWorker w resume.phase)
    | some (t, stage') =>
      some ({ s with termination := t }.setWorker w (.terminating stage' result resume))
  | .checking, .checkRetry _ =>
    some (s.setWorker w (if anyRetryWaiting s.operations then .cooling else .top))
  | .cooling, .recheckRetry _ =>
    some (s.setWorker w (if anyRetryWaiting s.operations then
      .terminating .waiting (.new .retryScheduled) .loop else .top))
  | .exiting, .release _ => some ({ s with isProcessing := false }.setWorker w .leaving)
  | .leaving, .notifyWaiters _ => some (s.wakeWaiters.setWorker w .done)
  | _, _ => none

def waiterStep (s : State) (q : Nat) (k : Waiter) : Label → Option State
  | .checkQueue _ =>
    if k.phase = .created then
      some (s.setWaiter q { k with
        phase := if s.queue = [] ∧ s.isProcessing = false then .returned else .waiting })
    else none
  | .wakeWaiter _ => if k.phase = .waiting ∧ k.woken then some (s.setWaiter q {}) else none
  | _ => none

def terminatorStep (s : State) (n : Nat) (k : Terminator) : Option State :=
  match s.termination.advance k.result k.stage with
  | none => none
  | some (t, stage) => some ({ s with termination := t }.setTerminator n ⟨k.result, stage⟩)

def step (s : State) (l : Label) : Option State :=
  match l with
  | .call c kind stepId update =>
    if s.callers c = none then some (s.setCaller c ⟨kind, stepId, update, .entered⟩) else none
  | .checkTerminating c | .checkAncestor c | .track c | .push c | .maybeStart c _ | .wake c =>
    (s.callers c).bind fun k => callerStep s c k l
  | .force n =>
    if s.forces n = none then some (s.setForce n .start) else none
  | .readToken o | .send o | .respond o _ | .writeToken o | .merge o =>
    (s.callOf o).bind fun (batch, call) => batchStep s o batch call l
  | .takeBatch w | .finishBatch w | .notify w | .drain w | .workerTerminate w | .checkRetry w
  | .recheckRetry w | .release w | .notifyWaiters w =>
    (s.workers w).bind fun p => workerStep s w p l
  | .startWait q => if s.waiters q = none then some (s.setWaiter q {}) else none
  | .checkQueue q | .wakeWaiter q => (s.waiters q).bind fun k => waiterStep s q k l
  | .terminate n result =>
    if s.terminators n = none then
      some (s.setTerminator n { result })
    else none
  | .advanceTerminate n => (s.terminators n).bind fun k => terminatorStep s n k
  | .markAwaited operationId => some { s with operations := markAwaited s.operations operationId }

/-- One invocation's checkpoint manager, from `ExecutionContext::new` on. -/
def machine (token : String) (stepData : Table) : Transition.Machine State Label where
  init s := s = State.new token stepData
  step := step

end LambdaDurable.CheckpointManager
