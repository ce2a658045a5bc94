import LambdaDurable.Checkpoint.Manager

/-! # What one step of the checkpoint manager can do, guards included -/

namespace LambdaDurable.CheckpointManager

open State

inductive Move (s : State) : Label → State → Prop
  | call {c : Nat} {kind : CallKind} {stepId : String} {update : OperationUpdate} :
      s.callers c = none →
      Move s (.call c kind stepId update) (s.setCaller c ⟨kind, stepId, update, .entered⟩)
  | checkTerminating {c : Nat} {k : Caller} : s.callers c = some k → k.phase = .entered →
      Move s (.checkTerminating c) (s.setCaller c { k with
        phase := if s.termination.isTerminating then .blocked else .notTerminating })
  | checkAncestor {c : Nat} {k : Caller} : s.callers c = some k → k.phase = .notTerminating →
      Move s (.checkAncestor c) (s.setCaller c { k with
        phase := if hasFinishedAncestor s.stepData k.update then .blocked else .noFinishedAncestor })
  | track {c : Nat} {k : Caller} : s.callers c = some k → k.phase = .noFinishedAncestor →
      Move s (.track c)
        ({ s with operations := updateOperationLifecycle s.operations k.update }.setCaller c
          { k with phase := .tracked })
  | push {c : Nat} {k : Caller} : s.callers c = some k → k.phase = .tracked →
      Move s (.push c) ((s.pushBack ⟨k.stepId, k.update, c⟩).setCaller c { k with phase := .pushed })
  | startBusy {c w : Nat} {k : Caller} : s.callers c = some k → k.phase = .pushed →
      s.isProcessing = true →
      Move s (.maybeStart c w) (s.setCaller c { k with phase := k.kind.afterStart })
  | startWorker {c w : Nat} {k : Caller} : s.callers c = some k → k.phase = .pushed →
      s.isProcessing = false → s.workers w = none →
      Move s (.maybeStart c w) (({ s with isProcessing := true }.setWorker w .top).setCaller c
        { k with phase := k.kind.afterStart })
  | wake {c : Nat} {k : Caller} : s.callers c = some k → k.phase = .waiting → s.notified c = true →
      Move s (.wake c) (s.setCaller c { k with phase := .returned })
  | quit {w : Nat} : s.workers w = some .top → s.queue = [] →
      Move s (.takeBatch w) (s.setWorker w .exiting)
  | take {w : Nat} : s.workers w = some .top → s.queue ≠ [] →
      Move s (.takeBatch w) ({ s with queue := (buildBatch s.queue).2 }.setWorker w
        (.calling (buildBatch s.queue).1 .start))
  | force {n : Nat} : s.forces n = none → Move s (.force n) (s.setForce n .start)
  | readToken {o : Owner} {batch : List QueuedCheckpoint} : s.callOf o = some (batch, .start) →
      Move s (.readToken o) (s.setCall batch (.holding s.token) o)
  | reject {o : Owner} {batch : List QueuedCheckpoint} {token : String} {e : DurableError} :
      s.callOf o = some (batch, .holding token) → coalesceUpdates (batch.map (·.update)) = .error e →
      Move s (.send o)
        ({ s with log := .rejected o batch e :: s.log }.setCall batch (.finished (.error e)) o)
  | send {o : Owner} {batch : List QueuedCheckpoint} {token : String} {updates : List OperationUpdate} :
      s.callOf o = some (batch, .holding token) → coalesceUpdates (batch.map (·.update)) = .ok updates →
      Move s (.send o) ({ s with log := .requested o batch token updates :: s.log }.setCall batch
        (.inFlight token updates) o)
  | fail {o : Owner} {batch : List QueuedCheckpoint} {token : String} {updates : List OperationUpdate}
      {e : DurableError} : s.callOf o = some (batch, .inFlight token updates) →
      Move s (.respond o (.error e))
        ({ s with log := .rejected o batch e :: s.log }.setCall batch (.finished (.error e)) o)
  | accept {o : Owner} {batch : List QueuedCheckpoint} {token : String}
      {updates : List OperationUpdate} {response : CheckpointResponse} :
      s.callOf o = some (batch, .inFlight token updates) →
      Move s (.respond o (.ok response))
        ({ s with log := .accepted o batch token updates response :: s.log }.setCall batch
          (.responded response) o)
  | writeToken {o : Owner} {batch : List QueuedCheckpoint} {response : CheckpointResponse} :
      s.callOf o = some (batch, .responded response) →
      Move s (.writeToken o) ({ s with token := response.checkpointToken.getD s.token }.setCall batch
        (.merging response.newExecutionState) o)
  | merge {o : Owner} {batch : List QueuedCheckpoint} {newState : Option (List Operation)} :
      s.callOf o = some (batch, .merging newState) →
      Move s (.merge o) ({ s with stepData := s.stepData.insertAll (newState.getD []) }.setCall batch
        (.finished (.ok ())) o)
  | finishOk {w : Nat} {batch : List QueuedCheckpoint} :
      s.workers w = some (.calling batch (.finished (.ok ()))) →
      Move s (.finishBatch w) (s.setWorker w (.notifying batch none))
  | finishError {w : Nat} {batch : List QueuedCheckpoint} {e : DurableError} :
      s.workers w = some (.calling batch (.finished (.error e))) →
      Move s (.finishBatch w) (s.setWorker w (.notifying batch (some e)))
  | notify {w : Nat} {c : QueuedCheckpoint} {rest : List QueuedCheckpoint}
      {failure : Option DurableError} : s.workers w = some (.notifying (c :: rest) failure) →
      Move s (.notify w) ({ s with notified := Function.update s.notified c.notify true }.setWorker w
        (.notifying rest failure))
  | notifiedOk {w : Nat} : s.workers w = some (.notifying [] none) →
      Move s (.notify w) (s.setWorker w .checking)
  | notifiedError {w : Nat} {e : DurableError} : s.workers w = some (.notifying [] (some e)) →
      Move s (.notify w) (s.setWorker w (.draining e))
  | drain {w : Nat} {e : DurableError} : s.workers w = some (.draining e) →
      Move s (.drain w) ({ s with
          queue := []
          notified := fun c => s.notified c || s.queue.any (·.notify == c) }.setWorker w
        (.terminating .waiting (.withError .checkpointFailed e) .leave))
  | workerTerminate {w : Nat} {stage stage' : TerminateStage} {result : TerminationResult}
      {resume : Resume} {t : Termination} :
      s.workers w = some (.terminating stage result resume) →
      s.termination.advance result stage = some (t, stage') →
      Move s (.workerTerminate w) ({ s with termination := t }.setWorker w
        (if stage' = TerminateStage.returned then resume.phase else .terminating stage' result resume))
  | checkRetry {w : Nat} : s.workers w = some .checking →
      Move s (.checkRetry w) (s.setWorker w (if anyRetryWaiting s.operations then .cooling else .top))
  | recheckRetry {w : Nat} : s.workers w = some .cooling →
      Move s (.recheckRetry w) (s.setWorker w (if anyRetryWaiting s.operations then
        .terminating .waiting (.new .retryScheduled) .loop else .top))
  | release {w : Nat} : s.workers w = some .exiting →
      Move s (.release w) ({ s with isProcessing := false }.setWorker w .leaving)
  | notifyWaiters {w : Nat} : s.workers w = some .leaving →
      Move s (.notifyWaiters w) (s.wakeWaiters.setWorker w .done)
  | startWait {q : Nat} : s.waiters q = none → Move s (.startWait q) (s.setWaiter q {})
  | checkQueue {q : Nat} {k : Waiter} : s.waiters q = some k → k.phase = .created →
      Move s (.checkQueue q) (s.setWaiter q { k with
        phase := if s.queue = [] ∧ s.isProcessing = false then .returned else .waiting })
  | wakeWaiter {q : Nat} {k : Waiter} : s.waiters q = some k → k.phase = .waiting → k.woken = true →
      Move s (.wakeWaiter q) (s.setWaiter q {})
  | terminate {n : Nat} {result : TerminationResult} : s.terminators n = none →
      Move s (.terminate n result) (s.setTerminator n { result })
  | advanceTerminate {n : Nat} {k : Terminator} {t : Termination} {stage : TerminateStage} :
      s.terminators n = some k → s.termination.advance k.result k.stage = some (t, stage) →
      Move s (.advanceTerminate n) ({ s with termination := t }.setTerminator n ⟨k.result, stage⟩)
  | markAwaited {operationId : String} :
      Move s (.markAwaited operationId) { s with operations := markAwaited s.operations operationId }

theorem setCall_queue (s : State) (batch : List QueuedCheckpoint) (call : BatchCall) (o : Owner) :
    (s.setCall batch call o).queue = s.queue := by
  cases o <;> rfl

theorem callerStep_move {s s' : State} {c : Nat} {k : Caller} {l : Label} (hk : s.callers c = some k)
    (hl : l = .checkTerminating c ∨ l = .checkAncestor c ∨ l = .track c ∨ l = .push c ∨
      (∃ w, l = .maybeStart c w) ∨ l = .wake c) (h : callerStep s c k l = some s') : Move s l s' := by
  rcases hl with rfl | rfl | rfl | rfl | ⟨w, rfl⟩ | rfl <;>
    simp only [callerStep, Option.ite_none_right_eq_some, Option.some.injEq] at h
  · obtain ⟨hp, rfl⟩ := h
    exact .checkTerminating hk hp
  · obtain ⟨hp, rfl⟩ := h
    exact .checkAncestor hk hp
  · obtain ⟨hp, rfl⟩ := h
    exact .track hk hp
  · obtain ⟨hp, rfl⟩ := h
    exact .push hk hp
  · obtain ⟨hp, h⟩ := h
    split at h
    · rename_i hbusy
      obtain rfl := Option.some.inj h
      exact .startBusy hk hp hbusy
    · rename_i hbusy
      simp only [Option.ite_none_right_eq_some, Option.some.injEq] at h
      obtain ⟨hw, rfl⟩ := h
      exact .startWorker hk hp (by simpa using hbusy) hw
  · obtain ⟨⟨hp, hn⟩, rfl⟩ := h
    exact .wake hk hp hn

theorem batchStep_move {s s' : State} {o : Owner} {batch : List QueuedCheckpoint} {call : BatchCall}
    {l : Label} (hcall : s.callOf o = some (batch, call))
    (hl : l = .readToken o ∨ l = .send o ∨ (∃ a, l = .respond o a) ∨ l = .writeToken o ∨ l = .merge o)
    (h : batchStep s o batch call l = some s') : Move s l s' := by
  rcases hl with rfl | rfl | ⟨answer, rfl⟩ | rfl | rfl <;> cases call <;>
    simp only [batchStep, Option.some.injEq, reduceCtorEq] at h
  · subst h
    exact .readToken hcall
  · split at h
    · rename_i he
      obtain rfl := Option.some.inj h
      exact .reject hcall he
    · rename_i hok
      obtain rfl := Option.some.inj h
      exact .send hcall hok
  · cases answer with
    | error e =>
        obtain rfl := Option.some.inj h
        exact .fail hcall
    | ok response =>
        obtain rfl := Option.some.inj h
        exact .accept hcall
  · subst h
    exact .writeToken hcall
  · subst h
    exact .merge hcall

theorem workerStep_move {s s' : State} {w : Nat} {p : WorkerPhase} {l : Label}
    (hw : s.workers w = some p)
    (hl : l = .takeBatch w ∨ l = .finishBatch w ∨ l = .notify w ∨ l = .drain w ∨
      l = .workerTerminate w ∨ l = .checkRetry w ∨ l = .recheckRetry w ∨ l = .release w ∨
      l = .notifyWaiters w) (h : workerStep s w p l = some s') : Move s l s' := by
  obtain rfl | rfl | rfl | rfl | rfl | rfl | rfl | rfl | rfl := hl
  · cases p <;> simp only [workerStep, reduceCtorEq] at h
    split at h
    · rename_i hempty
      obtain rfl := Option.some.inj h
      exact .quit hw hempty
    · rename_i hne
      rw [if_neg (buildBatch_ne_nil hne)] at h
      obtain rfl := Option.some.inj h
      exact .take hw hne
  · rcases p with _ | ⟨batch, _ | _ | _ | _ | _ | (e | u)⟩ | _ | _ | _ | _ | _ | _ | _ | _ <;>
      simp only [workerStep, reduceCtorEq, Option.some.injEq] at h
    · subst h
      exact .finishError hw
    · subst h
      exact .finishOk hw
  · rcases p with _ | _ | ⟨_ | ⟨c, rest⟩, _ | e⟩ | _ | _ | _ | _ | _ | _ | _ <;>
      simp only [workerStep, reduceCtorEq, Option.some.injEq] at h
    · subst h
      exact .notifiedOk hw
    · subst h
      exact .notifiedError hw
    · subst h
      exact .notify hw
    · subst h
      exact .notify hw
  · cases p <;> simp only [workerStep, reduceCtorEq, Option.some.injEq] at h
    subst h
    exact .drain hw
  · cases p <;> simp only [workerStep, reduceCtorEq] at h
    split at h
    · cases h
    · rename_i hadv
      obtain rfl := Option.some.inj h
      exact .workerTerminate hw hadv
    · rename_i stage' hret hadv
      obtain rfl := Option.some.inj h
      have hmove := Move.workerTerminate hw hadv
      rwa [if_neg hret] at hmove
  · cases p <;> simp only [workerStep, reduceCtorEq, Option.some.injEq] at h
    subst h
    exact .checkRetry hw
  · cases p <;> simp only [workerStep, reduceCtorEq, Option.some.injEq] at h
    subst h
    exact .recheckRetry hw
  · cases p <;> simp only [workerStep, reduceCtorEq, Option.some.injEq] at h
    subst h
    exact .release hw
  · cases p <;> simp only [workerStep, reduceCtorEq, Option.some.injEq] at h
    subst h
    exact .notifyWaiters hw

theorem waiterStep_move {s s' : State} {q : Nat} {k : Waiter} {l : Label} (hk : s.waiters q = some k)
    (hl : l = .checkQueue q ∨ l = .wakeWaiter q) (h : waiterStep s q k l = some s') : Move s l s' := by
  rcases hl with rfl | rfl <;>
    simp only [waiterStep, Option.ite_none_right_eq_some, Option.some.injEq] at h
  · obtain ⟨hp, rfl⟩ := h
    exact .checkQueue hk hp
  · obtain ⟨⟨hp, hw⟩, rfl⟩ := h
    exact .wakeWaiter hk hp hw

/-- The inversion of `step`: every invariant below is proved by cases on this. -/
theorem move_of_step {s s' : State} {l : Label} (h : step s l = some s') : Move s l s' := by
  cases l <;> simp only [step, Option.bind_eq_some_iff, Option.ite_none_right_eq_some,
    Option.some.injEq, Prod.exists] at h
  case call c kind stepId update =>
    obtain ⟨hc, rfl⟩ := h
    exact .call hc
  case checkTerminating | checkAncestor | track | push | maybeStart | wake =>
    obtain ⟨k, hk, h⟩ := h
    exact callerStep_move hk (by simp) h
  case force =>
    obtain ⟨hn, rfl⟩ := h
    exact .force hn
  case readToken | send | respond | writeToken | merge =>
    obtain ⟨batch, call, hcall, h⟩ := h
    exact batchStep_move hcall (by simp) h
  case takeBatch | finishBatch | notify | drain | workerTerminate | checkRetry | recheckRetry |
      release | notifyWaiters =>
    obtain ⟨p, hp, h⟩ := h
    exact workerStep_move hp (by simp) h
  case startWait =>
    obtain ⟨hq, rfl⟩ := h
    exact .startWait hq
  case checkQueue | wakeWaiter =>
    obtain ⟨k, hk, h⟩ := h
    exact waiterStep_move hk (by simp) h
  case terminate =>
    obtain ⟨hn, rfl⟩ := h
    exact .terminate hn
  case advanceTerminate =>
    obtain ⟨k, hk, h⟩ := h
    unfold terminatorStep at h
    split at h
    · cases h
    · rename_i hadv
      obtain rfl := Option.some.inj h
      exact .advanceTerminate hk hadv
  case markAwaited =>
    subst h
    exact .markAwaited

/-- `Move` leaves nothing out. -/
theorem Move.step_eq {s s' : State} {l : Label} (h : Move s l s') : step s l = some s' := by
  cases h with
  | call hc => exact if_pos hc
  | checkTerminating hk hp | checkAncestor hk hp | track hk hp | push hk hp =>
    simp only [step, hk, Option.bind_some, callerStep, hp, if_true]
  | startBusy hk hp hbusy => simp only [step, hk, Option.bind_some, callerStep, hp, hbusy, if_true]
  | startWorker hk hp hbusy hw =>
    simp only [step, hk, Option.bind_some, callerStep, hp, hbusy, hw, if_true, Bool.false_eq_true,
      if_false]
  | wake hk hp hn => simp only [step, hk, Option.bind_some, callerStep, hp, hn, and_self, if_true]
  | quit hw hqueue => simp only [step, hw, Option.bind_some, workerStep, hqueue, if_true]
  | take hw hqueue =>
    simp only [step, hw, Option.bind_some, workerStep, hqueue, buildBatch_ne_nil hqueue, if_false]
  | force hn => exact if_pos hn
  | readToken hcall | fail hcall | accept hcall | writeToken hcall | merge hcall =>
    simp only [step, hcall, Option.bind_some, batchStep]
  | reject hcall hcoalesce | send hcall hcoalesce =>
    simp only [step, hcall, Option.bind_some, batchStep, hcoalesce]
  | finishOk hw | finishError hw | notify hw | notifiedOk hw | notifiedError hw | drain hw
  | checkRetry hw | recheckRetry hw | release hw | notifyWaiters hw =>
    simp only [step, hw, Option.bind_some, workerStep]
  | @workerTerminate w stage stage' _ _ _ hw hadv =>
    simp only [step, hw, Option.bind_some, workerStep, hadv]
    cases stage' <;> rfl
  | startWait hq => exact if_pos hq
  | checkQueue hk hp => simp only [step, hk, Option.bind_some, waiterStep, hp, if_true]
  | wakeWaiter hk hp hwoken =>
    simp only [step, hk, Option.bind_some, waiterStep, hp, hwoken, and_self, if_true]
  | terminate hn => exact if_pos hn
  | advanceTerminate hk hadv => simp only [step, hk, Option.bind_some, terminatorStep, hadv]
  | markAwaited => rfl

end LambdaDurable.CheckpointManager
