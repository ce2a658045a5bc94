import LambdaDurable.Checkpoint.Move
import LambdaDurable.Library.ServedQueue

/-!
# Wake-ups of the checkpoint queue

`process_queue` leaves its loop in one section and resets `is_processing` in another.
A caller that finds the flag up in between leaves its checkpoint in a queue nobody serves.
-/

namespace LambdaDurable.CheckpointManager

open ServedQueue (CallerStage WorkerStage)

/-! ## The queue as an instance of a served queue -/

def CallerPhase.stage : CallerPhase → CallerStage
  | .pushed => .pushed
  | .waiting => .waiting
  | _ => .outside

def WorkerPhase.stage : WorkerPhase → WorkerStage QueuedCheckpoint
  | .calling batch _ => .looping batch
  | .notifying rest _ => .looping rest
  | .terminating _ _ .leave | .exiting => .exiting
  | .leaving => .leaving
  | .done => .done
  | _ => .looping []

def Waiter.asleep (k : Waiter) : Bool := k.phase = .waiting ∧ k.woken = false

namespace State

def view (s : State) : ServedQueue.Queue Nat Nat Nat QueuedCheckpoint where
  pending := s.queue
  busy := s.isProcessing
  callers c := ((s.callers c).map (·.phase.stage)).getD .outside
  signalled := s.notified
  workers w := ((s.workers w).map (·.stage)).getD .absent
  asleep q := (s.waiters q).any (·.asleep)

theorem view_callers {s : State} {c : Nat} {k : Caller} (h : s.callers c = some k) :
    s.view.callers c = k.phase.stage := by
  simp [view, h]

theorem view_workers {s : State} {w : Nat} {p : WorkerPhase} (h : s.workers w = some p) :
    s.view.workers w = p.stage := by
  simp [view, h]

theorem view_callers_none {s : State} {c : Nat} (h : s.callers c = none) :
    s.view.callers c = .outside := by
  simp [view, h]

theorem view_workers_none {s : State} {w : Nat} (h : s.workers w = none) :
    s.view.workers w = .absent := by
  simp [view, h]

@[simp] theorem view_setCaller (s : State) (c : Nat) (k : Caller) : (s.setCaller c k).view =
    { s.view with callers := Function.update s.view.callers c k.phase.stage } := by
  simp only [view, setCaller, ServedQueue.Queue.mk.injEq, true_and, and_true]
  funext d
  obtain rfl | hd := eq_or_ne d c
  · simp
  · simp [hd]

@[simp] theorem view_setWorker (s : State) (w : Nat) (p : WorkerPhase) : (s.setWorker w p).view =
    { s.view with workers := Function.update s.view.workers w p.stage } := by
  simp only [view, setWorker, ServedQueue.Queue.mk.injEq, true_and, and_true]
  funext v
  obtain rfl | hv := eq_or_ne v w
  · simp
  · simp [hv]

@[simp] theorem view_setWaiter (s : State) (q : Nat) (k : Waiter) : (s.setWaiter q k).view =
    { s.view with asleep := Function.update s.view.asleep q k.asleep } := by
  simp only [view, setWaiter, ServedQueue.Queue.mk.injEq, true_and]
  funext r
  obtain rfl | hr := eq_or_ne r q
  · simp
  · simp [hr]

theorem view_setCaller_eq {s : State} {c : Nat} {k : Caller}
    (h : s.view.callers c = k.phase.stage) : (s.setCaller c k).view = s.view := by
  rw [view_setCaller, ← h, Function.update_eq_self]

theorem view_setWorker_eq {s : State} {w : Nat} {p : WorkerPhase}
    (h : s.view.workers w = p.stage) : (s.setWorker w p).view = s.view := by
  rw [view_setWorker, ← h, Function.update_eq_self]

theorem view_setWaiter_eq {s : State} {q : Nat} {k : Waiter}
    (h : s.view.asleep q = k.asleep) : (s.setWaiter q k).view = s.view := by
  rw [view_setWaiter, ← h, Function.update_eq_self]

/-- The progress of a `process_batch` call does not show. -/
theorem view_setCall {s t : State} {o : Owner} {batch : List QueuedCheckpoint} {call : BatchCall}
    (h : s.callOf o = some (batch, call)) (call' : BatchCall) (ht : t.view = s.view) :
    (t.setCall batch call' o).view = s.view := by
  cases o with
  | force n => exact ht
  | worker w =>
      refine (view_setWorker_eq ?_).trans ht
      rw [ht, view_workers (callOf_worker.mp h)]
      rfl

end State

open State

theorem CallKind.afterStart_stage (kind : CallKind) : kind.afterStart.stage ≠ .pushed := by
  cases kind <;> nofun

/-- The checkpoint manager simulates the served queue, or stutters. -/
theorem Move.simulates {s s' : State} {l : Label}
    {may : ServedQueue.Queue Nat Nat Nat QueuedCheckpoint → Nat → Prop} (h : Move s l s')
    (hmay : ∀ c w, l = .maybeStart c w → s.isProcessing = true → may s.view c) :
    s'.view = s.view ∨ ServedQueue.Step QueuedCheckpoint.notify may s.view s'.view := by
  cases h with
  | call hc => exact Or.inl (view_setCaller_eq (by simp [view, hc, CallerPhase.stage]))
  | checkTerminating hk hp =>
      refine Or.inl (view_setCaller_eq ?_)
      rw [view_callers hk, hp]
      dsimp only
      split <;> rfl
  | checkAncestor hk hp =>
      refine Or.inl (view_setCaller_eq ?_)
      rw [view_callers hk, hp]
      dsimp only
      split <;> rfl
  | track hk hp =>
      refine Or.inl (view_setCaller_eq ?_)
      exact (view_callers (s := s) hk).trans (by rw [hp]; rfl)
  | @push c k hk hp =>
      rw [view_setCaller]
      let checkpoint : QueuedCheckpoint := ⟨k.stepId, k.update, c⟩
      refine Or.inr (.push (a := checkpoint) ?_)
      rw [view_callers hk, hp]
      rfl
  | @startBusy c w k hk hp hbusy =>
      rw [view_setCaller]
      refine Or.inr (.startBusy ?_ hbusy (hmay c w rfl hbusy) k.kind.afterStart_stage)
      rw [view_callers hk, hp]
      rfl
  | @startWorker c w k hk hp hbusy hw =>
      rw [view_setCaller, view_setWorker]
      refine Or.inr (.startIdle ?_ hbusy k.kind.afterStart_stage ?_)
      · rw [view_callers hk, hp]
        rfl
      · simp [view, hw]
  | wake hk hp hn =>
      rw [view_setCaller]
      refine Or.inr (.resume ?_ hn)
      rw [view_callers hk, hp]
      rfl
  | quit hw hempty =>
      rw [view_setWorker]
      exact Or.inr (.quit (view_workers hw) hempty)
  | take hw _ =>
      rw [view_setWorker]
      exact Or.inr (.take (view_workers hw) (buildBatch_append s.queue).symm)
  | readToken hcall | send hcall _ | reject hcall _ | fail hcall | accept hcall
  | writeToken hcall | merge hcall => exact Or.inl (view_setCall hcall _ rfl)
  | finishOk hw | finishError hw | notifiedOk hw | notifiedError hw =>
      exact Or.inl (view_setWorker_eq ((view_workers hw).trans rfl))
  | notify hw =>
      rw [view_setWorker]
      exact Or.inr (.signal (view_workers hw))
  | drain hw =>
      rw [view_setWorker]
      exact Or.inr (.drain (view_workers hw))
  | @workerTerminate w stage stage' result resume t hw _ =>
      refine Or.inl (view_setWorker_eq ((view_workers (s := s) hw).trans ?_))
      cases resume <;> split <;> rfl
  | checkRetry hw =>
      refine Or.inl (view_setWorker_eq ((view_workers hw).trans ?_))
      split <;> rfl
  | recheckRetry hw =>
      refine Or.inl (view_setWorker_eq ((view_workers hw).trans ?_))
      split <;> rfl
  | release hw =>
      rw [view_setWorker]
      exact Or.inr (.release (view_workers hw))
  | notifyWaiters hw =>
      rw [view_setWorker]
      have hawake : s.wakeWaiters.view = { s.view with asleep := fun _ => false } := by
        simp [view, wakeWaiters, Waiter.asleep, Option.any_map]
      rw [hawake]
      exact Or.inr (.announce (view_workers hw))
  | startWait hq => exact Or.inl (view_setWaiter_eq (by simp [view, hq, Waiter.asleep]))
  | @checkQueue q k hq hp =>
      obtain ⟨phase, woken⟩ := k
      obtain rfl : phase = .created := hp
      have hnow : s.view.asleep q = false := by simp [view, hq, Waiter.asleep]
      by_cases hempty : s.queue = [] ∧ s.isProcessing = false
      · rw [if_pos hempty]
        exact Or.inl (view_setWaiter_eq (hnow.trans rfl))
      · rw [if_neg hempty]
        cases woken with
        | true => exact Or.inl (view_setWaiter_eq (hnow.trans rfl))
        | false =>
            rw [view_setWaiter]
            refine Or.inr (.sleep ?_)
            by_contra hnot
            push Not at hnot
            exact hempty ⟨hnot.1, Bool.eq_false_iff.mpr hnot.2⟩
  | wakeWaiter hq _ hwoken =>
      exact Or.inl (view_setWaiter_eq (by simp [view, hq, Waiter.asleep, hwoken]))
  | force _ | terminate _ | advanceTerminate _ _ | markAwaited => exact Or.inl rfl

/-! ## No lost wake-up -/

/-- The worker will look at the queue again, or is about to drain it. -/
def WorkerPhase.InLoop : WorkerPhase → Prop
  | .terminating _ _ .leave | .exiting | .leaving | .done => False
  | _ => True

/-- The call is between its `push_back` and the end of its `maybe_start_processing`. -/
def State.Starting (s : State) (c : Nat) : Prop := ∃ k, s.callers c = some k ∧ k.phase = .pushed

structure NoLostWakeup (s : State) : Prop where
  queue_empty : s.isProcessing = false → (∀ c, ¬ s.Starting c) → s.queue = []
  checkpoint_served : ∀ c k, s.callers c = some k → k.phase = .waiting → s.notified c = false →
    ∃ w p, s.workers w = some p ∧ p.InLoop
  wait_served : ∀ q k, s.waiters q = some k → k.phase = .waiting → k.woken = false →
    (∀ c, ¬ s.Starting c) → ∃ w p, s.workers w = some p ∧ p ≠ .done

/-- A caller that finds `is_processing` up with its checkpoint still queued finds a worker in its loop. -/
def FindsLoop (s : State) (l : Label) : Prop :=
  ∀ c w, l = .maybeStart c w → s.isProcessing = true → (∃ e ∈ s.queue, e.notify = c) →
    ∃ v p, s.workers v = some p ∧ p.InLoop

theorem WorkerPhase.inLoop_iff (p : WorkerPhase) : p.InLoop ↔ p.stage.Looping := by
  rcases p with _ | _ | _ | _ | ⟨_, _, _ | _⟩ | _ | _ | _ | _ | _ <;>
    simp [InLoop, stage, WorkerStage.Looping]

theorem exists_inLoop_iff {s : State} :
    (∃ w p, s.workers w = some p ∧ p.InLoop) ↔ ∃ w, (s.view.workers w).Looping := by
  constructor
  · rintro ⟨w, p, hw, hp⟩
    exact ⟨w, by rw [view_workers hw]; exact p.inLoop_iff.mp hp⟩
  · rintro ⟨w, hw⟩
    cases hp : s.workers w with
    | none =>
        rw [view_workers_none hp] at hw
        cases hw
    | some p =>
        rw [view_workers hp] at hw
        exact ⟨w, p, hp, p.inLoop_iff.mpr hw⟩

/-- Runs of the checkpoint manager are runs of the served queue. -/
theorem simulated {token : String} {stepData : Table}
    {allow : State → Label → Prop} (may : ServedQueue.Queue Nat Nat Nat QueuedCheckpoint → Nat → Prop)
    (hmay : ∀ s c w, allow s (.maybeStart c w) → s.isProcessing = true → may s.view c) {s : State}
    (h : (machine token stepData).ReachableBy allow s) :
    Relation.ReflTransGen (ServedQueue.Step QueuedCheckpoint.notify may)
      (State.new token stepData).view s.view := by
  have hstep : ∀ s l s', allow s l → step s l = some s' →
      s'.view = s.view ∨ ServedQueue.Step QueuedCheckpoint.notify may s.view s'.view :=
    fun s l s' hl hs => (move_of_step hs).simulates fun c w hlabel => hmay s c w (hlabel ▸ hl)
  obtain ⟨_, rfl, hrun⟩ := h.simulates view hstep
  exact hrun

theorem view_new_fresh (token : String) (stepData : Table) :
    (State.new token stepData).view.Fresh :=
  ⟨rfl, rfl, fun _ => rfl, fun _ => rfl, fun _ => rfl⟩

/-- `is_processing` is reset by the worker only, once it is out of its loop. -/
theorem not_inLoop_of_idle {token : String} {stepData : Table} {s : State}
    (h : (machine token stepData).Reachable s) (hidle : s.isProcessing = false) :
    ¬ ∃ w p, s.workers w = some p ∧ p.InLoop := by
  have hrun := simulated (fun _ _ => True) (fun _ _ _ _ _ => trivial) h
  have hsingle := ServedQueue.singleWorker_run (view_new_fresh token stepData) hrun
  intro hloop
  obtain ⟨w, hw⟩ := exists_inLoop_iff.mp hloop
  exact hsingle.not_active hidle w hw.active

theorem FindsLoop.may {s : State} {c w : Nat} (h : FindsLoop s (.maybeStart c w))
    (hbusy : s.isProcessing = true) : ServedQueue.MayFindBusy QueuedCheckpoint.notify s.view c := by
  intro hnone e he hc
  obtain ⟨v, hv⟩ := exists_inLoop_iff.mp (h c w rfl hbusy ⟨e, he, hc⟩)
  exact hnone v hv

theorem starting_of_view {s : State} {c : Nat} (h : s.view.callers c = .pushed) : s.Starting c := by
  cases hk : s.callers c with
  | none =>
      rw [view_callers_none hk] at h
      cases h
  | some k =>
      rw [view_callers hk] at h
      refine ⟨k, hk, ?_⟩
      cases hp : k.phase <;> rw [hp] at h <;> first | rfl | cases h

theorem no_lost_wakeup {token : String} {stepData : Table} {s : State}
    (h : (machine token stepData).ReachableBy FindsLoop s) : NoLostWakeup s := by
  have hrun := simulated _ (fun _ _ _ => FindsLoop.may) h
  have hfresh := view_new_fresh token stepData
  have hsingle := ServedQueue.singleWorker_run hfresh hrun
  have hattended := ServedQueue.attended_run hfresh hrun
  refine ⟨fun hbusy hstart => ?_, fun c k hk hp hsig => ?_, fun q k hq hp hwoken hstart => ?_⟩
  · refine ServedQueue.pending_eq_nil hsingle hattended hbusy fun c hc => ?_
    exact hstart c (starting_of_view hc)
  · refine exists_inLoop_iff.mpr ?_
    refine ServedQueue.exists_looping (ServedQueue.accounted_run hfresh hrun) hattended (i := c) ?_ hsig
    rw [view_callers hk, hp]
    rfl
  · have hasleep : s.view.asleep q = true := by simp [view, hq, Waiter.asleep, hp, hwoken]
    obtain ⟨w, hw⟩ := ServedQueue.exists_running hsingle (ServedQueue.watched_run hfresh hrun) hattended
      hasleep fun c hc => hstart c (starting_of_view hc)
    cases hpw : s.workers w with
    | none =>
        rw [view_workers_none hpw] at hw
        cases hw
    | some p =>
        rw [view_workers hpw] at hw
        refine ⟨w, p, hpw, ?_⟩
        rintro rfl
        cases hw

def startUpdate (id : String) : OperationUpdate := { id, operationType := .step, action := .start }

/-- A call up to and including its `push_back`. -/
def pushLabels (c : Nat) (id : String) : List Label :=
  [.call c .checkpoint id (startUpdate id), .checkTerminating c, .checkAncestor c, .track c, .push c]

/-- A batch with one checkpoint, acknowledged, up to the next look at the queue. -/
def serveLabels (w : Nat) : List Label :=
  [.takeBatch w, .readToken (.worker w), .send (.worker w), .respond (.worker w) (.ok {}),
    .writeToken (.worker w), .merge (.worker w), .finishBatch w, .notify w, .notify w, .checkRetry w]

/-- The second call pushes after the worker found the queue empty and looks at the flag before it
is reset. -/
def lateStart : List Label :=
  pushLabels 0 "a" ++ [.maybeStart 0 0] ++ serveLabels 0 ++ [.takeBatch 0] ++ pushLabels 1 "b" ++
    [.maybeStart 1 1, .release 0, .notifyWaiters 0]

/-- As `lateStart`, but the second call looks at the flag before the worker looks at the queue. -/
def timelyStart : List Label :=
  pushLabels 0 "a" ++ [.maybeStart 0 0] ++ serveLabels 0 ++ pushLabels 1 "b" ++
    [.maybeStart 1 1, .takeBatch 0]

def foundLoop (s : State) : Label → Bool
  | .maybeStart _ _ => !s.isProcessing || s.workers 0 == some .top
  | _ => true

theorem no_lost_wakeup_timelyStart :
    ∃ s, s.isProcessing = true ∧ s.queue = [] ∧ NoLostWakeup s := by
  have hend : ((machine "t0" fun _ => none).checkedRun foundLoop (.new "t0" fun _ => none)
      timelyStart).map (fun s => (s.isProcessing, s.queue)) = some (true, []) := by decide +kernel
  obtain ⟨s, hrun, hs⟩ := Option.map_eq_some_iff.mp hend
  simp only [Prod.mk.injEq] at hs
  refine ⟨s, hs.1, hs.2, @no_lost_wakeup "t0" (fun _ => none) s ?_⟩
  refine Transition.Machine.checkedRun_reachableBy (fun r l _ hok => ?_) timelyStart (.init rfl) hrun
  rintro c w rfl hbusy -
  have htop : r.workers 0 = some .top := by simpa [foundLoop, hbusy] using hok
  exact ⟨0, .top, htop, trivial⟩

/-- The second call waits for good: its checkpoint is queued, and no worker is left. -/
theorem lateStart_loses : ¬ ∀ s, (machine "t0" fun _ => none).Reachable s → NoLostWakeup s := by
  intro h
  have hend : ((machine "t0" fun _ => none).run (.new "t0" fun _ => none) lateStart).map
      (fun s => (s.isProcessing, (s.callers 1).map (·.phase), s.notified 1)) =
      some (false, some .waiting, false) := by decide +kernel
  obtain ⟨s, hrun, hs⟩ := Option.map_eq_some_iff.mp hend
  simp only [Prod.mk.injEq, Option.map_eq_some_iff] at hs
  obtain ⟨hidle, ⟨k, hk, hp⟩, hsig⟩ := hs
  have hreach := Transition.Machine.run_reachable rfl lateStart hrun
  exact not_inLoop_of_idle hreach hidle ((h s hreach).checkpoint_served 1 k hk hp hsig)

end LambdaDurable.CheckpointManager
