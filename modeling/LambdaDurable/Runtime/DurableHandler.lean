import LambdaDurable.Context.Resumable
import LambdaDurable.Runtime.Output

/-!
# The runtime with the tasks of its handler

The runtime reads only the manager, and the tasks go on until the output is there. Dropping the
handler stops its tasks, and a task may stop at any point anyway. A PENDING output rests on what a
task waits for.
-/

namespace LambdaDurable.Runtime.DurableHandler

open CheckpointManager (NoneRejected Prompt Announces Confirmed)

variable {V I ε ρ : Type}

structure State (V I ρ : Type) where
  tasks : Tasks.State V I
  phase : Phase ρ

inductive Label (V I ρ : Type)
  -- user code, its tasks, the workers and the service
  | handler (l : Tasks.Label V I)
  | runtime (l : Runtime.Label ρ)

/-- The invocation as the runtime sees it. -/
def State.view (s : State V I ρ) : Runtime.State ρ := ⟨s.tasks.manager, s.phase⟩

def step (cfg : Config ε ρ) (s : State V I ρ) : Label V I ρ → Option (State V I ρ)
  | .handler l =>
    match s.phase with
    | .returned _ _ => none
    | phase => (Tasks.step cfg.stepData s.tasks l).map fun tasks => { tasks, phase }
  -- all other steps of the manager are steps of the handler
  | .runtime (.manager _) => none
  | .runtime l => (Runtime.step cfg s.view l).map fun r =>
    { tasks := { s.tasks with manager := r.manager }, phase := r.phase }

/-- One invocation with the root context of its handler. -/
def machine (cfg : Config ε ρ) (root : ExecutionContext) :
    Transition.Machine (State V I ρ) (Label V I ρ) where
  init s := root.currentParentId = none ∧
    ∃ mode, s.tasks = .new cfg.token cfg.stepData mode root ∧
      s.phase = match cfg.event with
        | .error message => .returned (.error message) none
        | .ok _ => .running
  step := step cfg

variable {cfg : Config ε ρ} {root : ExecutionContext} {s s' : State V I ρ} {l : Label V I ρ}

inductive Move (cfg : Config ε ρ) (s : State V I ρ) : Label V I ρ → State V I ρ → Prop
  | handler {l : Tasks.Label V I} {tasks : Tasks.State V I} :
      (∀ output large, s.phase ≠ .returned output large) →
      Tasks.step cfg.stepData s.tasks l = some tasks → Move cfg s (.handler l) ⟨tasks, s.phase⟩
  | runtime {l : Runtime.Label ρ} {r : Runtime.State ρ} : (∀ m, l ≠ .manager m) →
      Runtime.step cfg s.view l = some r →
      Move cfg s (.runtime l) ⟨{ s.tasks with manager := r.manager }, r.phase⟩

theorem move_of_step (h : step cfg s l = some s') : Move cfg s l s' := by
  cases l with
  | handler l =>
    simp only [step] at h
    split at h
    · cases h
    · rename_i hphase
      obtain ⟨tasks, htasks, rfl⟩ := Option.map_eq_some_iff.mp h
      exact .handler hphase htasks
  | runtime l =>
    cases l with
    | manager _ => cases h
    | handlerReturns _ _ | selectTermination _ | queueDone _ _ _ | checkpointDone _ | drained =>
      obtain ⟨r, hr, rfl⟩ := Option.map_eq_some_iff.mp h
      exact .runtime (by rintro _ ⟨⟩) hr

/-- The steps of the handler are orderly. -/
def Orderly (s : State V I ρ) (l : Label V I ρ) : Prop :=
  ∀ l', l = .handler l' → Tasks.Orderly s.tasks l'

/-! ## What the manager does for the runtime -/

theorem isSuspension_of_pending {t : TerminationResult} (h : terminationOutput t = .ok .pending) :
    t.reason.isSuspension = true := by
  unfold terminationOutput at h
  split at h
  · cases h
  · cases h
  · cases congrArg DurableExecutionInvocationOutput.status (Except.ok.inj h)
  · rename_i hfailed hserdes hvalidation
    cases hreason : t.reason with
    | checkpointFailed => exact absurd hreason hfailed
    | serdesFailed => exact absurd hreason hserdes
    | contextValidationError => exact absurd hreason hvalidation
    | _ => rfl

theorem queueEmptied_of_queueDone {r r' : Runtime.State ρ} {selected : Selected ρ} {q c : Nat}
    {stepId hashedId : String} (hphase : r.phase = .waiting selected q)
    (h : Runtime.step cfg r (.queueDone c stepId hashedId) = some r') :
    ∃ k, r.manager.waiters q = some k ∧ k.phase = .returned := by
  simp only [Runtime.step, hphase, Option.ite_none_right_eq_some, Runtime.State.queueEmptied,
    Option.any_eq_true, decide_eq_true_eq] at h
  exact h.1

/-- The tasks of an invocation whose runtime has begun to wait for the queue. -/
theorem reachable_startWait {tasks : Tasks.State V I} {q : Nat} {m : CheckpointManager.State}
    (h : (Tasks.machine cfg.token cfg.stepData root).ReachableBy Tasks.Orderly tasks)
    (hm : CheckpointManager.step tasks.manager (.startWait q) = some m) :
    (Tasks.machine cfg.token cfg.stepData root).ReachableBy Tasks.Orderly
      { tasks with manager := m } := by
  refine h.step (l := .manager (.startWait q)) ?_ ?_
  · rintro _ ⟨⟩
    exact ⟨rfl, by rintro _ ⟨⟩, by rintro _ _ ⟨⟩⟩
  · simp [Tasks.machine, Tasks.step, Tasks.isCall, hm, Call.acknowledged, Backend.applyAll]

section

variable {tasks tasks' : Tasks.State V I} {l : Tasks.Label V I}

theorem manager_noneRejected
    (h : (Tasks.machine cfg.token cfg.stepData root).ReachableBy Tasks.Orderly tasks) :
    (CheckpointManager.machine cfg.token cfg.stepData).ReachableBy NoneRejected tasks.manager := by
  refine Tasks.manager_reachableBy (fun s m hl => (hl m rfl).1) (fun s m hm => ?_) h
  cases m <;> first | rfl | cases hm

theorem manager_announced
    (h : (Tasks.machine cfg.token cfg.stepData root).ReachableBy Tasks.Orderly tasks) :
    CheckpointManager.Announced tasks.manager := by
  have hreach : (CheckpointManager.machine cfg.token cfg.stepData).ReachableBy Prompt tasks.manager := by
    refine Tasks.manager_reachableBy (fun s m hl => (hl m rfl).2.1) (fun s m hm => ?_) h
    rintro w rfl
    cases hm
  exact CheckpointManager.announced (fun _ _ hl => hl) hreach

end

/-- How far a suspension has come. -/
structure Suspending (cfg : Config ε ρ) (root : ExecutionContext) (s : State V I ρ) : Prop where
  running : s.phase = .running →
    (Tasks.machine cfg.token cfg.stepData root).ReachableBy Tasks.Orderly s.tasks
  waiting : ∀ t q, s.phase = .waiting (.terminated t) q →
    (Tasks.machine cfg.token cfg.stepData root).ReachableBy Tasks.Orderly s.tasks ∧
      (t.reason.isSuspension = true → Announces s.tasks.manager t ∧
        ∀ k, s.tasks.manager.waiters q = some k → k.phase = .returned → Confirmed s.tasks.manager t)
  returned : ∀ large, s.phase = .returned (.ok .pending) large →
    (Tasks.machine cfg.token cfg.stepData root).ReachableBy Tasks.Orderly s.tasks ∧
      ∃ t, t.reason.isSuspension = true ∧ Confirmed s.tasks.manager t

theorem handler_move {tasks tasks' : Tasks.State V I} {l : Tasks.Label V I}
    (h : Tasks.step cfg.stepData tasks l = some tasks') : tasks'.manager = tasks.manager ∨
      ∃ m, CheckpointManager.Move tasks.manager m tasks'.manager := by
  obtain hsame | ⟨m, hm, -⟩ := (Tasks.move_of_step h).manager_cases
  · exact Or.inl hsame
  · exact Or.inr ⟨m, CheckpointManager.move_of_step hm⟩

theorem Suspending.handler (h : Suspending cfg root s) {l : Tasks.Label V I} {tasks : Tasks.State V I}
    (hphase : ∀ output large, s.phase ≠ .returned output large) (hl : Tasks.Orderly s.tasks l)
    (hstep : Tasks.step cfg.stepData s.tasks l = some tasks) :
    Suspending cfg root ⟨tasks, s.phase⟩ where
  running hrunning := (h.running hrunning).step hl hstep
  returned large hreturned := absurd hreturned (hphase _ _)
  waiting t q hwaiting := by
    obtain ⟨hreach, hcause⟩ := h.waiting t q hwaiting
    refine ⟨hreach.step hl hstep, fun hsuspension => ?_⟩
    obtain ⟨hannounces, hconfirmed⟩ := hcause hsuspension
    obtain hsame | ⟨m, hm⟩ := handler_move hstep
    · simp only [hsame]
      exact ⟨hannounces, hconfirmed⟩
    · refine ⟨hannounces.step hm, fun k hk hp => ?_⟩
      obtain ⟨j, hj, hreturned⟩ | ⟨hqueue, hidle⟩ := hm.waiter_cases hk hp
      · exact (hconfirmed j hj hreturned).step hm
      · exact (hannounces.confirmed (manager_noneRejected hreach) hqueue hidle).step hm

theorem Suspending.runtime (h : Suspending cfg root s) {l : Runtime.Label ρ} {r : Runtime.State ρ}
    (hl : ∀ m, l ≠ .manager m) (hstep : Runtime.step cfg s.view l = some r) :
    Suspending cfg root ⟨{ s.tasks with manager := r.manager }, r.phase⟩ := by
  have finished : (∀ large, r.phase ≠ .returned (.ok .pending) large) →
      (∀ t q, r.phase ≠ .waiting (.terminated t) q) → r.phase ≠ .running →
      Suspending cfg root ⟨{ s.tasks with manager := r.manager }, r.phase⟩ :=
    fun hreturned hwaiting hrunning => ⟨fun heq => absurd heq hrunning,
      fun t q heq => absurd heq (hwaiting t q), fun large heq => absurd heq (hreturned large)⟩
  have status : ∀ {output : DurableExecutionInvocationOutput}, output.status ≠ .pending →
      ∀ (large large' : Option (Nat × String)),
        (.returned (.ok output) large : Phase ρ) ≠ .returned (.ok .pending) large' := by
    rintro output hstatus large large' ⟨⟩
    exact hstatus rfl
  cases Runtime.move_of_step hstep with
  | manager _ _ => exact absurd rfl (hl _)
  | handlerReturns _ _ | checkpointDone _ _ _ _ =>
    exact finished (by rintro _ ⟨⟩) (by rintro _ _ ⟨⟩) (by rintro ⟨⟩)
  | unserializable _ _ | large _ _ _ =>
    exact finished (by rintro _ ⟨⟩) (by rintro _ _ ⟨⟩) (by rintro ⟨⟩)
  | small _ _ _ | handlerFailed _ | drained _ =>
    refine finished (fun large => status ?_ _ _) (by rintro _ _ ⟨⟩) (by rintro ⟨⟩)
    rintro ⟨⟩
  | @selectTermination t q m hphase hpublished hm =>
    have hreach := h.running hphase
    have hmove := CheckpointManager.move_of_step hm
    constructor
    · rintro ⟨⟩
    · rintro _ _ ⟨⟩
      refine ⟨reachable_startWait hreach hm, fun hsuspension => ⟨?_, fun k hk hp => ?_⟩⟩
      · exact ((manager_announced hreach).published t hpublished hsuspension).step hmove
      · cases hmove with
        | startWait _ =>
          obtain rfl := Option.some.inj ((Function.update_self q _ s.tasks.manager.waiters).symm.trans hk)
          cases hp
    · rintro _ ⟨⟩
  | @terminated t q c stepId hashedId hphase =>
    obtain ⟨hreach, hcause⟩ := h.waiting t q hphase
    constructor
    · rintro ⟨⟩
    · rintro _ _ ⟨⟩
    · intro large heq
      have houtput : terminationOutput t = .ok .pending := (Phase.returned.inj heq).1
      have hsuspension := isSuspension_of_pending houtput
      obtain ⟨k, hk, hp⟩ := queueEmptied_of_queueDone hphase hstep
      exact ⟨hreach, t, hsuspension, (hcause hsuspension).2 k hk hp⟩

theorem suspending (h : (machine cfg root).ReachableBy Orderly s) : Suspending cfg root s := by
  refine h.invariant ?_ ?_
  · rintro s ⟨hroot, mode, htasks, hphase⟩
    have hinit : (Tasks.machine cfg.token cfg.stepData root).ReachableBy Tasks.Orderly s.tasks :=
      .init ⟨hroot, mode, htasks⟩
    constructor
    · exact fun _ => hinit
    · intro t q hwaiting
      rw [hphase] at hwaiting
      split at hwaiting <;> cases hwaiting
    · intro large hreturned
      rw [hphase] at hreturned
      split at hreturned <;> cases hreturned
  · intro s l s' _ hs hl hstep
    cases move_of_step hstep with
    | handler hphase htasks => exact hs.handler hphase (hl _ rfl) htasks
    | runtime hm hr => exact hs.runtime hm hr

/-- An invocation that returns PENDING leaves an operation behind that one of its tasks waits for:
its record is due, and the service has acted on it or can do so now. -/
theorem pending_awakens (h : (machine cfg root).ReachableBy Orderly s)
    {large : Option (Nat × String)} (hpending : s.phase = .returned (.ok .pending) large)
    (howns : ∀ (j : Nat) (task : Tasks.Task V I) type id, s.tasks.tasks[j]? = some task →
      (s.tasks.view task).Waits type id → s.tasks.Owns cfg.stepData j type id) :
    ∃ (j : Nat) (task : Tasks.Task V I) (type : OperationType) (id : String),
      s.tasks.tasks[j]? = some task ∧ (s.tasks.view task).Waits type id ∧
      Backend.Awaken cfg.stepData (CheckpointManager.acceptedUpdates s.tasks.manager.log)
        s.tasks.backend id ∧
      ((∃ r, Backend.Advances r (s.tasks.backend id)) ∨
        ∃ event backend, Backend.advance s.tasks.backend event = some backend ∧
          Backend.Advances (s.tasks.backend id) (backend id)) := by
  obtain ⟨hreach, t, hsuspension, hconfirmed⟩ := (suspending h).returned large hpending
  obtain ⟨j, task, type, id, hj, hwaits, hawaken⟩ := Tasks.awakens hreach hsuspension hconfirmed howns
  exact ⟨j, task, type, id, hj, hwaits, hawaken, hawaken.advances⟩

/-- A handler that waits for one second. -/
def waitingHandler : Config String String where
  token := "t0"
  stepData := fun _ => none
  context := .ok (some {
    id := "exec", operationType := .execution, status := .started
    executionDetails := some { inputPayload := some "go" } })
  deserialize := .ok
  serialize := .ok

def waitingStart : State Nat Nat String :=
  { tasks := .new "t0" (fun _ => none) .execution rootContext, phase := .running }

def suspendedRun : List (Label Nat Nat String) :=
  let task := List.map fun l => (.handler l : Label Nat Nat String)
  let manager := List.map fun l => (.handler (.manager l) : Label Nat Nat String)
  task [.begin 0 none shortWait, .perform 0 fun _ => none, .perform 0 fun _ => none, .request 0 0] ++
    manager [.checkTerminating 0, .checkAncestor 0, .track 0, .push 0, .maybeStart 0 0, .takeBatch 0,
      .readToken (.worker 0), .send (.worker 0), .respond (.worker 0) (.ok {}),
      .writeToken (.worker 0), .merge (.worker 0), .finishBatch 0, .notify 0, .wake 0] ++
    task [.resume 0, .perform 0 fun _ => none, .perform 0 fun _ => none, .request 0 1] ++
    manager [.advanceTerminate 1, .advanceTerminate 1, .advanceTerminate 1] ++
    [.runtime (.selectTermination 0)] ++
    manager [.notify 0, .checkRetry 0, .takeBatch 0, .release 0, .checkQueue 0] ++
    [.runtime (.queueDone 0 "" "")]

def keepsOrder (s : State Nat Nat String) : Label Nat Nat String → Bool
  | .handler (.manager (.terminate _ _)) | .handler (.manager (.recheckRetry _)) => false
  | .handler (.manager m) => !CheckpointManager.rejects s.tasks.manager m
  | _ => true

theorem orderly_of_keepsOrder {s : State Nat Nat String} {l : Label Nat Nat String}
    (h : keepsOrder s l = true) : Orderly s l := by
  rintro _ rfl m rfl
  cases m with
  | terminate _ _ | recheckRetry _ => cases h
  | _ =>
    refine ⟨by simpa [keepsOrder] using h, ?_, ?_⟩
    · rintro _ ⟨⟩
    · rintro _ _ ⟨⟩

def State.isPending (s : State Nat Nat String) : Bool :=
  match s.phase with
  | .returned (.ok output) none => output = .pending
  | _ => false

/-- The task only waits for the given operation, and asks for the suspension now. -/
def waitsOnly (id : String) (v : Call.State Nat (DurableResult (Output Nat))) : Bool :=
  lookedUp v.trace == some id && v.trace.all (!·.1.isTerminate) &&
    (match v.program.next with
      | some (.terminate result) => result.reason == .waitScheduled
      | _ => false) &&
    v.askedFor.all fun u => u.operationType == .wait && u.action == .start

theorem waits_of_waitsOnly {id id' : String} {type : OperationType}
    {v : Call.State Nat (DurableResult (Output Nat))} (h : waitsOnly id v = true)
    (hwaits : v.Waits type id') : id' = id ∧ type = .wait ∧
      ∀ u ∈ v.askedFor, u.operationType = .wait := by
  simp only [waitsOnly, Bool.and_eq_true, beq_iff_eq, List.all_eq_true] at h
  obtain ⟨⟨⟨hlook, hnone⟩, hnext⟩, hall⟩ := h
  cases hwaits with
  | @asked result hasked htype hlook' =>
    refine ⟨Option.some.inj (hlook'.symm.trans hlook), ?_, fun u hu => (hall u hu).1⟩
    obtain hasked | ⟨a, hmem⟩ := hasked
    · rw [hasked] at hnext
      rw [beq_iff_eq.mp hnext] at htype
      exact (Option.some.inj htype).symm
    · have hnot := hnone _ hmem
      cases hnot
  | @retried u hu haction _ _ =>
    have hstart := (hall u hu).2
    rw [haction] at hstart
    cases hstart

theorem pending_awakens_wait : ∃ s : State Nat Nat String, s.phase = .returned (.ok .pending) none ∧
    ∃ (j : Nat) (task : Tasks.Task Nat Nat) (type : OperationType) (id : String),
      s.tasks.tasks[j]? = some task ∧ (s.tasks.view task).Waits type id ∧
      Backend.Awaken waitingHandler.stepData
        (CheckpointManager.acceptedUpdates s.tasks.manager.log) s.tasks.backend id := by
  have hend : ((machine waitingHandler rootContext).checkedRun keepsOrder waitingStart
      suspendedRun).map (fun s => (s.isPending, s.tasks.tasks.map fun task =>
        waitsOnly "op_0" (s.tasks.view task))) = some (true, [true]) := by
    decide +kernel
  obtain ⟨s, hrun, hs⟩ := Option.map_eq_some_iff.mp hend
  have hreach : (machine waitingHandler rootContext).ReachableBy Orderly s :=
    Transition.Machine.checkedRun_reachableBy (fun _ _ _ => orderly_of_keepsOrder) _
      (.init ⟨rfl, .execution, rfl, rfl⟩) hrun
  obtain ⟨houtput, htasks⟩ := Prod.mk.inj hs
  have hpending : s.phase = .returned (.ok .pending) none := by
    unfold State.isPending at houtput
    split at houtput
    · rename_i heq
      rw [heq, of_decide_eq_true houtput]
    · cases houtput
  have howns : ∀ (j : Nat) (task : Tasks.Task Nat Nat) type id, s.tasks.tasks[j]? = some task →
      (s.tasks.view task).Waits type id → s.tasks.Owns waitingHandler.stepData j type id := by
    intro j task type id hj hwaits
    obtain ⟨only, honly, hwaitsOnly⟩ := List.map_eq_singleton_iff.mp htasks
    have hfirst : ∀ {i other}, s.tasks.tasks[i]? = some other → i = 0 ∧ other = only := by
      intro i other hi
      rw [honly] at hi
      cases i with
      | zero => exact ⟨rfl, (Option.some.inj hi).symm⟩
      | succ i => cases hi
    obtain ⟨rfl, rfl⟩ := hfirst hj
    obtain ⟨rfl, rfl, hupdates⟩ := waits_of_waitsOnly hwaitsOnly hwaits
    constructor
    · intro i other hi hne
      exact absurd (hfirst hi).1 hne
    · intro other hother
      obtain ⟨-, rfl⟩ := hfirst hother
      constructor
      · exact fun u hu _ => hupdates u hu
      · rintro op ⟨⟩
      · rintro op ⟨⟩
  obtain ⟨j, task, type, id, hj, hwaits, hawaken, -⟩ := pending_awakens hreach hpending howns
  exact ⟨s, hpending, j, task, type, id, hj, hwaits, hawaken⟩

end LambdaDurable.Runtime.DurableHandler
