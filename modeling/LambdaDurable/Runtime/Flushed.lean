import LambdaDurable.Context.Parents
import LambdaDurable.Runtime.DurableHandler

/-!
# What the queue holds when the handler is stopped

A task goes on from `checkpoint_queued` while its update is still queued, and the handler may
return, or be dropped, before it is sent. The runtime waits for the queue, so by the end of the
invocation the service has it.
-/

namespace LambdaDurable

open Effects
open CheckpointManager (NoneRejected Pushed Delivered rejects)

variable {V I ε ρ : Type}

namespace Call

variable {α : Type} {token : String} {loaded : Table} {program : Act V α} {s : State V α}
  {allow : State V α → Label V → Prop}

/-- An update is queued when its call returns. -/
theorem pushed_of_sent (h : (machine token loaded program).ReachableBy allow s) :
    ∀ u ∈ sent s.trace, Pushed s.manager u := by
  refine h.invariant (I := fun s => ∀ u ∈ sent s.trace, Pushed s.manager u) ?_ ?_
  · rintro _ ⟨mode, rfl⟩ u hu
    cases hu
  · intro s l s' hr hs _ hstep u hu
    cases move_of_step hstep with
    | manager hm => exact (hs u hu).step (CheckpointManager.move_of_step hm)
    | setMode | service _ => exact hs u hu
    | request _ _ _ hm => exact (hs u hu).step (CheckpointManager.move_of_step hm)
    | @perform _ e k a _ _ ha =>
      have hcall := State.call_eq_none_of_instant ha
      rw [State.answer_trace, State.touch_trace, sent_cons_quiet (by simp [Effect.updates, hcall])] at hu
      cases e with
      | markAwaited hashedId =>
        exact (hs u hu).step (l := .markAwaited hashedId) .markAwaited
      | _ => exact hs u hu
    | @resume n e k a hticket hprogram ha =>
      rw [State.answer_trace, sent] at hu
      obtain hu | hu := List.mem_append.mp hu
      · exact hs u hu
      · cases hcall : e.call with
        | none => simp [Effect.updates, hcall] at hu
        | some c =>
          obtain ⟨kind, stepId, v⟩ := c
          rw [State.updates_of_call hcall] at hu
          obtain rfl := List.mem_singleton.mp hu
          obtain ⟨phase, hn⟩ := caller_of_awaits hr ⟨hticket, e, k, hprogram, hcall⟩
          refine ⟨n, _, hn, rfl, ?_⟩
          cases e with
          | checkpoint _ _ | checkpointQueued _ _ =>
            simp only [outcome, hn, Option.any_some, Option.ite_none_right_eq_some,
              decide_eq_true_eq] at ha
            rw [ha.1]
            rfl
          | _ => cases hcall

end Call

namespace Runtime.DurableHandler

variable {cfg : Config ε ρ} {root : ExecutionContext} {s : State V I ρ} {l : Label V I ρ}

/-- No batch fails. -/
def Unfailing (s : State V I ρ) (l : Label V I ρ) : Prop :=
  ∀ m, l = .handler (.manager m) → rejects s.tasks.manager m = false

/-- The invocation with the tasks as they were when the runtime stopped the handler. -/
def stopping (cfg : Config ε ρ) (root : ExecutionContext) :
    Transition.Machine (State V I ρ × Option (Tasks.State V I)) (Label V I ρ) :=
  (machine cfg root).recording none fun stopped s l =>
    match l with
    | .runtime (.handlerReturns _ _) | .runtime (.selectTermination _) => some s.tasks
    | _ => stopped

/-- The runtime has seen the queue empty since it stopped the handler. -/
def State.settled (s : State V I ρ) : Prop :=
  match s.phase with
  | .running => False
  | .waiting _ q => ∃ k, s.tasks.manager.waiters q = some k ∧ k.phase = .returned
  | _ => True

structure Flushing (cfg : Config ε ρ) (root : ExecutionContext)
    (p : State V I ρ × Option (Tasks.State V I)) : Prop where
  manager : (CheckpointManager.machine cfg.token cfg.stepData).ReachableBy NoneRejected
    p.1.tasks.manager
  running : p.1.phase = .running →
    (Tasks.machine cfg.token cfg.stepData root).Reachable p.1.tasks
  stopped : ∀ tasks, p.2 = some tasks → ∀ task ∈ tasks.tasks, ∀ u ∈ sent task.trace,
    Pushed p.1.tasks.manager u ∧ (p.1.settled → Delivered p.1.tasks.manager u)

theorem handler_unrejected {tasks tasks' : Tasks.State V I} {l : Tasks.Label V I}
    (hl : ∀ m, l = .manager m → rejects tasks.manager m = false)
    (h : Tasks.step cfg.stepData tasks l = some tasks') : tasks'.manager = tasks.manager ∨
      ∃ m, rejects tasks.manager m = false ∧
        CheckpointManager.step tasks.manager m = some tasks'.manager := by
  obtain hsame | ⟨m, hm, hcases⟩ := (Tasks.move_of_step h).manager_cases
  · exact Or.inl hsame
  · refine Or.inr ⟨m, ?_, hm⟩
    obtain ⟨-, rfl | ⟨hashedId, rfl⟩⟩ | ⟨_, _, _, _, _, -, -, -, hrequest⟩ := hcases
    · exact hl m rfl
    · rfl
    · obtain ⟨_, _, _, -, rfl⟩ | ⟨-, ⟨_, rfl⟩ | ⟨_, _, rfl⟩⟩ :=
        Call.State.requestLabel_cases hrequest <;> rfl

theorem settled_of_handler {tasks : Tasks.State V I} {m : CheckpointManager.Label}
    (hm : CheckpointManager.Move s.tasks.manager m tasks.manager)
    (h : (⟨tasks, s.phase⟩ : State V I ρ).settled) :
    s.settled ∨ s.tasks.manager.queue = [] ∧ s.tasks.manager.isProcessing = false := by
  unfold State.settled at h ⊢
  cases hphase : s.phase with
  | running =>
    rw [hphase] at h
    exact h.elim
  | waiting selected q =>
    rw [hphase] at h
    obtain ⟨k, hk, hp⟩ := h
    exact hm.waiter_cases hk hp
  | _ => exact Or.inl trivial

theorem settled_of_runtime {l : Runtime.Label ρ} {r : Runtime.State ρ}
    (h : Runtime.step cfg s.view l = some r) :
    (∃ m, l = .manager m) ∨ (∃ result q, l = .handlerReturns result q) ∨
      (∃ q, l = .selectTermination q) ∨ s.settled := by
  cases l with
  | manager m => exact Or.inl ⟨m, rfl⟩
  | handlerReturns result q => exact Or.inr (Or.inl ⟨result, q, rfl⟩)
  | selectTermination q => exact Or.inr (Or.inr (Or.inl ⟨q, rfl⟩))
  | queueDone c stepId hashedId =>
    refine Or.inr (Or.inr (Or.inr ?_))
    unfold State.settled
    cases hphase : s.phase with
    | running => simp [Runtime.step, State.view, hphase] at h
    | waiting selected q => exact queueEmptied_of_queueDone (r := s.view) hphase h
    | _ => trivial
  | checkpointDone _ | drained =>
    refine Or.inr (Or.inr (Or.inr ?_))
    unfold State.settled
    cases hphase : s.phase with
    | running | waiting _ _ => simp [Runtime.step, State.view, hphase] at h
    | _ => trivial

variable {stopped : Option (Tasks.State V I)}

theorem Flushing.handler (h : Flushing cfg root (s, stopped)) {l : Tasks.Label V I}
    {tasks : Tasks.State V I} (hl : Unfailing s (.handler l))
    (hstep : Tasks.step cfg.stepData s.tasks l = some tasks) :
    Flushing cfg root (⟨tasks, s.phase⟩, stopped) := by
  have hrunning : s.phase = .running →
      (Tasks.machine cfg.token cfg.stepData root).Reachable tasks :=
    fun hphase => (h.running hphase).step trivial hstep
  obtain hsame | ⟨m, hrejects, hm⟩ := handler_unrejected (fun m hm => hl m (hm ▸ rfl)) hstep
  · refine ⟨by rw [hsame]; exact h.manager, hrunning, fun earlier hearlier task htask u hu => ?_⟩
    have hkept := h.stopped earlier hearlier task htask u hu
    rw [hsame]
    refine ⟨hkept.1, fun hsettled => hkept.2 ?_⟩
    unfold State.settled at hsettled ⊢
    rwa [hsame] at hsettled
  · have hmove := CheckpointManager.move_of_step hm
    refine ⟨h.manager.step hrejects hm, hrunning, fun earlier hearlier task htask u hu => ?_⟩
    obtain ⟨hpushed, hdelivered⟩ := h.stopped earlier hearlier task htask u hu
    refine ⟨hpushed.step hmove, fun hsettled => ?_⟩
    obtain hsettled | ⟨hqueue, hidle⟩ := settled_of_handler hmove hsettled
    · exact (hdelivered hsettled).step hmove
    · exact (hpushed.delivered h.manager hqueue hidle).step hmove

theorem Flushing.sent (h : Flushing cfg root (s, stopped)) (hphase : s.phase = .running)
    {task : Tasks.Task V I} (htask : task ∈ s.tasks.tasks) {u : OperationUpdate}
    (hu : u ∈ LambdaDurable.sent task.trace) : Pushed s.tasks.manager u := by
  obtain ⟨j, hj⟩ := List.mem_iff_getElem?.mp htask
  have hview : (Call.machine cfg.token cfg.stepData task.start).ReachableBy (fun _ _ => True)
      (s.tasks.view task) := Tasks.view_reachableBy (fun _ _ _ _ _ _ => trivial) (h.running hphase) hj
  exact Call.pushed_of_sent hview u hu

/-- The runtime turns to the queue. -/
theorem Flushing.stop (h : Flushing cfg root (s, stopped)) {selected : Selected ρ} {q : Nat}
    {m : CheckpointManager.State} (hphase : s.phase = .running)
    (hm : CheckpointManager.step s.tasks.manager (.startWait q) = some m) :
    Flushing cfg root (⟨{ s.tasks with manager := m }, .waiting selected q⟩, some s.tasks) := by
  have hmove := CheckpointManager.move_of_step hm
  refine ⟨h.manager.step (l := .startWait q) rfl hm, by rintro ⟨⟩, ?_⟩
  rintro _ ⟨⟩ task htask u hu
  refine ⟨(h.sent hphase htask hu).step hmove, ?_⟩
  rintro ⟨k, hk, hp⟩
  cases hmove with
  | startWait _ =>
    obtain rfl := Option.some.inj ((Function.update_self q _ s.tasks.manager.waiters).symm.trans hk)
    cases hp

theorem Flushing.runtime (h : Flushing cfg root (s, stopped)) {l : Runtime.Label ρ}
    {r : Runtime.State ρ} (hsettled : s.settled) (hl : ∀ m, l ≠ .manager m)
    (hstep : Runtime.step cfg s.view l = some r) (hphase : r.phase ≠ .running) :
    Flushing cfg root (⟨{ s.tasks with manager := r.manager }, r.phase⟩, stopped) := by
  have hrunning : r.phase = .running → (Tasks.machine cfg.token cfg.stepData root).Reachable
      { s.tasks with manager := r.manager } := fun hrun => absurd hrun hphase
  obtain hsame | ⟨m, hm, hcases⟩ := (Runtime.move_of_step hstep).manager_step
  · rw [hsame]
    refine ⟨h.manager, by rw [← hsame]; exact hrunning, fun earlier hearlier task htask u hu => ?_⟩
    obtain ⟨hpushed, hdelivered⟩ := h.stopped earlier hearlier task htask u hu
    exact ⟨hpushed, fun _ => hdelivered hsettled⟩
  · have hmove := CheckpointManager.move_of_step hm
    have hrejects : rejects s.tasks.manager m = false := by
      obtain heq | ⟨hrejects, -⟩ := hcases
      · exact absurd heq (hl m)
      · exact hrejects
    refine ⟨h.manager.step hrejects hm, hrunning, fun earlier hearlier task htask u hu => ?_⟩
    obtain ⟨hpushed, hdelivered⟩ := h.stopped earlier hearlier task htask u hu
    exact ⟨hpushed.step hmove, fun _ => (hdelivered hsettled).step hmove⟩

theorem flushing {p : State V I ρ × Option (Tasks.State V I)}
    (h : (stopping cfg root).ReachableBy (fun p l => Unfailing p.1 l) p) : Flushing cfg root p := by
  refine h.invariant ?_ ?_
  · rintro ⟨s, stopped⟩ ⟨⟨hroot, mode, htasks, -⟩, rfl⟩
    constructor
    · apply Transition.Machine.ReachableBy.init
      exact congrArg Tasks.State.manager htasks
    · exact fun _ => .init ⟨hroot, mode, htasks⟩
    · rintro _ ⟨⟩
  · rintro ⟨s, stopped⟩ l ⟨s', stopped'⟩ - hs hl hstep
    obtain ⟨hmove, hafter⟩ := Transition.Machine.recording_step hstep
    dsimp only at hmove hafter
    cases move_of_step hmove with
    | handler _ htasks =>
      subst hafter
      exact hs.handler hl htasks
    | @runtime l r hmanager hr =>
      cases Runtime.move_of_step hr with
      | manager _ _ => exact absurd rfl (hmanager _)
      | handlerReturns hphase hm | selectTermination hphase _ hm =>
        subst hafter
        exact hs.stop hphase hm
      | unserializable _ _ | small _ _ _ | large _ _ _ | handlerFailed _ | terminated _
      | checkpointDone _ _ _ _ | drained _ =>
        subst hafter
        obtain ⟨_, heq⟩ | ⟨_, _, heq⟩ | ⟨_, heq⟩ | hsettled := settled_of_runtime hr
        · cases heq
        · cases heq
        · cases heq
        · exact hs.runtime hsettled hmanager hr (by rintro ⟨⟩)

/-- When an invocation returns, the service has every update that a task had sent when the runtime
stopped the handler. -/
theorem returned_delivers {tasks : Tasks.State V I}
    (h : (stopping cfg root).ReachableBy (fun p l => Unfailing p.1 l) (s, some tasks))
    {output : Except String DurableExecutionInvocationOutput} {large : Option (Nat × String)}
    (hreturned : s.phase = .returned output large) {task : Tasks.Task V I}
    (htask : task ∈ tasks.tasks) {u : OperationUpdate} (hu : u ∈ sent task.trace) :
    Delivered s.tasks.manager u := by
  have hsettled : s.settled := by
    unfold State.settled
    rw [hreturned]
    trivial
  exact ((flushing h).stopped tasks rfl task htask u hu).2 hsettled

/-- The handler returns before the START of its step is sent. -/
def flushedRun : List (Label Nat Nat String) :=
  let task := List.map fun l => (.handler l : Label Nat Nat String)
  let manager := List.map fun l => (.handler (.manager l) : Label Nat Nat String)
  task (.begin 0 none (.step { codec := .nat }) :: List.replicate 3 (Tasks.quick 0) ++
      Tasks.asked 0 0 0 ++ [.resume 0]) ++
    [.runtime (.handlerReturns (.ok "done") 0)] ++
    manager (CheckpointManager.serveLabels 0 ++ [.takeBatch 0, .release 0, .checkQueue 0]) ++
    [.runtime (.queueDone 0 "" "")]

def unfailing (s : State Nat Nat String) : Label Nat Nat String → Bool
  | .handler (.manager m) => !rejects s.tasks.manager m
  | _ => true

def State.isReturned (s : State Nat Nat String) : Bool :=
  match s.phase with
  | .returned _ _ => true
  | _ => false

theorem returned_delivers_start : ∃ (s : State Nat Nat String) (u : OperationUpdate),
    s.isReturned = true ∧ u.action = .start ∧ Delivered s.tasks.manager u := by
  have hend : ((stopping waitingHandler rootContext).checkedRun (fun p l => unfailing p.1 l)
      (waitingStart, none) flushedRun).map (fun p => (p.1.isReturned,
        p.2.map fun tasks => tasks.tasks.map fun task => (sent task.trace).map (·.action))) =
      some (true, some [[.start]]) := by
    decide +kernel
  obtain ⟨⟨s, stopped⟩, hrun, hs⟩ := Option.map_eq_some_iff.mp hend
  obtain ⟨hreturned, hsent⟩ := Prod.mk.inj hs
  obtain ⟨tasks, rfl, htasks⟩ := Option.map_eq_some_iff.mp hsent
  obtain ⟨task, hone, htask⟩ := List.map_eq_singleton_iff.mp htasks
  obtain ⟨u, hu, haction⟩ := List.map_eq_singleton_iff.mp htask
  have hreach : (stopping waitingHandler rootContext).ReachableBy (fun p l => Unfailing p.1 l)
      (s, some tasks) := by
    refine Transition.Machine.checkedRun_reachableBy (fun p l _ hok => ?_) _
      (.init ⟨⟨rfl, .execution, rfl, rfl⟩, rfl⟩) hrun
    rintro m rfl
    simpa [unfailing] using hok
  refine ⟨s, u, hreturned, haction, ?_⟩
  unfold State.isReturned at hreturned
  split at hreturned
  · rename_i hphase
    have htask : task ∈ tasks.tasks := by simp [hone]
    have hsent : u ∈ sent task.trace := by simp [hu]
    exact returned_delivers hreach hphase htask hsent
  · cases hreturned

end Runtime.DurableHandler

end LambdaDurable
