import LambdaDurable.Checkpoint.Stream

/-!
# After a batch of a worker has failed

The worker releases the callers of its batch, empties the queue behind it, and asks for
the termination. A caller that pushes after that finds nobody to serve it, or starts a
new worker.
-/

namespace LambdaDurable.CheckpointManager

open State

def ServiceEvent.isWorkerRejected : ServiceEvent → Bool
  | .rejected (.worker _) _ _ => true
  | _ => false

def ServiceEvent.isRequested : ServiceEvent → Bool
  | .requested .. => true
  | _ => false

/-- What a worker has taken and not yet released. -/
def WorkerPhase.held : WorkerPhase → List QueuedCheckpoint
  | .calling batch _ => batch
  | .notifying rest _ => rest
  | _ => []

namespace State

/-- A batch of a worker has failed. -/
def WorkerFailed (s : State) : Prop := s.log.any (·.isWorkerRejected) = true

/-- A failed batch has not yet been followed by the emptying of the queue. -/
def Draining (s : State) : Prop := ∃ w p, s.workers w = some p ∧ p.onFailurePath = true

/-- After the failure of a worker's batch no request is sent, and every call that has pushed
has been released, or a worker is about to release it. -/
structure Stopped (s : State) : Prop where
  no_request : ∀ newer failure older, s.log = newer ++ failure :: older →
    failure.isWorkerRejected = true → ∀ event ∈ newer, event.isRequested = false
  released : s.WorkerFailed → ∀ c k, s.callers c = some k → k.phase = .pushed ∨ k.phase = .waiting →
    s.notified c = true ∨ ∃ w p, s.workers w = some p ∧ p.onFailurePath = true ∧
      ∃ e, e.notify = c ∧ (e ∈ p.held ∨ e ∈ s.queue)

end State

/-- After the failure of a worker's batch no forced refresh is sent, and nothing is pushed
once the queue has been emptied. -/
structure KeepsOut (s : State) (l : Label) : Prop where
  refresh : ∀ n, l = .send (.force n) → ¬ s.WorkerFailed
  push : ∀ c, l = .push c → s.WorkerFailed → s.Draining

/-- The worker has no open call, and holds nothing unless it is about to release it. -/
def WorkerPhase.harmless (p : WorkerPhase) : Bool :=
  p.onFailurePath || match p with
    | .calling _ _ | .notifying (_ :: _) _ => false
    | _ => true

/-- What is left of the queue and the workers after a failure. -/
structure State.Shut (s : State) : Prop where
  harmless : ∀ w p, s.workers w = some p → p.harmless = true
  empty : ¬ s.Draining → s.queue = []

/-- Nothing is requested after the failure of a worker's batch. -/
def Silent : List ServiceEvent → Prop
  | [] => True
  | event :: log => Silent log ∧ (log.any (·.isWorkerRejected) = true → event.isRequested = false)

variable {s t : State} {l : Label}

theorem Silent.no_request {log newer older : List ServiceEvent} {failure : ServiceEvent}
    (h : Silent log) (hlog : log = newer ++ failure :: older)
    (hfailure : failure.isWorkerRejected = true) : ∀ event ∈ newer, event.isRequested = false := by
  induction newer generalizing log with
  | nil => exact fun _ hevent => (List.not_mem_nil hevent).elim
  | cons event newer ih =>
    subst hlog
    intro e he
    obtain rfl | he := List.mem_cons.mp he
    · apply h.2
      exact List.any_eq_true.mpr ⟨failure, by simp, hfailure⟩
    · exact ih h.1 rfl e he

theorem WorkerPhase.held_stage (p : WorkerPhase) : p.stage.held = p.held := by
  cases p with
  | terminating _ _ resume => cases resume <;> rfl
  | _ => rfl

theorem WorkerPhase.active_of_onFailurePath {p : WorkerPhase} (h : p.onFailurePath = true) :
    p.stage.Active := by
  cases p with
  | calling _ _ | notifying _ _ | draining _ => trivial
  | _ => cases h

theorem WorkerPhase.harmless_of_idle {p : WorkerPhase} (h : ¬ p.stage.Active) : p.harmless = true := by
  cases p with
  | calling _ _ | notifying _ _ => exact absurd trivial h
  | _ => rfl

theorem WorkerPhase.onFailurePath_of_held {p : WorkerPhase} {e : QueuedCheckpoint}
    (h : p.harmless = true) (he : e ∈ p.held) : p.onFailurePath = true := by
  cases p with
  | calling _ _ => simpa [harmless] using h
  | notifying rest failure =>
    cases rest with
    | nil => exact (List.not_mem_nil he).elim
    | cons _ _ => simpa [harmless] using h
  | _ => exact (List.not_mem_nil he).elim

theorem State.Shut.worker (h : s.Shut) {w : Nat} {p : WorkerPhase}
    (hworkers : t.workers = Function.update s.workers w (some p)) (hp : p.harmless = true)
    (hdraining : p.onFailurePath = true ∨ ∀ q, s.workers w = some q → q.onFailurePath = false)
    (hqueue : t.queue = s.queue) : t.Shut := by
  refine ⟨fun v q hv => ?_, fun hnot => ?_⟩
  · rw [hworkers] at hv
    obtain hv | rfl := eq_or_of_update hv
    · exact h.harmless v q hv
    · exact hp
  · rw [hqueue]
    refine h.empty fun ⟨v, q, hv, hq⟩ => hnot ?_
    obtain hpath | hquiet := hdraining
    · exact ⟨w, p, by rw [hworkers, Function.update_self], hpath⟩
    · refine ⟨v, q, ?_, hq⟩
      rw [hworkers, Function.update_of_ne, hv]
      rintro rfl
      rw [hquiet q hv] at hq
      cases hq

theorem State.Shut.of_eq (h : s.Shut) (hworkers : t.workers = s.workers) (hqueue : t.queue = s.queue) :
    t.Shut := by
  refine ⟨fun w p hw => h.harmless w p (hworkers ▸ hw), fun hnot => ?_⟩
  rw [hqueue]
  refine h.empty fun ⟨w, p, hw, hp⟩ => hnot ⟨w, p, ?_, hp⟩
  rw [hworkers, hw]

theorem shut_of_failure {w : Nat} {batch : List QueuedCheckpoint} {call : BatchCall} {e : DurableError}
    (hsingle : ServedQueue.SingleWorker s.view) (hw : s.workers w = some (.calling batch call))
    (hworkers : t.workers = Function.update s.workers w (some (.calling batch (.finished (.error e))))) :
    t.Shut := by
  refine ⟨fun v q hv => ?_, fun hnot => absurd ⟨w, _, by rw [hworkers, Function.update_self], rfl⟩ hnot⟩
  rw [hworkers, Function.update_apply] at hv
  split at hv
  · obtain rfl := Option.some.inj hv
    rfl
  · rename_i hne
    apply WorkerPhase.harmless_of_idle
    intro hactive
    refine hne (hsingle.unique v w ?_ ?_)
    · rwa [view_workers hv]
    · rw [view_workers hw]
      trivial

/-- A worker that calls the service without having failed is none of a state after a failure. -/
theorem State.Shut.call (h : s.Shut) {r : State} {o : Owner} {batch : List QueuedCheckpoint}
    {call call' : BatchCall} (hcall : s.callOf o = some (batch, call))
    (hopen : (WorkerPhase.calling batch call).onFailurePath = false) (hworkers : r.workers = s.workers)
    (hqueue : r.queue = s.queue) : (r.setCall batch call' o).Shut := by
  cases o with
  | force n => exact h.of_eq hworkers hqueue
  | worker w =>
    have hharmless := h.harmless w _ (callOf_worker.mp hcall)
    rw [WorkerPhase.harmless, hopen] at hharmless
    cases hharmless

theorem workerFailed_setCall (r : State) (batch : List QueuedCheckpoint) (call : BatchCall) (o : Owner) :
    (r.setCall batch call o).WorkerFailed ↔ r.WorkerFailed := by
  rw [WorkerFailed, setCall_log]
  rfl

theorem State.Shut.step (h : s.WorkerFailed → s.Shut) (hm : Move s l t) (hkeeps : KeepsOut s l)
    (hsingle : ServedQueue.SingleWorker s.view) (hfailed : t.WorkerFailed) : t.Shut := by
  cases hm with
  | @reject o batch token e hcall _ | @fail o batch _ token e hcall =>
    rw [workerFailed_setCall] at hfailed
    cases o with
    | worker w => exact shut_of_failure hsingle (callOf_worker.mp hcall) rfl
    | force n => exact (h hfailed).of_eq rfl rfl
  | readToken hcall | send hcall _ | accept hcall | writeToken hcall | merge hcall =>
    rw [workerFailed_setCall] at hfailed
    exact (h hfailed).call hcall rfl rfl rfl
  | @take w hw hne =>
    have hshut := h hfailed
    obtain ⟨v, p, hv, hp⟩ : s.Draining := by
      by_contra hnot
      exact hne (hshut.empty hnot)
    obtain rfl : v = w := by
      apply hsingle.unique
      · rw [view_workers hv]
        exact WorkerPhase.active_of_onFailurePath hp
      · rw [view_workers hw]
        trivial
    rw [Option.some.inj (hv.symm.trans hw)] at hp
    cases hp
  | @push c k hk _ =>
    obtain ⟨w, p, hw, hp⟩ := hkeeps.push c rfl hfailed
    exact ⟨(h hfailed).harmless, fun hnot => absurd ⟨w, p, hw, hp⟩ hnot⟩
  | @startWorker _ w _ _ _ _ hw =>
    refine (h hfailed).worker rfl rfl (Or.inr fun q hq => ?_) rfl
    rw [hw] at hq
    cases hq
  | @finishOk w batch hw =>
    have hharmless := (h hfailed).harmless w _ hw
    cases hharmless
  | finishError hw | notifiedError hw => exact (h hfailed).worker rfl rfl (Or.inl rfl) rfl
  | @notify w c rest failure hw =>
    have hshut := h hfailed
    have hharmless := hshut.harmless w _ hw
    cases failure with
    | none => cases hharmless
    | some e => exact hshut.worker rfl rfl (Or.inl rfl) rfl
  | @drain w e hw =>
    refine ⟨fun v q hv => ?_, fun _ => rfl⟩
    obtain hv | rfl := eq_or_of_update hv
    · exact (h hfailed).harmless v q hv
    · rfl
  | quit hw _ | notifiedOk hw | release hw | notifyWaiters hw =>
    refine (h hfailed).worker rfl rfl (Or.inr fun q hq => ?_) rfl
    rw [← Option.some.inj (hw.symm.trans hq)]
    rfl
  | @workerTerminate w stage stage' result resume _ hw _ =>
    refine (h hfailed).worker rfl ?_ (Or.inr fun q hq => ?_) rfl
    · cases resume <;> split <;> rfl
    · rw [← Option.some.inj (hw.symm.trans hq)]
      rfl
  | checkRetry hw | recheckRetry hw =>
    refine (h hfailed).worker rfl ?_ (Or.inr fun q hq => ?_) rfl
    · split <;> rfl
    · rw [← Option.some.inj (hw.symm.trans hq)]
      rfl
  | _ => exact (h hfailed).of_eq rfl rfl

theorem Silent.step (h : Silent s.log) (hshut : s.WorkerFailed → s.Shut) (hm : Move s l t)
    (hkeeps : KeepsOut s l) : Silent t.log := by
  cases hm with
  | @send o batch token updates hcall _ =>
    rw [setCall_log]
    refine ⟨h, fun hfailed => ?_⟩
    cases o with
    | worker w =>
      have hharmless := (hshut hfailed).harmless w _ (callOf_worker.mp hcall)
      cases hharmless
    | force n => exact absurd hfailed (hkeeps.refresh n rfl)
  | reject _ _ | fail _ | accept _ =>
    rw [setCall_log]
    exact ⟨h, fun _ => rfl⟩
  | readToken _ | writeToken _ | merge _ =>
    rw [setCall_log]
    exact h
  | _ => exact h

theorem stopped_of_reachableBy {token : String} {stepData : Table}
    (h : (machine token stepData).ReachableBy KeepsOut s) : s.Stopped := by
  obtain ⟨hsilent, hshut⟩ : Silent s.log ∧ (s.WorkerFailed → s.Shut) := by
    refine h.invariant (I := fun s => Silent s.log ∧ (s.WorkerFailed → s.Shut)) ?_ ?_
    · rintro _ rfl
      exact ⟨trivial, fun hfailed => by cases hfailed⟩
    · intro s l t hs hinv hl hstep
      have hm := move_of_step hstep
      exact ⟨hinv.1.step hinv.2 hm hl, State.Shut.step hinv.2 hm hl (singleWorker hs)⟩
  refine ⟨fun _ _ _ hlog hfailure => hsilent.no_request hlog hfailure, fun hfailed c k hk hphase => ?_⟩
  have haccounted := ServedQueue.accounted_run (view_new_fresh token stepData)
    (simulated (fun _ _ => True) (fun _ _ _ _ _ => trivial) h)
  have hinside : s.view.callers c ≠ .outside := by
    rw [view_callers hk]
    rcases hphase with hp | hp <;> rw [hp] <;> nofun
  obtain hsignalled | ⟨e, rfl, hqueued | ⟨w, hheld⟩⟩ := haccounted c hinside
  · exact Or.inl hsignalled
  · obtain ⟨w, p, hw, hp⟩ : s.Draining := by
      by_contra hnot
      have hempty : s.queue = [] := (hshut hfailed).empty hnot
      rw [State.view, hempty] at hqueued
      cases hqueued
    exact Or.inr ⟨w, p, hw, hp, e, rfl, Or.inr hqueued⟩
  · cases hw : s.workers w with
    | none =>
      rw [view_workers_none hw] at hheld
      cases hheld
    | some p =>
      rw [view_workers hw, p.held_stage] at hheld
      have hp := WorkerPhase.onFailurePath_of_held ((hshut hfailed).harmless w p hw) hheld
      exact Or.inr ⟨w, p, hw, hp, e, rfl, Or.inl hheld⟩

def keptOut (s : State) : Label → Bool
  | .send (.force _) | .push _ => !s.log.any (·.isWorkerRejected)
  | _ => true

theorem keptOut_sound {s : State} {l : Label} (h : keptOut s l = true) : KeepsOut s l := by
  constructor
  · rintro n rfl hfailed
    rw [keptOut, show s.log.any (·.isWorkerRejected) = true from hfailed] at h
    cases h
  · rintro c rfl hfailed
    rw [keptOut, show s.log.any (·.isWorkerRejected) = true from hfailed] at h
    cases h

theorem stopped_of_reachableBy_rejectedRun : ∃ s : State, s.WorkerFailed ∧ s.Stopped := by
  have hend : ((machine "t0" fun _ => none).checkedRun keptOut (.new "t0" fun _ => none)
      rejectedRun).map (fun s => s.log.any (·.isWorkerRejected)) = some true := by decide +kernel
  obtain ⟨s, hrun, hs⟩ := Option.map_eq_some_iff.mp hend
  refine ⟨s, hs, @stopped_of_reachableBy s "t0" (fun _ => none) ?_⟩
  exact Transition.Machine.checkedRun_reachableBy (fun _ _ _ hok => keptOut_sound hok) _ (.init rfl) hrun

/-- The second call has passed the terminating check when the first one's batch fails, and
pushes after the worker has emptied the queue. -/
def latePush : List Label :=
  pushLabels 0 "a" ++ (pushLabels 1 "b").dropLast ++
    [.maybeStart 0 0, .takeBatch 0, .readToken (.worker 0), .send (.worker 0),
      .respond (.worker 0) (.error (.awsSdk "throttled")), .finishBatch 0, .notify 0, .notify 0,
      .drain 0, .push 1, .maybeStart 1 1]

theorem latePush_strands : ¬ ∀ s, (machine "t0" fun _ => none).Reachable s → s.Stopped := by
  intro h
  have hend : ((machine "t0" fun _ => none).run (.new "t0" fun _ => none) latePush).map
      (fun s => ((s.callers 1).map (·.phase), s.notified 1, s.log.any (·.isWorkerRejected),
        s.workers 0)) = some (some .waiting, false, true,
          some (.terminating .waiting (.withError .checkpointFailed (.awsSdk "throttled")) .leave)) := by
    decide +kernel
  obtain ⟨s, hrun, hs⟩ := Option.map_eq_some_iff.mp hend
  simp only [Prod.mk.injEq, Option.map_eq_some_iff] at hs
  obtain ⟨⟨k, hk, hphase⟩, hnotified, hfailed, hw⟩ := hs
  have hreach := Transition.Machine.run_reachable rfl latePush hrun
  obtain hyes | ⟨v, p, hv, hp, -⟩ := (h s hreach).released hfailed 1 k hk (Or.inr hphase)
  · rw [hnotified] at hyes
    cases hyes
  · have hactive : v = 0 := by
      apply (singleWorker hreach).unique
      · rw [view_workers hv]
        exact WorkerPhase.active_of_onFailurePath hp
      · rw [view_workers hw]
        trivial
    rw [hactive, hw] at hv
    rw [← Option.some.inj hv] at hp
    cases hp

end LambdaDurable.CheckpointManager
