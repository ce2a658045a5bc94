import LambdaDurable.Checkpoint.Stream

/-!
# Where a published suspension comes from

A call of `terminate` asked for it, or a worker has seen an operation that waits for a retry. The
worker goes by what has been noted, and a RETRY is noted before it is queued. When the queue is
found empty with no worker on it, the service has all that was queued.
-/

namespace LambdaDurable.CheckpointManager

open State

variable {s t : State} {l : Label}

/-- A call has queued the update. -/
def Pushed (s : State) (u : OperationUpdate) : Prop :=
  ∃ c k, s.callers c = some k ∧ k.update = u ∧ k.phase.hasPushed = true

/-- The update is in an acknowledged batch. -/
def Delivered (s : State) (u : OperationUpdate) : Prop :=
  u ∈ (acceptedEntries s.log).map (·.update)

/-- Some call has queued a RETRY. -/
def RetryPushed (s : State) : Prop := ∃ u, Pushed s u ∧ u.action = .retry

/-- Some call has noted a RETRY, and queued it or not. -/
def RetryNoted (s : State) : Prop :=
  ∃ c k, s.callers c = some k ∧ k.update.action = .retry ∧
    (k.phase = .tracked ∨ k.phase.hasPushed = true)

/-- Who is behind a suspension. -/
def Announces (s : State) (result : TerminationResult) : Prop :=
  (∃ n k, s.terminators n = some k ∧ k.result = result) ∨ RetryPushed s

/-- No RETRY is noted but not queued yet when a worker looks for the second time. -/
def Prompt (s : State) (l : Label) : Prop :=
  ∀ w, l = .recheckRetry w → ∀ c k, s.callers c = some k → k.update.action = .retry →
    k.phase ≠ .tracked

/-! ## What stays -/

theorem Pushed.step {u : OperationUpdate} (h : Pushed s u) (hm : Move s l t) : Pushed t u := by
  obtain ⟨c, k, hk, rfl, hp⟩ := h
  obtain ⟨k', hk', hqueued, hp'⟩ := hm.hasPushed hk hp
  exact ⟨c, k', hk', congrArg QueuedCheckpoint.update hqueued, hp'⟩

theorem Delivered.step {u : OperationUpdate} (h : Delivered s u) (hm : Move s l t) :
    Delivered t u := by
  unfold Delivered at h ⊢
  obtain ⟨hsame, -⟩ | ⟨_, _, _, _, _, -, -, happend⟩ := hm.acceptedEntries
  · rwa [hsame]
  · rw [happend, List.map_append]
    exact List.mem_append_left _ h

theorem RetryPushed.step (h : RetryPushed s) (hm : Move s l t) : RetryPushed t := by
  obtain ⟨u, hu, haction⟩ := h
  exact ⟨u, hu.step hm, haction⟩

theorem Move.tracked (hm : Move s l t) {c : Nat} {k : Caller} (hk : s.callers c = some k)
    (hp : k.phase = .tracked) : ∃ k', t.callers c = some k' ∧ k'.update = k.update ∧
      (k'.phase = .tracked ∨ k'.phase.hasPushed = true) := by
  have moved : ∀ {d : Nat} {j : Caller} {p : CallerPhase}, s.callers d = some j →
      (j.phase = .tracked → p.hasPushed = true) →
      t.callers = Function.update s.callers d (some { j with phase := p }) →
      ∃ k', t.callers c = some k' ∧ k'.update = k.update ∧
        (k'.phase = .tracked ∨ k'.phase.hasPushed = true) := by
    intro d j p hj hphase hcallers
    rw [hcallers]
    by_cases hcd : c = d
    · subst hcd
      obtain rfl : j = k := Option.some.inj (hj.symm.trans hk)
      exact ⟨_, Function.update_self .., rfl, Or.inr (hphase hp)⟩
    · exact ⟨k, (Function.update_of_ne hcd _ _).trans hk, rfl, Or.inl hp⟩
  cases hm with
  | @call d kind stepId update hd =>
    have hcd : c ≠ d := by
      rintro rfl
      rw [hd] at hk
      cases hk
    exact ⟨k, (Function.update_of_ne hcd _ _).trans hk, rfl, Or.inl hp⟩
  | checkTerminating hj hphase | checkAncestor hj hphase | track hj hphase | wake hj hphase _
  | startBusy hj hphase _ | startWorker hj hphase _ _ =>
    refine moved hj (fun htracked => ?_) rfl
    rw [hphase] at htracked
    cases htracked
  | push hj _ => exact moved hj (fun _ => rfl) rfl
  | readToken _ | reject _ _ | send _ _ | fail _ | accept _ | writeToken _ | merge _ =>
    exact ⟨k, by rw [setCall_callers]; exact hk, rfl, Or.inl hp⟩
  | _ => exact ⟨k, hk, rfl, Or.inl hp⟩

theorem RetryNoted.step (h : RetryNoted s) (hm : Move s l t) : RetryNoted t := by
  obtain ⟨c, k, hk, haction, hp | hp⟩ := h
  · obtain ⟨k', hk', hupdate, hp'⟩ := hm.tracked hk hp
    exact ⟨c, k', hk', hupdate ▸ haction, hp'⟩
  · obtain ⟨c', k', hk', hupdate, hp'⟩ := Pushed.step ⟨c, k, hk, rfl, hp⟩ hm
    exact ⟨c', k', hk', hupdate ▸ haction, Or.inr hp'⟩

theorem setCall_terminators (s : State) (batch : List QueuedCheckpoint) (call : BatchCall)
    (o : Owner) : (s.setCall batch call o).terminators = s.terminators := by
  cases o <;> rfl

theorem Move.terminator_stays (hm : Move s l t) {n : Nat} {k : Terminator}
    (hk : s.terminators n = some k) : ∃ k', t.terminators n = some k' ∧ k'.result = k.result := by
  have same : t.terminators = s.terminators → ∃ k', t.terminators n = some k' ∧ k'.result = k.result := by
    intro hsame
    rw [hsame]
    exact ⟨k, hk, rfl⟩
  cases hm with
  | @terminate m result hm =>
    have hnm : n ≠ m := by
      rintro rfl
      rw [hm] at hk
      cases hk
    exact ⟨k, (Function.update_of_ne hnm _ _).trans hk, rfl⟩
  | @advanceTerminate m j _ stage hj _ =>
    by_cases hnm : n = m
    · subst hnm
      obtain rfl : j = k := Option.some.inj (hj.symm.trans hk)
      exact ⟨_, Function.update_self .., rfl⟩
    · exact ⟨k, (Function.update_of_ne hnm _ _).trans hk, rfl⟩
  | readToken _ | reject _ _ | send _ _ | fail _ | accept _ | writeToken _ | merge _ =>
    exact same (setCall_terminators ..)
  | _ => exact same rfl

theorem Move.terminators_cases (hm : Move s l t) {n : Nat} {k : Terminator}
    (hk : t.terminators n = some k) :
    (∃ j, s.terminators n = some j ∧ j.result = k.result) ∨ l = .terminate n k.result := by
  have same : t.terminators = s.terminators → ∃ j, s.terminators n = some j ∧ j.result = k.result := by
    intro hsame
    exact ⟨k, hsame ▸ hk, rfl⟩
  cases hm with
  | @terminate m result hm =>
    by_cases hnm : n = m
    · subst hnm
      obtain rfl := Option.some.inj ((Function.update_self n _ s.terminators).symm.trans hk)
      exact Or.inr rfl
    · exact Or.inl ⟨k, (Function.update_of_ne hnm _ _).symm.trans hk, rfl⟩
  | @advanceTerminate m j _ stage hj _ =>
    by_cases hnm : n = m
    · subst hnm
      obtain rfl := Option.some.inj ((Function.update_self n _ s.terminators).symm.trans hk)
      exact Or.inl ⟨j, hj, rfl⟩
    · exact Or.inl ⟨k, (Function.update_of_ne hnm _ _).symm.trans hk, rfl⟩
  | readToken _ | reject _ _ | send _ _ | fail _ | accept _ | writeToken _ | merge _ =>
    exact Or.inl (same (setCall_terminators ..))
  | _ => exact Or.inl (same rfl)

theorem Announces.step {result : TerminationResult} (h : Announces s result) (hm : Move s l t) :
    Announces t result := by
  obtain ⟨n, k, hk, rfl⟩ | hpushed := h
  · obtain ⟨k', hk', hresult⟩ := hm.terminator_stays hk
    exact Or.inl ⟨n, k', hk', hresult⟩
  · exact Or.inr (hpushed.step hm)

/-! ## What is noted -/

theorem anyRetryWaiting_markAwaited (ops : Lifecycles) (operationId : String) :
    anyRetryWaiting (markAwaited ops operationId) = anyRetryWaiting ops := by
  unfold anyRetryWaiting markAwaited
  rw [List.any_map]
  congr 1
  funext info
  simp only [Function.comp_apply]
  split
  · split
    · rename_i hlifecycle
      simp [hlifecycle]
    · rfl
  · rfl

/-- An operation that waits for a retry was so before, or the update notes it. -/
theorem anyRetryWaiting_update {ops : Lifecycles} {u : OperationUpdate}
    (h : anyRetryWaiting (updateOperationLifecycle ops u) = true) :
    anyRetryWaiting ops = true ∨ u.action = .retry := by
  obtain ⟨info, hmem, hinfo⟩ := List.any_eq_true.mp h
  obtain rfl | hmem := List.mem_cons.mp hmem
  · right
    cases haction : u.action with
    | retry => rfl
    | start =>
      simp only [haction] at hinfo
      split at hinfo
      · split at hinfo <;> cases hinfo
      · cases hinfo
    | succeed | fail | cancel =>
      simp only [haction] at hinfo
      cases hinfo
  · exact Or.inl (List.any_eq_true.mpr ⟨info, (List.mem_filter.mp hmem).1, hinfo⟩)

/-- A worker terminates the invocation after a failed batch, or for a retry. -/
theorem Move.terminating_cases (hm : Move s l t) {w : Nat} {stage : TerminateStage}
    {result : TerminationResult} {resume : Resume}
    (hw : t.workers w = some (.terminating stage result resume)) :
    (∃ stage', s.workers w = some (.terminating stage' result resume)) ∨
      result.reason = .checkpointFailed ∨
      l = .recheckRetry w ∧ anyRetryWaiting s.operations = true := by
  have worker : ∀ {v : Nat} {p : WorkerPhase}, t.workers = Function.update s.workers v (some p) →
      p ≠ .terminating stage result resume →
      ∃ stage', s.workers w = some (.terminating stage' result resume) := by
    intro v p hworkers hp
    rw [hworkers] at hw
    exact ⟨stage, (eq_or_of_update hw).resolve_right hp⟩
  have called : ∀ {r : State} {batch : List QueuedCheckpoint} {call : BatchCall} {o : Owner},
      t = r.setCall batch call o → r.workers = s.workers →
      ∃ stage', s.workers w = some (.terminating stage' result resume) := by
    rintro r batch call (v | n) rfl hworkers
    · exact worker (v := v) (p := .calling batch call) (hworkers ▸ rfl) (by rintro ⟨⟩)
    · exact ⟨stage, hworkers ▸ hw⟩
  cases hm with
  | readToken _ | reject _ _ | send _ _ | fail _ | accept _ | writeToken _ | merge _ =>
    exact Or.inl (called rfl rfl)
  | startWorker _ _ _ _ | quit _ _ | take _ _ | finishOk _ | finishError _ | notify _ | notifiedOk _
  | notifiedError _ | release _ | notifyWaiters _ => exact Or.inl (worker rfl (by rintro ⟨⟩))
  | checkRetry _ =>
    refine Or.inl (worker rfl ?_)
    split <;> rintro ⟨⟩
  | @drain v e hv =>
    obtain hbefore | heq := eq_or_of_update hw
    · exact Or.inl ⟨stage, hbefore⟩
    · cases heq
      exact Or.inr (Or.inl rfl)
  | @recheckRetry v hv =>
    by_cases hvw : v = w
    · subst hvw
      refine Or.inr (Or.inr ⟨rfl, ?_⟩)
      by_contra hnone
      rw [if_neg hnone] at hw
      have htop : (s.setWorker v .top).workers v = some .top := Function.update_self ..
      rw [htop] at hw
      cases hw
    · exact Or.inl ⟨stage, (Function.update_of_ne (Ne.symm hvw) _ _).symm.trans hw⟩
  | @workerTerminate v stage' stage'' result' resume' _ hv hadv =>
    obtain hbefore | heq := eq_or_of_update hw
    · exact Or.inl ⟨stage, hbefore⟩
    · split at heq
      · cases resume' <;> cases heq
      · cases heq
        by_cases hvw : v = w
        · exact Or.inl ⟨stage', hvw ▸ hv⟩
        · exact Or.inl ⟨stage, (Function.update_of_ne (Ne.symm hvw) _ _).symm.trans hw⟩
  | _ => exact Or.inl ⟨stage, hw⟩

/-- What is noted, and what workers and calls publish, goes back to a call. -/
structure Announced (s : State) : Prop where
  noted : anyRetryWaiting s.operations = true → RetryNoted s
  worker : ∀ w stage result resume, s.workers w = some (.terminating stage result resume) →
    result.reason.isSuspension = true → RetryPushed s
  published : ∀ result, s.termination.published = some result →
    result.reason.isSuspension = true → Announces s result

theorem announced_new (token : String) (stepData : Table) : Announced (.new token stepData) where
  noted h := by cases h
  worker _ _ _ _ hw := by cases hw
  published _ hp := by cases hp

theorem Move.noted (hm : Move s l t) (h : anyRetryWaiting t.operations = true) :
    anyRetryWaiting s.operations = true ∨ RetryNoted t := by
  have same : t.operations = s.operations → anyRetryWaiting s.operations = true := by
    intro hsame
    rwa [hsame] at h
  have hcall : ∀ (r : State) batch call o, (r.setCall batch call o).operations = r.operations := by
    intro r batch call o
    cases o <;> rfl
  cases hm with
  | @track c k hk hp =>
    refine (anyRetryWaiting_update h).imp_right fun haction => ?_
    exact ⟨c, _, Function.update_self .., haction, Or.inl rfl⟩
  | markAwaited =>
    left
    rwa [← anyRetryWaiting_markAwaited s.operations]
  | readToken _ | reject _ _ | send _ _ | fail _ | accept _ | writeToken _ | merge _ =>
    exact Or.inl (same (hcall ..))
  | _ => exact Or.inl (same rfl)

theorem Announced.step (h : Announced s) (hm : Move s l t) (hl : Prompt s l) : Announced t where
  noted hnoted := by
    obtain hbefore | hnow := hm.noted hnoted
    · exact (h.noted hbefore).step hm
    · exact hnow
  worker w stage result resume hw hsuspension := by
    obtain ⟨stage', hbefore⟩ | hfailed | ⟨rfl, hwaiting⟩ := hm.terminating_cases hw
    · exact (h.worker w stage' result resume hbefore hsuspension).step hm
    · rw [hfailed] at hsuspension
      cases hsuspension
    · obtain ⟨c, k, hk, haction, hp⟩ := h.noted hwaiting
      have hpushed := hp.resolve_left (hl w rfl c k hk haction)
      exact RetryPushed.step ⟨k.update, ⟨c, k, hk, rfl, hpushed⟩, haction⟩ hm
  published result hp hsuspension := by
    obtain hbefore | ⟨n, stage, hn, -⟩ | ⟨w, stage, resume, hw, -⟩ := hm.published hp
    · exact (h.published result hbefore hsuspension).step hm
    · exact Announces.step (Or.inl ⟨n, _, hn, rfl⟩) hm
    · exact Announces.step (Or.inr (h.worker w stage result resume hw hsuspension)) hm

theorem announced {token : String} {stepData : Table} {allow : State → Label → Prop}
    (hallow : ∀ s l, allow s l → Prompt s l) (h : (machine token stepData).ReachableBy allow s) :
    Announced s := by
  refine h.invariant ?_ fun s l s' _ hs hl hstep => hs.step (move_of_step hstep) (hallow s l hl)
  rintro _ rfl
  exact announced_new ..

/-! ## What is queued -/

/-- What the calls have pushed, all of it. -/
theorem stream_complete {token : String} {stepData : Table}
    (h : (machine token stepData).ReachableBy NoneRejected s) : ∃ pushed, s.Stream pushed ∧
      ∀ c k, s.callers c = some k → k.phase.hasPushed = true → k.queued c ∈ pushed := by
  refine h.invariant (I := fun s => ∃ pushed, s.Stream pushed ∧
    ∀ c k, s.callers c = some k → k.phase.hasPushed = true → k.queued c ∈ pushed) ?_ ?_
  · rintro _ rfl
    exact ⟨[], stream_new .., fun _ _ hk => by cases hk⟩
  · intro s l s' hr ⟨pushed, hstream, hall⟩ hl hstep
    have hm := move_of_step hstep
    refine ⟨_, hstream.of_reachable hr hl hm, fun c k' hk' hp => ?_⟩
    obtain ⟨k, hk, -, hqueued, hphase, -⟩ | ⟨-, _, _, _, -, rfl⟩ := hm.callers_cases hk'
    · rw [hqueued]
      obtain hsame | rfl := hphase
      · exact List.mem_append_left _ (hall c k hk (hsame ▸ hp))
      · apply List.mem_append_right
        simp [pushes, hk]
    · cases hp

theorem unanswered_of_idle (hsingle : ServedQueue.SingleWorker s.view) (hidle : s.isProcessing = false)
    (w : Nat) : s.unanswered w = [] := by
  have hnot := hsingle.not_active hidle w
  cases hw : s.workers w with
  | none => simp [State.unanswered, hw]
  | some p =>
    rw [unanswered_of_some hw]
    rw [view_workers hw] at hnot
    cases p with
    | calling batch call => exact absurd trivial hnot
    | _ => rfl

/-- Once the queue is empty and no worker is on it, the service has what was queued. -/
theorem Pushed.delivered {token : String} {stepData : Table} {u : OperationUpdate} (hu : Pushed s u)
    (h : (machine token stepData).ReachableBy NoneRejected s) (hqueue : s.queue = [])
    (hidle : s.isProcessing = false) : Delivered s u := by
  obtain ⟨c, k, hk, rfl, hp⟩ := hu
  obtain ⟨pushed, hstream, hall⟩ := stream_complete h
  obtain ⟨w, -, horder⟩ := hstream.order
  have hmem := hall c k hk hp
  rw [← horder, hqueue, unanswered_of_idle (singleWorker h) hidle, List.append_nil,
    List.append_nil] at hmem
  exact List.mem_map_of_mem hmem

/-- The call behind a suspension has asked for it, or the service has its RETRY. -/
def Confirmed (s : State) (result : TerminationResult) : Prop :=
  (∃ n k, s.terminators n = some k ∧ k.result = result) ∨
    ∃ u, Pushed s u ∧ u.action = .retry ∧ Delivered s u

theorem Announces.confirmed {result : TerminationResult} (h : Announces s result) {token : String}
    {stepData : Table} (hs : (machine token stepData).ReachableBy NoneRejected s)
    (hqueue : s.queue = []) (hidle : s.isProcessing = false) : Confirmed s result := by
  obtain hterminator | ⟨u, hu, haction⟩ := h
  · exact Or.inl hterminator
  · exact Or.inr ⟨u, hu, haction, hu.delivered hs hqueue hidle⟩

theorem Confirmed.step {result : TerminationResult} (h : Confirmed s result) (hm : Move s l t) :
    Confirmed t result := by
  obtain ⟨n, k, hk, rfl⟩ | ⟨u, hu, haction, hdelivered⟩ := h
  · obtain ⟨k', hk', hresult⟩ := hm.terminator_stays hk
    exact Or.inl ⟨n, k', hk', hresult⟩
  · exact Or.inr ⟨u, hu.step hm, haction, hdelivered.step hm⟩

/-- A waiter returns when the queue is empty and no worker is on it. -/
theorem Move.waiter_cases (hm : Move s l t) {q : Nat} {k : Waiter} (hk : t.waiters q = some k)
    (hp : k.phase = .returned) :
    (∃ j, s.waiters q = some j ∧ j.phase = .returned) ∨ s.queue = [] ∧ s.isProcessing = false := by
  have updated : ∀ {p : Nat} {j : Waiter}, t.waiters = Function.update s.waiters p (some j) →
      (j.phase = .returned → s.queue = [] ∧ s.isProcessing = false) →
      (∃ j, s.waiters q = some j ∧ j.phase = .returned) ∨ s.queue = [] ∧ s.isProcessing = false := by
    intro p j hwaiters hj
    rw [hwaiters] at hk
    obtain hbefore | rfl := eq_or_of_update hk
    · exact Or.inl ⟨k, hbefore, hp⟩
    · exact Or.inr (hj hp)
  cases hm with
  | startWait _ | wakeWaiter _ _ _ => exact updated rfl (by rintro ⟨⟩)
  | checkQueue _ _ =>
    refine updated rfl fun hreturned => ?_
    by_contra hbusy
    rw [if_neg hbusy] at hreturned
    cases hreturned
  | notifyWaiters _ =>
    obtain ⟨j, hj, rfl⟩ := Option.map_eq_some_iff.mp hk
    exact Or.inl ⟨j, hj, hp⟩
  | @readToken o _ _ | @reject o _ _ _ _ _ | @send o _ _ _ _ _ | @fail o _ _ _ _ _
  | @accept o _ _ _ _ _ | @writeToken o _ _ _ | @merge o _ _ _ =>
    cases o <;> exact Or.inl ⟨k, hk, hp⟩
  | _ => exact Or.inl ⟨k, hk, hp⟩

end LambdaDurable.CheckpointManager
