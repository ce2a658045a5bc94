import LambdaDurable.Checkpoint.Published
import LambdaDurable.Library.Scheduling

/-!
# When the wait for the queue ends

The runtime answers once `wait_for_queue_completion` has returned. Whatever the service answers, the
worker gets through its loop, past the lock of the termination manager, and wakes the waiters: the
wait ends, unless the last checkpoint was queued when the worker no longer looked and its caller
found the flag still up.
-/

namespace LambdaDurable.CheckpointManager

open State

variable {token : String} {stepData : Table} {s t : State} {l : Label}

/-- What the service answers is not up to the scheduler. -/
def Label.turn : Label → Label
  | .respond o _ => .respond o (.ok {})
  | l => l

/-- No call queues an update. -/
def Label.Unpushed (l : Label) : Prop := ∀ c, l ≠ .push c

def Label.isAlone : Label → Bool
  | .push _ | .respond _ _ => false
  | _ => true

/-- The wait has returned. -/
def Completed (q : Nat) (s : State) : Prop := ∃ k, s.waiters q = some k ∧ k.phase = .returned

/-- The queue holds updates that no worker will take and no call is about to start a worker for. -/
structure Abandoned (s : State) : Prop where
  queue : s.queue ≠ []
  inLoop : ¬ ∃ w p, s.workers w = some p ∧ p.InLoop
  starting : ∀ c, ¬ s.Starting c

theorem abandoned_iff : Abandoned s ↔ ServedQueue.Abandoned s.view := by
  constructor
  · intro h
    refine ⟨h.queue, fun w hw => h.inLoop (exists_inLoop_iff.mpr ⟨w, hw⟩), fun c hc => ?_⟩
    exact h.starting c (starting_of_view hc)
  · intro h
    refine ⟨h.pending, fun hloop => ?_, ?_⟩
    · obtain ⟨w, hw⟩ := exists_inLoop_iff.mp hloop
      exact h.looping w hw
    · rintro c ⟨k, hk, hp⟩
      apply h.pushed c
      rw [view_callers hk, hp]
      rfl

/-! ## Turns -/

theorem eq_of_turn (hl : l.isAlone = true) {l' : Label} (h : l'.turn = l.turn) : l' = l := by
  have hturn : l.turn = l := by
    cases l with
    | respond _ _ => cases hl
    | _ => rfl
  rw [hturn] at h
  cases l' with
  | respond _ _ =>
    subst h
    cases hl
  | _ => exact h

theorem unpushed_of_isAlone (hl : l.isAlone = true) : l.Unpushed := by
  rintro c rfl
  cases hl

theorem respond_of_turn {o : Owner} {answer : Except DurableError CheckpointResponse} {l' : Label}
    (h : l'.turn = Label.turn (.respond o answer)) : ∃ answer', l' = .respond o answer' := by
  cases l' with
  | respond o' answer' =>
    cases h
    exact ⟨answer', rfl⟩
  | _ => cases h

/-- While nothing is pushed. -/
abbrev Leads (token : String) (stepData : Table) (goal : State → Prop) (s : State) : Prop :=
  (machine token stepData).Leads Label.turn Label.Unpushed goal s

variable {goal : State → Prop}

theorem leads_of_move (hm : Move s l t) (hl : l.isAlone = true) (h : Leads token stepData goal t) :
    Leads token stepData goal s :=
  .only (fun _ hturn => eq_of_turn hl hturn) (unpushed_of_isAlone hl) hm.step_eq h

theorem leads_now (hm : Move s l t) (hl : l.isAlone = true) (h : goal t) :
    Leads token stepData goal s :=
  leads_of_move hm hl (.here h)

theorem leads_of_answer {o : Owner} {batch : List QueuedCheckpoint} {sent : String}
    {updates : List OperationUpdate} (hcall : s.callOf o = some (batch, .inFlight sent updates))
    (h : ∀ answer t, Move s (.respond o answer) t → Leads token stepData goal t) :
    Leads token stepData goal s := by
  have hanswer : step s (.respond o (.ok {})) = some _ := (Move.accept hcall).step_eq
  refine .turn (l := .respond o (.ok {})) (by rintro _ ⟨⟩) hanswer fun l' t' hturn hstep => ?_
  obtain ⟨answer, rfl⟩ := respond_of_turn hturn
  exact h answer t' (move_of_step hstep)

/-! ## Room for a new worker -/

theorem Move.workers_cases (hm : Move s l t) : t.workers = s.workers ∨
    ∃ w p, t.workers = Function.update s.workers w (some p) := by
  cases hm with
  | startWorker _ _ _ _ | quit _ _ | take _ _ | finishOk _ | finishError _ | notify _ | notifiedOk _
  | notifiedError _ | drain _ | workerTerminate _ _ | checkRetry _ | recheckRetry _ | release _
  | notifyWaiters _ => exact Or.inr ⟨_, _, rfl⟩
  | @readToken o _ _ | @reject o _ _ _ _ _ | @send o _ _ _ _ _ | @fail o _ _ _ _ _
  | @accept o _ _ _ _ _ | @writeToken o _ _ _ | @merge o _ _ _ =>
    cases o with
    | worker w => exact Or.inr ⟨_, _, rfl⟩
    | force n => exact Or.inl rfl
  | _ => exact Or.inl rfl

theorem exists_absent (h : (machine token stepData).Reachable s) : ∃ w, s.workers w = none := by
  have hbound : ∃ n, ∀ w, n ≤ w → s.workers w = none := by
    refine h.invariant (I := fun s => ∃ n, ∀ w, n ≤ w → s.workers w = none) ?_ ?_
    · rintro _ rfl
      exact ⟨0, fun _ _ => rfl⟩
    · rintro s l s' - ⟨n, hn⟩ hstep
      obtain hsame | ⟨w, p, hworkers⟩ := (move_of_step hstep).workers_cases
      · exact ⟨n, fun v hv => hsame ▸ hn v hv⟩
      · refine ⟨max n (w + 1), fun v hv => ?_⟩
        rw [hworkers, Function.update_of_ne (by omega)]
        exact hn v (by omega)
  obtain ⟨n, hn⟩ := hbound
  exact ⟨n, hn n le_rfl⟩

/-! ## The lock of the termination manager -/

/-- A `terminate` call that has returned is not waited for. -/
def Unstuck (s : State) : Prop :=
  ∀ w result resume, s.workers w ≠ some (.terminating .returned result resume)

theorem Unstuck.worker (h : Unstuck s) {w : Nat} {p : WorkerPhase}
    (hworkers : t.workers = Function.update s.workers w (some p))
    (hp : ∀ result resume, p ≠ .terminating .returned result resume) : Unstuck t := by
  intro v result resume hv
  rw [hworkers] at hv
  obtain hv | rfl := eq_or_of_update hv
  · exact h v result resume hv
  · exact hp result resume rfl

theorem Unstuck.step (h : Unstuck s) (hm : Move s l t) : Unstuck t := by
  cases hm with
  | startWorker _ _ _ _ | quit _ _ | take _ _ | finishOk _ | finishError _ | notify _ | notifiedOk _
  | notifiedError _ | drain _ | release _ | notifyWaiters _ =>
    exact h.worker rfl (by rintro _ _ ⟨⟩)
  | checkRetry _ | recheckRetry _ =>
    refine h.worker rfl fun result resume => ?_
    split <;> rintro ⟨⟩
  | @workerTerminate w stage stage' result resume _ _ _ =>
    refine h.worker rfl fun result' resume' heq => ?_
    split at heq
    · cases resume <;> cases heq
    · rename_i hstage
      cases heq
      exact hstage rfl
  | @readToken o _ _ | @reject o _ _ _ _ _ | @send o _ _ _ _ _ | @fail o _ _ _ _ _
  | @accept o _ _ _ _ _ | @writeToken o _ _ _ | @merge o _ _ _ =>
    cases o with
    | worker w => exact h.worker rfl (by rintro _ _ ⟨⟩)
    | force n => exact h
  | _ => exact h

theorem unstuck (h : (machine token stepData).Reachable s) : Unstuck s := by
  refine h.invariant ?_ fun s l s' _ hs hstep => hs.step (move_of_step hstep)
  rintro _ rfl _ _ _ hw
  cases hw

/-- Whoever has locked the flag is on the way to its result. -/
def Held (s : State) : Prop := s.termination.locked = true → ∃ result, s.Accepting result

theorem Held.of_same (h : Held s) (hworkers : t.workers = s.workers)
    (hterminators : t.terminators = s.terminators) (htermination : t.termination = s.termination) :
    Held t := by
  unfold Held Accepting at h ⊢
  rwa [hworkers, hterminators, htermination]

/-- A worker moves that is not in a `terminate` call. -/
theorem Held.worker (h : Held s) {w : Nat} {p : WorkerPhase}
    (hw : ∀ stage result resume, s.workers w ≠ some (.terminating stage result resume))
    (hworkers : t.workers = Function.update s.workers w (some p))
    (hterminators : t.terminators = s.terminators) (htermination : t.termination = s.termination) :
    Held t := by
  intro hlocked
  rw [htermination] at hlocked
  obtain ⟨result, ⟨n, stage, hn, hstage⟩ | ⟨v, stage, resume, hv, hstage⟩⟩ := h hlocked
  · exact ⟨result, Or.inl ⟨n, stage, hterminators ▸ hn, hstage⟩⟩
  · have hne : v ≠ w := by
      rintro rfl
      exact hw stage result resume hv
    refine ⟨result, Or.inr ⟨v, stage, resume, ?_, hstage⟩⟩
    rw [hworkers, Function.update_of_ne hne, hv]

theorem holds_of_advance {m m' : Termination} {result : TerminationResult} {g g' : TerminateStage}
    (h : m.advance result g = some (m', g')) (hlocked : m'.locked = true) :
    g' = .flagged ∨ g' = .signalled := by
  obtain ⟨-, hfree, -, rfl, -⟩ | ⟨-, -, -, rfl, -⟩ | ⟨-, rfl, -⟩ | ⟨-, -, rfl⟩ :=
    Termination.advance_cases h
  · rw [hfree] at hlocked
    cases hlocked
  · exact Or.inl rfl
  · exact Or.inr rfl
  · cases hlocked

theorem Held.step (h : Held s) (hm : Move s l t) : Held t := by
  cases hm with
  | startWorker _ _ _ hw | quit hw _ | take hw _ | finishOk hw | finishError hw | notify hw
  | notifiedOk hw | notifiedError hw | drain hw | checkRetry hw | recheckRetry hw | release hw
  | notifyWaiters hw =>
    refine h.worker (fun stage result resume hterminating => ?_) rfl rfl rfl
    rw [hw] at hterminating
    cases hterminating
  | @readToken o _ hcall | @reject o _ _ _ hcall _ | @send o _ _ _ hcall _ | @fail o _ _ _ _ hcall
  | @accept o _ _ _ _ hcall | @writeToken o _ _ hcall | @merge o _ _ hcall =>
    cases o with
    | worker w =>
      refine h.worker (fun stage result resume hterminating => ?_) rfl rfl rfl
      rw [callOf_worker.mp hcall] at hterminating
      cases hterminating
    | force n => exact h.of_same rfl rfl rfl
  | @workerTerminate w stage stage' result resume m hw hadv =>
    intro hlocked
    have hholds := holds_of_advance hadv hlocked
    have hgoing : stage' ≠ .returned := by
      rintro rfl
      cases hholds with
      | inl heq => cases heq
      | inr heq => cases heq
    refine ⟨result, Or.inr ⟨w, stage', resume, ?_, hholds⟩⟩
    rw [if_neg hgoing]
    exact Function.update_self ..
  | @advanceTerminate n k m stage hk hadv =>
    intro hlocked
    exact ⟨k.result, Or.inl ⟨n, stage, Function.update_self .., holds_of_advance hadv hlocked⟩⟩
  | @terminate n result hn =>
    intro hlocked
    obtain ⟨r, ⟨m, stage, hm, hstage⟩ | hworker⟩ := h hlocked
    · have hne : m ≠ n := by
        rintro rfl
        rw [hn] at hm
        cases hm
      exact ⟨r, Or.inl ⟨m, stage, (Function.update_of_ne hne _ _).trans hm, hstage⟩⟩
    · exact ⟨r, Or.inr hworker⟩
  | _ => exact h.of_same rfl rfl rfl

theorem held (h : (machine token stepData).Reachable s) : Held s := by
  refine h.invariant ?_ fun s l s' _ hs hstep => hs.step (move_of_step hstep)
  rintro _ rfl hlocked
  cases hlocked

/-- Only a worker that has left the loop is not active. -/
theorem active_of_phase {w : Nat} {p : WorkerPhase} (hw : s.workers w = some p)
    (hp : p ≠ .leaving ∧ p ≠ .done) : (s.view.workers w).Active := by
  rw [view_workers hw]
  rcases p with _ | _ | _ | _ | ⟨_, _, _ | _⟩ | _ | _ | _ | _ | _
  case leaving => exact absurd rfl hp.1
  case done => exact absurd rfl hp.2
  all_goals trivial

/-- Nothing a caller or a waiter sees has changed. -/
structure Beside (s t : State) : Prop where
  queue : t.queue = s.queue
  callers : t.callers = s.callers

theorem Beside.trans {r : State} (h : Beside s t) (ht : Beside t r) : Beside s r :=
  ⟨ht.queue.trans h.queue, ht.callers.trans h.callers⟩

/-- A call of `terminate` outside the worker lets go of the flag. -/
theorem terminator_unlocks {n : Nat} {stage : TerminateStage} {result : TerminationResult}
    (hn : s.terminators n = some ⟨result, stage⟩) (hstage : stage = .flagged ∨ stage = .signalled) :
    Leads token stepData (fun t => t.termination.locked = false ∧ t.workers = s.workers ∧ Beside s t)
      s := by
  have signalled : ∀ {r : State}, r.terminators n = some ⟨result, .signalled⟩ → Leads token stepData
      (fun t => t.termination.locked = false ∧ t.workers = r.workers ∧ Beside r t) r := by
    intro r hr
    exact leads_now (.advanceTerminate hr rfl) rfl ⟨rfl, rfl, rfl, rfl⟩
  obtain rfl | rfl := hstage
  · refine leads_of_move (.advanceTerminate hn rfl) rfl ((signalled (Function.update_self ..)).mono ?_)
    rintro r ⟨hfree, hworkers, hbeside⟩
    exact ⟨hfree, hworkers, hbeside.queue, hbeside.callers⟩
  · exact signalled hn

theorem unlocks (h : (machine token stepData).Reachable s) {w : Nat} {result : TerminationResult}
    {resume : Resume} (hw : s.workers w = some (.terminating .waiting result resume)) :
    Leads token stepData (fun t => t.termination.locked = false ∧ t.workers = s.workers ∧ Beside s t)
      s := by
  cases hlocked : s.termination.locked with
  | false => exact .here ⟨hlocked, rfl, rfl, rfl⟩
  | true =>
    obtain ⟨r, ⟨n, stage, hn, hstage⟩ | ⟨v, stage, resume', hv, hstage⟩⟩ := held h hlocked
    · exact terminator_unlocks hn hstage
    · -- the flag is not locked by the worker, which is still waiting for it
      have hactive : ∀ {x : Nat} {g : TerminateStage} {r' : TerminationResult} {m : Resume},
          s.workers x = some (.terminating g r' m) → (s.view.workers x).Active :=
        fun hx => active_of_phase hx ⟨by rintro ⟨⟩, by rintro ⟨⟩⟩
      obtain rfl := (singleWorker h).unique v w (hactive hv) (hactive hw)
      rw [hw] at hv
      cases hv
      rcases hstage with hstage | hstage <;> cases hstage

theorem terminates (h : (machine token stepData).Reachable s) {w : Nat} {stage : TerminateStage}
    {result : TerminationResult} {resume : Resume}
    (hw : s.workers w = some (.terminating stage result resume)) :
    Leads token stepData (fun t => t.workers w = some resume.phase ∧ Beside s t) s := by
  have signalled : ∀ {r : State}, r.workers w = some (.terminating .signalled result resume) →
      Leads token stepData (fun t => t.workers w = some resume.phase ∧ Beside r t) r := by
    intro r hr
    exact leads_now (.workerTerminate hr rfl) rfl ⟨Function.update_self .., rfl, rfl⟩
  have flagged : ∀ {r : State}, r.workers w = some (.terminating .flagged result resume) →
      Leads token stepData (fun t => t.workers w = some resume.phase ∧ Beside r t) r := by
    intro r hr
    refine leads_of_move (.workerTerminate hr rfl) rfl ((signalled (Function.update_self ..)).mono ?_)
    rintro t ⟨ht, hbeside⟩
    exact ⟨ht, hbeside.queue, hbeside.callers⟩
  cases stage with
  | signalled => exact signalled hw
  | flagged => exact flagged hw
  | returned => exact absurd hw (unstuck h w result resume)
  | waiting =>
    refine (unlocks h hw).bind fun r hr => ?_
    obtain ⟨hfree, hworkers, hbeside⟩ := hr
    have hr : r.workers w = some (.terminating .waiting result resume) := hworkers ▸ hw
    cases hset : r.termination.terminated with
    | true =>
      have hadv : r.termination.advance result .waiting = some (r.termination, .returned) := by
        simp [Termination.advance, hfree, hset]
      exact leads_now (.workerTerminate hr hadv) rfl
        ⟨Function.update_self .., hbeside.queue, hbeside.callers⟩
    | false =>
      have hadv : r.termination.advance result .waiting =
          some ({ r.termination with terminated := true, locked := true }, .flagged) := by
        simp [Termination.advance, hfree, hset]
      refine leads_of_move (.workerTerminate hr hadv) rfl
        ((flagged (Function.update_self ..)).mono ?_)
      rintro t ⟨ht, hbeside'⟩
      exact ⟨ht, hbeside.trans ⟨hbeside'.queue, hbeside'.callers⟩⟩

/-! ## A worker gets through its loop -/

@[simp] def BatchCall.rank : BatchCall → Nat
  | .start => 6
  | .holding _ => 5
  | .inFlight _ _ => 4
  | .responded _ => 3
  | .merging _ => 2
  | .finished _ => 1

/-- How far the worker is from its next look at the queue. -/
@[simp] def WorkerPhase.rank : WorkerPhase → Nat
  | .calling batch call => 6 + batch.length + call.rank
  | .notifying rest _ => 6 + rest.length
  | .draining _ => 5
  | .checking => 4
  | .cooling => 3
  | .terminating _ _ _ => 2
  | .top => 1
  | _ => 0

/-- A batch of one costs less than the entry it takes off the queue. -/
def State.load (s : State) (w : Nat) : Nat :=
  14 * s.queue.length + ((s.workers w).map (·.rank)).getD 0

theorem load_of_some {w : Nat} {p : WorkerPhase} (hw : s.workers w = some p) :
    s.load w = 14 * s.queue.length + p.rank := by
  simp [State.load, hw]

/-- The worker has left the loop, and the flag is still up. -/
def WorkerPhase.Exits : WorkerPhase → Prop
  | .terminating _ _ .leave | .exiting => True
  | _ => False

/-- The worker is in its loop with less to do than in `s`. -/
def Nearer (s : State) (w : Nat) (t : State) : Prop :=
  ∃ p, t.workers w = some p ∧ p.InLoop ∧ t.load w < s.load w

/-- The worker has left its loop, with nothing queued. -/
def LoopLeft (w : Nat) (t : State) : Prop :=
  t.queue = [] ∧ ∃ p, t.workers w = some p ∧ p.Exits

theorem nearer {w : Nat} {p p' : WorkerPhase} (hw : s.workers w = some p) (ht : t.workers w = some p')
    (hp : p'.InLoop)
    (hload : 14 * t.queue.length + p'.rank < 14 * s.queue.length + p.rank) : Nearer s w t := by
  refine ⟨p', ht, hp, ?_⟩
  rw [load_of_some hw, load_of_some ht]
  exact hload

theorem calling_progress {w : Nat} {batch : List QueuedCheckpoint} {call : BatchCall}
    (hw : s.workers w = some (.calling batch call)) :
    Leads token stepData (Nearer s w) s := by
  have hcall : s.callOf (.worker w) = some (batch, call) := callOf_worker.mpr hw
  -- the call goes on, and the queue stays as it is
  have called : ∀ {t : State} {call' : BatchCall}, t.workers w = some (.calling batch call') →
      t.queue = s.queue → call'.rank < call.rank → Nearer s w t := by
    intro t call' ht hqueue hrank
    refine nearer hw ht trivial ?_
    rw [hqueue]
    simp only [WorkerPhase.rank]
    omega
  have notified : ∀ {t : State} {failure : Option DurableError},
      t.workers w = some (.notifying batch failure) → t.queue = s.queue → 0 < call.rank →
      Nearer s w t := by
    intro t failure ht hqueue hrank
    refine nearer hw ht trivial ?_
    rw [hqueue]
    simp only [WorkerPhase.rank]
    omega
  cases call with
  | start => exact leads_now (.readToken hcall) rfl (called (Function.update_self ..) rfl (by simp))
  | holding token' =>
    cases hcoalesce : coalesceUpdates (batch.map (·.update)) with
    | error e =>
      exact leads_now (.reject hcall hcoalesce) rfl (called (Function.update_self ..) rfl (by simp))
    | ok updates =>
      exact leads_now (.send hcall hcoalesce) rfl (called (Function.update_self ..) rfl (by simp))
  | inFlight token' updates =>
    refine leads_of_answer hcall fun answer t hm => .here ?_
    cases hm with
    | fail hcall' | accept hcall' =>
      obtain ⟨rfl, -⟩ := Prod.mk.inj (Option.some.inj (hcall.symm.trans hcall'))
      exact called (Function.update_self ..) rfl (by simp)
  | responded response =>
    exact leads_now (.writeToken hcall) rfl (called (Function.update_self ..) rfl (by simp))
  | merging newState =>
    exact leads_now (.merge hcall) rfl (called (Function.update_self ..) rfl (by simp))
  | finished result =>
    cases result with
    | ok _ => exact leads_now (.finishOk hw) rfl (notified (Function.update_self ..) rfl (by simp))
    | error e =>
      exact leads_now (.finishError hw) rfl (notified (Function.update_self ..) rfl (by simp))

theorem take_length {queue : List QueuedCheckpoint} (h : queue ≠ []) :
    0 < (buildBatch queue).1.length ∧
      (buildBatch queue).1.length + (buildBatch queue).2.length = queue.length := by
  constructor
  · exact List.length_pos_iff.mpr (buildBatch_ne_nil h)
  · rw [← List.length_append, buildBatch_append]

theorem loop_progress (h : (machine token stepData).Reachable s) {w : Nat} {p : WorkerPhase}
    (hw : s.workers w = some p) (hp : p.InLoop) :
    Leads token stepData (fun t => LoopLeft w t ∨ Nearer s w t) s := by
  cases p with
  | top =>
    by_cases hqueue : s.queue = []
    · exact leads_now (.quit hw hqueue) rfl (Or.inl ⟨hqueue, _, Function.update_self .., trivial⟩)
    · refine leads_now (.take hw hqueue) rfl (Or.inr (nearer hw (Function.update_self ..) trivial ?_))
      obtain ⟨hpos, hlength⟩ := take_length hqueue
      change 14 * (buildBatch s.queue).2.length + (6 + (buildBatch s.queue).1.length + 6) < _
      simp only [WorkerPhase.rank]
      omega
  | calling batch call => exact (calling_progress hw).mono fun t => Or.inr
  | notifying rest failure =>
    cases rest with
    | cons c rest =>
      refine leads_now (.notify hw) rfl (Or.inr (nearer hw (Function.update_self ..) trivial ?_))
      change 14 * s.queue.length + (6 + rest.length) < 14 * s.queue.length + (6 + (rest.length + 1))
      omega
    | nil =>
      cases failure with
      | none =>
        refine leads_now (.notifiedOk hw) rfl (Or.inr (nearer hw (Function.update_self ..) trivial ?_))
        exact Nat.add_lt_add_left (by simp) _
      | some e =>
        refine leads_now (.notifiedError hw) rfl
          (Or.inr (nearer hw (Function.update_self ..) trivial ?_))
        exact Nat.add_lt_add_left (by simp) _
  | draining e =>
    exact leads_now (.drain hw) rfl (Or.inl ⟨rfl, _, Function.update_self .., trivial⟩)
  | terminating stage result resume =>
    cases resume with
    | leave => exact hp.elim
    | loop =>
      refine (terminates h hw).mono fun t ht => Or.inr (nearer hw ht.1 trivial ?_)
      rw [ht.2.queue]
      exact Nat.add_lt_add_left (by simp [Resume.phase]) _
  | checking =>
    refine leads_now (.checkRetry hw) rfl (Or.inr ?_)
    by_cases hwaiting : anyRetryWaiting s.operations = true
    · rw [if_pos hwaiting]
      exact nearer hw (Function.update_self ..) trivial (Nat.add_lt_add_left (by simp) _)
    · rw [if_neg hwaiting]
      exact nearer hw (Function.update_self ..) trivial (Nat.add_lt_add_left (by simp) _)
  | cooling =>
    refine leads_now (.recheckRetry hw) rfl (Or.inr ?_)
    by_cases hwaiting : anyRetryWaiting s.operations = true
    · rw [if_pos hwaiting]
      exact nearer hw (Function.update_self ..) trivial (Nat.add_lt_add_left (by simp) _)
    · rw [if_neg hwaiting]
      exact nearer hw (Function.update_self ..) trivial (Nat.add_lt_add_left (by simp) _)
  | exiting | leaving | done => exact hp.elim

theorem reachable_step (hs : (machine token stepData).Reachable s)
    (hstep : (machine token stepData).step s l = some t) : (machine token stepData).Reachable t :=
  hs.step trivial hstep

/-- A worker in its loop leaves it, with nothing queued. -/
theorem loop_left (h : (machine token stepData).Reachable s) {w : Nat} {p : WorkerPhase}
    (hw : s.workers w = some p) (hp : p.InLoop) : Leads token stepData (LoopLeft w) s := by
  refine Transition.Machine.leads_of_rank (fun s => s.load w)
    (P := fun s => (machine token stepData).Reachable s ∧ ∃ p, s.workers w = some p ∧ p.InLoop)
    ?_ ⟨h, p, hw, hp⟩
  rintro s ⟨hs, p, hw, hp⟩
  refine ((loop_progress hs hw hp).keeping (fun _ _ _ => reachable_step) hs).mono ?_
  rintro t ⟨hleft | ⟨p', ht, hp', hload⟩, hreach⟩
  · exact Or.inl hleft
  · exact Or.inr ⟨⟨hreach, p', ht, hp'⟩, hload⟩

/-- A worker that has left its loop takes the flag down. -/
theorem releases (h : (machine token stepData).Reachable s) {w : Nat} {p : WorkerPhase}
    (hw : s.workers w = some p) (hp : p.Exits) :
    Leads token stepData (fun t => t.isProcessing = false ∧ Beside s t) s := by
  cases p with
  | exiting => exact leads_now (.release hw) rfl ⟨rfl, rfl, rfl⟩
  | terminating stage result resume =>
    cases resume with
    | loop => exact hp.elim
    | leave =>
      refine (terminates h hw).bind fun t ht => ?_
      exact leads_now (.release ht.1) rfl ⟨rfl, ht.2.queue, ht.2.callers⟩
  | _ => exact hp.elim

/-! ## The waiters -/

theorem Move.waiter_stays (hm : Move s l t) {q : Nat} (hq : ∃ k, s.waiters q = some k) :
    ∃ k, t.waiters q = some k := by
  obtain ⟨k, hk⟩ := hq
  have updated : ∀ {r : Nat} {j : Waiter}, ∃ k, Function.update s.waiters r (some j) q = some k := by
    intro r j
    rw [Function.update_apply]
    split
    · exact ⟨j, rfl⟩
    · exact ⟨k, hk⟩
  cases hm with
  | startWait _ | checkQueue _ _ | wakeWaiter _ _ _ => exact updated
  | notifyWaiters _ => exact ⟨_, Option.map_eq_some_iff.mpr ⟨k, hk, rfl⟩⟩
  | @readToken o _ _ | @reject o _ _ _ _ _ | @send o _ _ _ _ _ | @fail o _ _ _ _ _
  | @accept o _ _ _ _ _ | @writeToken o _ _ _ | @merge o _ _ _ => cases o <;> exact ⟨k, hk⟩
  | _ => exact ⟨k, hk⟩

/-- A run from here on is a run of the manager, and somebody waits in it. -/
structure Awaited (token : String) (stepData : Table) (q : Nat) (s : State) : Prop where
  reachable : (machine token stepData).Reachable s
  waiter : ∃ k, s.waiters q = some k

variable {q : Nat}

theorem Awaited.move (h : Awaited token stepData q s) (hm : Move s l t) :
    Awaited token stepData q t :=
  ⟨reachable_step h.reachable hm.step_eq, hm.waiter_stays h.waiter⟩

theorem Awaited.keeping (h : Awaited token stepData q s) (hleads : Leads token stepData goal s) :
    Leads token stepData (fun t => goal t ∧ Awaited token stepData q t) s :=
  Transition.Machine.Leads.keeping (fun _ _ _ hs hstep => hs.move (move_of_step hstep)) hleads h

theorem created_completes {k : Waiter} (hk : s.waiters q = some k) (hp : k.phase = .created)
    (hqueue : s.queue = []) (hidle : s.isProcessing = false) :
    Leads token stepData (Completed q) s := by
  refine leads_now (.checkQueue hk hp) rfl ⟨_, Function.update_self .., ?_⟩
  exact if_pos ⟨hqueue, hidle⟩

theorem woken_completes {k : Waiter} (hk : s.waiters q = some k) (hp : k.phase = .waiting)
    (hwoken : k.woken = true) (hqueue : s.queue = []) (hidle : s.isProcessing = false) :
    Leads token stepData (Completed q) s :=
  leads_of_move (.wakeWaiter hk hp hwoken) rfl
    (created_completes (Function.update_self ..) rfl hqueue hidle)

/-- Nobody sleeps through an empty queue: a worker is still going to wake them. -/
theorem Awaited.idle_completes (h : Awaited token stepData q s) (hqueue : s.queue = [])
    (hidle : s.isProcessing = false) : Leads token stepData (Completed q) s := by
  obtain ⟨k, hk⟩ := h.waiter
  cases hp : k.phase with
  | returned => exact .here ⟨k, hk, hp⟩
  | created => exact created_completes hk hp hqueue hidle
  | waiting =>
    cases hwoken : k.woken with
    | true => exact woken_completes hk hp hwoken hqueue hidle
    | false =>
      have hasleep : s.view.asleep q = true := by simp [view, hk, Waiter.asleep, hp, hwoken]
      have hrun := simulated (fun _ _ => True) (fun _ _ _ _ _ => trivial) h.reachable
      have hwatched := ServedQueue.watched_run (view_new_fresh token stepData) hrun
      obtain ⟨w, hw⟩ := (hwatched q hasleep).resolve_left fun hne => hne hqueue
      have hnot := (singleWorker h.reachable).not_active hidle w
      cases hphase : s.workers w with
      | none =>
        rw [view_workers_none hphase] at hw
        cases hw
      | some p =>
        rw [view_workers hphase] at hw hnot
        have hleaving : p = .leaving := by
          rcases p with _ | _ | _ | _ | ⟨_, _, _ | _⟩ | _ | _ | _ | _ | _
          case leaving => rfl
          case done => exact hw.elim
          all_goals exact absurd trivial hnot
        subst hleaving
        have hmapped : (s.wakeWaiters.setWorker w .done).waiters q = some { k with woken := true } :=
          Option.map_eq_some_iff.mpr ⟨k, hk, rfl⟩
        exact leads_of_move (.notifyWaiters hphase) rfl (woken_completes hmapped hp rfl hqueue hidle)

theorem Awaited.left_completes (h : Awaited token stepData q s) {w : Nat} (hw : LoopLeft w s) :
    Leads token stepData (Completed q) s := by
  obtain ⟨hqueue, p, hp, hexits⟩ := hw
  refine (h.keeping (releases h.reachable hp hexits)).bind ?_
  rintro t ⟨⟨hidle, hbeside⟩, ht⟩
  exact ht.idle_completes (hbeside.queue.trans hqueue) hidle

theorem Awaited.loop_completes (h : Awaited token stepData q s) {w : Nat} {p : WorkerPhase}
    (hw : s.workers w = some p) (hp : p.InLoop) : Leads token stepData (Completed q) s := by
  refine (h.keeping (loop_left h.reachable hw hp)).bind ?_
  rintro t ⟨hleft, ht⟩
  exact ht.left_completes hleft

/-- A call that has queued its update and finds no worker starts one. -/
theorem Awaited.start_completes (h : Awaited token stepData q s) (hidle : s.isProcessing = false)
    {c : Nat} (hc : s.Starting c) : Leads token stepData (Completed q) s := by
  obtain ⟨k, hk, hp⟩ := hc
  obtain ⟨w, hw⟩ := exists_absent h.reachable
  have hm := Move.startWorker hk hp hidle hw
  exact leads_of_move hm rfl ((h.move hm).loop_completes (Function.update_self ..) trivial)

theorem exits_of_active {p : WorkerPhase} (hp : p.stage.Active) (hloop : ¬ p.InLoop) : p.Exits := by
  rcases p with _ | _ | _ | _ | ⟨_, _, _ | _⟩ | _ | _ | _ | _ | _
  case terminating.leave | exiting => trivial
  case leaving | done => exact hp.elim
  all_goals exact absurd trivial hloop

/-- With no worker in its loop, the flag comes down with the queue as it is. -/
theorem Awaited.comes_idle (h : Awaited token stepData q s)
    (hloop : ¬ ∃ w p, s.workers w = some p ∧ p.InLoop) :
    Leads token stepData (fun t => t.isProcessing = false ∧ Beside s t) s := by
  cases hbusy : s.isProcessing with
  | false => exact .here ⟨hbusy, rfl, rfl⟩
  | true =>
    obtain ⟨w, hw⟩ := (singleWorker h.reachable).busy_iff.mp hbusy
    cases hphase : s.workers w with
    | none =>
      rw [view_workers_none hphase] at hw
      cases hw
    | some p =>
      rw [view_workers hphase] at hw
      exact releases h.reachable hphase (exits_of_active hw fun hp => hloop ⟨w, p, hphase, hp⟩)

theorem Awaited.completes (h : Awaited token stepData q s) (hnot : ¬ Abandoned s) :
    Leads token stepData (Completed q) s := by
  by_cases hloop : ∃ w p, s.workers w = some p ∧ p.InLoop
  · obtain ⟨w, p, hw, hp⟩ := hloop
    exact h.loop_completes hw hp
  · refine (h.keeping (h.comes_idle hloop)).bind ?_
    rintro t ⟨⟨hidle, hbeside⟩, ht⟩
    by_cases hqueue : s.queue = []
    · exact ht.idle_completes (hbeside.queue.trans hqueue) hidle
    · have hstarting : ∃ c, s.Starting c := by
        by_contra hnone
        push Not at hnone
        exact hnot ⟨hqueue, hloop, hnone⟩
      obtain ⟨c, k, hk, hp⟩ := hstarting
      exact ht.start_completes hidle ⟨k, hbeside.callers ▸ hk, hp⟩

/-! ## An abandoned queue -/

theorem Move.starting (hm : Move s l t) (hl : l.Unpushed) {c : Nat} (hc : t.Starting c) :
    s.Starting c := by
  obtain ⟨k, hk, hp⟩ := hc
  have same : t.callers = s.callers → s.Starting c := fun hsame => ⟨k, hsame ▸ hk, hp⟩
  have updated : ∀ {d : Nat} {j : Caller}, t.callers = Function.update s.callers d (some j) →
      j.phase ≠ .pushed → s.Starting c := by
    intro d j hcallers hj
    rw [hcallers] at hk
    obtain hk | rfl := eq_or_of_update hk
    · exact ⟨k, hk, hp⟩
    · exact absurd hp hj
  cases hm with
  | push _ _ => exact absurd rfl (hl _)
  | call _ | track _ _ | wake _ _ _ => exact updated rfl (by rintro ⟨⟩)
  | checkTerminating _ _ | checkAncestor _ _ =>
    refine updated rfl ?_
    dsimp only
    split <;> rintro ⟨⟩
  | @startBusy _ _ j _ _ _ | @startWorker _ _ j _ _ _ _ =>
    refine updated rfl ?_
    cases j.kind <;> rintro ⟨⟩
  | readToken _ | reject _ _ | send _ _ | fail _ | accept _ | writeToken _ | merge _ =>
    exact same (setCall_callers ..)
  | _ => exact same rfl

theorem Abandoned.step (h : Abandoned s) (hm : Move s l t) (hl : l.Unpushed) : Abandoned t := by
  rw [abandoned_iff] at h ⊢
  obtain hsame | hstep : t.view = s.view ∨
      ServedQueue.Step QueuedCheckpoint.notify (fun _ _ => True) s.view t.view :=
    hm.simulates fun _ _ _ _ => trivial
  · rwa [hsame]
  · refine h.step hstep fun c hc => ?_
    obtain ⟨k, hk, hp⟩ := hm.starting hl (starting_of_view hc)
    apply h.pushed c
    rw [view_callers hk, hp]
    rfl

/-- The wait of the runtime ends, whatever the service answers, unless the queue is abandoned; then
it does not end before another update is pushed. -/
theorem queue_completes_iff {k : Waiter} (h : (machine token stepData).Reachable s)
    (hk : s.waiters q = some k) (hp : k.phase ≠ .returned) :
    (machine token stepData).Leads Label.turn Label.Unpushed (Completed q) s ↔ ¬ Abandoned s := by
  constructor
  · intro hleads habandoned
    refine Transition.Machine.not_leads (I := fun s => Abandoned s ∧ ¬ Completed q s) ?_ ?_
      ⟨habandoned, ?_⟩ hleads
    · rintro s l t ⟨hs, hnot⟩ hl hstep
      have hm := move_of_step hstep
      refine ⟨hs.step hm hl, ?_⟩
      rintro ⟨j, hj, hreturned⟩
      obtain hbefore | ⟨hqueue, -⟩ := hm.waiter_cases hj hreturned
      · exact hnot hbefore
      · exact hs.queue hqueue
    · exact fun s hs => hs.2
    · rintro ⟨j, hj, hreturned⟩
      obtain rfl := Option.some.inj (hk.symm.trans hj)
      exact hp hreturned
  · exact Awaited.completes ⟨h, k, hk⟩

/-- The wait begins while the worker is in its loop. -/
def timelyWait : List Label := timelyStart ++ [.startWait 0, .checkQueue 0]

/-- The wait begins when no worker is left. -/
def lateWait : List Label := lateStart ++ [.startWait 0, .checkQueue 0]

/-- Only the first two calls are made. -/
def TwoCalls (l : Label) : Prop := ∀ c kind stepId update, l = .call c kind stepId update → c < 2

def twoCalls : Label → Bool
  | .call c _ _ _ => c < 2
  | _ => true

theorem callers_of_twoCalls (h : (machine token stepData).ReachableBy (fun _ => TwoCalls) s) {c : Nat}
    {k : Caller} (hk : s.callers c = some k) : c < 2 := by
  refine h.invariant (I := fun s => ∀ c k, s.callers c = some k → c < 2) ?_ ?_ c k hk
  · rintro _ rfl _ _ hk
    cases hk
  · intro s l s' _ hs hl hstep c k hk
    obtain ⟨j, hj, -⟩ | ⟨-, kind, stepId, update, rfl, -⟩ := (move_of_step hstep).callers_cases hk
    · exact hs c j hj
    · exact hl c kind stepId update rfl

theorem lateWait_abandons : ∃ s k, (machine "t0" fun _ => none).Reachable s ∧
    s.waiters 0 = some k ∧ k.phase = .waiting ∧ Abandoned s := by
  have hend : ((machine "t0" fun _ => none).checkedRun (fun _ => twoCalls) (.new "t0" fun _ => none)
      lateWait).map (fun s => ((s.waiters 0).map (·.phase), s.isProcessing, s.queue.length,
        [0, 1].map fun c => (s.callers c).map (·.phase))) =
      some (some .waiting, false, 1, [some .waiting, some .waiting]) := by decide +kernel
  obtain ⟨s, hrun, hs⟩ := Option.map_eq_some_iff.mp hend
  simp only [Prod.mk.injEq, List.map_cons, List.map_nil, List.cons.injEq, and_true] at hs
  obtain ⟨hwaiter, hidle, hqueue, hfirst, hsecond⟩ := hs
  have hreach : (machine "t0" fun _ => none).ReachableBy (fun _ => TwoCalls) s := by
    refine Transition.Machine.checkedRun_reachableBy (fun _ l _ hok => ?_) _ (.init rfl) hrun
    rintro c kind stepId update rfl
    simpa [twoCalls] using hok
  obtain ⟨k, hk, hp⟩ := Option.map_eq_some_iff.mp hwaiter
  refine ⟨s, k, hreach.reachable, hk, hp, ?_, not_inLoop_of_idle hreach.reachable hidle, ?_⟩
  · rintro hempty
    rw [hempty] at hqueue
    cases hqueue
  · rintro c ⟨j, hj, hpushed⟩
    have hlt := callers_of_twoCalls hreach hj
    obtain rfl | rfl : c = 0 ∨ c = 1 := by omega
    · simp [hj, hpushed] at hfirst
    · simp [hj, hpushed] at hsecond

theorem queue_completes_iff_late :
    (∃ s k, s.waiters 0 = some k ∧ k.phase = .waiting ∧
      (machine "t0" fun _ => none).Leads Label.turn Label.Unpushed (Completed 0) s) ∧
    ∃ s k, s.waiters 0 = some k ∧ k.phase = .waiting ∧
      ¬ (machine "t0" fun _ => none).Leads Label.turn Label.Unpushed (Completed 0) s := by
  constructor
  · have hend : ((machine "t0" fun _ => none).run (.new "t0" fun _ => none) timelyWait).map
        (fun s => ((s.waiters 0).map (·.phase), s.queue)) = some (some .waiting, []) := by
      decide +kernel
    obtain ⟨s, hrun, hs⟩ := Option.map_eq_some_iff.mp hend
    obtain ⟨hwaiter, hqueue⟩ := Prod.mk.inj hs
    obtain ⟨k, hk, hp⟩ := Option.map_eq_some_iff.mp hwaiter
    have hreach := Transition.Machine.run_reachable rfl timelyWait hrun
    exact ⟨s, k, hk, hp, (queue_completes_iff hreach hk (by simp [hp])).mpr fun h => h.queue hqueue⟩
  · obtain ⟨s, k, hreach, hk, hp, habandoned⟩ := lateWait_abandons
    refine ⟨s, k, hk, hp, fun hleads => ?_⟩
    exact (queue_completes_iff hreach hk (by simp [hp])).mp hleads habandoned

end LambdaDurable.CheckpointManager
