import LambdaDurable.Checkpoint.Durability

/-!
# Failed batches and accepted terminations

A batch fails when the service rejects it or when its updates cannot be coalesced. A
termination is accepted by the call of `terminate` that sets the flag; until that call
has sent its result nothing is published.
-/

namespace LambdaDurable.CheckpointManager

open State

def ServiceEvent.isRejected : ServiceEvent → Bool
  | .rejected .. => true
  | _ => false

namespace State

/-- Some call of `process_batch` has failed. -/
def Failed (s : State) : Prop := s.log.any (·.isRejected) = true

/-- A call of `terminate` with this result has set the flag and has not yet sent its result. -/
def Accepting (s : State) (result : TerminationResult) : Prop :=
  (∃ n stage, s.terminators n = some ⟨result, stage⟩ ∧ (stage = .flagged ∨ stage = .signalled)) ∨
  ∃ w stage resume, s.workers w = some (.terminating stage result resume) ∧
    (stage = .flagged ∨ stage = .signalled)

end State

/-- The step makes a call of `process_batch` fail. -/
def rejects (s : State) : Label → Bool
  | .respond _ (.error _) => true
  | .send o => match s.callOf o with
    | some (batch, .holding _) => (coalesceUpdates (batch.map (·.update))).toOption.isNone
    | _ => false
  | _ => false

/-- The step sets the flag for this result. -/
def accepts (s : State) : Label → Option TerminationResult
  | .advanceTerminate n => match s.terminators n with
    | some ⟨result, .waiting⟩ => if s.termination.terminated then none else some result
    | _ => none
  | .workerTerminate w => match s.workers w with
    | some (.terminating .waiting result _) => if s.termination.terminated then none else some result
    | _ => none
  | _ => none

theorem State.Failed.mono {s t : State} (hext : Extends s t) (h : s.Failed) : t.Failed := by
  obtain ⟨event, hmem, hrej⟩ := List.any_eq_true.mp h
  exact List.any_eq_true.mpr ⟨event, hext.log event hmem, hrej⟩

theorem Move.failed {s s' : State} {l : Label} (h : Move s l s') (hf : s'.Failed) :
    s.Failed ∨ rejects s l = true := by
  cases h with
  | @reject o batch token e hcall he => exact Or.inr (by simp [rejects, hcall, he, Except.toOption])
  | fail _ => exact Or.inr rfl
  | send _ _ | accept _ =>
      left
      rw [State.Failed, setCall_log] at hf
      exact hf
  | readToken _ | writeToken _ | merge _ =>
      left
      rw [State.Failed, setCall_log] at hf
      exact hf
  | _ => exact Or.inl hf

/-! ## A worker on its failure path -/

def WorkerPhase.onFailurePath : WorkerPhase → Bool
  | .calling _ (.finished (.error _)) | .notifying _ (some _) | .draining _ => true
  | _ => false

/-- A worker is on its failure path only after a failed call. -/
def FailurePathFailed (s : State) : Prop :=
  ∀ w p, s.workers w = some p → p.onFailurePath = true → s.Failed

theorem FailurePathFailed.of_workers {s t : State} (h : FailurePathFailed s) (hext : Extends s t)
    (hworkers : ∀ w p, t.workers w = some p → s.workers w = some p ∨
      (p.onFailurePath = true → t.Failed)) : FailurePathFailed t := by
  intro w p hp hpath
  obtain hs | hf := hworkers w p hp
  · exact (h w p hs hpath).mono hext
  · exact hf hpath

/-- Only the worker `w` moved, and it is on the failure path only if it was, or if a call failed. -/
theorem FailurePathFailed.worker {s t : State} (h : FailurePathFailed s) (hext : Extends s t) {w : Nat}
    {p' : WorkerPhase} (hworkers : t.workers = Function.update s.workers w (some p'))
    (hp : p'.onFailurePath = true → t.Failed) : FailurePathFailed t := by
  refine h.of_workers hext fun v p hv => ?_
  rw [hworkers] at hv
  refine (eq_or_of_update hv).imp_right ?_
  rintro rfl
  exact hp

theorem FailurePathFailed.step {s s' : State} {l : Label} (h : FailurePathFailed s) (hm : Move s l s') :
    FailurePathFailed s' := by
  have hext := hm.extends
  have failed_setCall : ∀ {t : State} {o batch call}, t.Failed → (t.setCall batch call o).Failed := by
    intro t o batch call ht
    rw [State.Failed, setCall_log]
    exact ht
  have force : ∀ {t : State} {n batch call}, t.workers = s.workers →
      ∀ w p, (t.setCall batch call (.force n)).workers w = some p →
        s.workers w = some p ∨ (p.onFailurePath = true → (t.setCall batch call (.force n)).Failed) := by
    intro t n batch call hw w p hp
    exact Or.inl (hw ▸ hp)
  cases hm with
  | @readToken o _ _ | @send o _ _ _ _ _ | @accept o _ _ _ _ _ | @writeToken o _ _ _ | @merge o _ _ _ =>
      cases o with
      | worker w => exact h.worker hext rfl (by nofun)
      | force n => exact h.of_workers hext (force rfl)
  | @reject o _ _ _ _ _ | @fail o _ _ _ _ _ =>
      cases o with
      | worker w => exact h.worker hext rfl fun _ => failed_setCall rfl
      | force n => exact h.of_workers hext (force rfl)
  | startWorker _ _ _ _ | quit _ _ | take _ _ | finishOk _ | drain _ | release _ | notifyWaiters _
  | notifiedOk _ => exact h.worker hext rfl (by nofun)
  | finishError hw | notifiedError hw =>
      have hf := (h _ _ hw rfl).mono hext
      exact h.worker hext rfl fun _ => hf
  | @notify w c rest failure hw =>
      refine h.worker hext rfl fun hpath => ?_
      cases failure with
      | none => cases hpath
      | some e => exact (h _ _ hw rfl).mono hext
  | @workerTerminate w stage stage' result resume t hw hadv =>
      refine h.worker hext rfl fun hpath => ?_
      cases resume <;> split at hpath <;> cases hpath
  | checkRetry _ | recheckRetry _ =>
      refine h.worker hext rfl fun hpath => ?_
      split at hpath <;> cases hpath
  | _ => exact h.of_workers hext fun _ _ hp => Or.inl hp

theorem failurePathFailed {token : String} {stepData : Table} {allow : State → Label → Prop} {s : State}
    (h : (machine token stepData).ReachableBy allow s) : FailurePathFailed s :=
  h.invariant (fun _ hs _ _ hp => by subst hs; cases hp) fun _ _ _ _ hi _ hs => hi.step (move_of_step hs)

/-- Until some call has failed every release follows an acknowledged batch. -/
theorem releasesAcked_of_not_failed {s : State} (h : FailurePathFailed s) (hf : ¬ s.Failed) (l : Label) :
    ReleasesAcked s l := by
  constructor
  · rintro w e rest failure - hw
    exact absurd (h w _ hw rfl) hf
  · rintro w failure - hw
    exact absurd (h w _ hw rfl) hf

/-! ## What is published -/

theorem accepting_setTerminator {s t : State} {n : Nat} {k : Terminator} {result : TerminationResult}
    (h : (t.setTerminator n k).Accepting result) (hworkers : t.workers = s.workers)
    (hterminators : t.terminators = s.terminators) :
    s.Accepting result ∨ (k.result = result ∧ (k.stage = .flagged ∨ k.stage = .signalled)) := by
  obtain ⟨m, stage, hm, hstage⟩ | ⟨w, stage, resume, hw, hstage⟩ := h
  · obtain hm | rfl := eq_or_of_update hm
    · exact Or.inl (Or.inl ⟨m, stage, hterminators ▸ hm, hstage⟩)
    · exact Or.inr ⟨rfl, hstage⟩
  · exact Or.inl (Or.inr ⟨w, stage, resume, hworkers ▸ hw, hstage⟩)

theorem accepting_setWorker {s t : State} {w : Nat} {p : WorkerPhase} {result : TerminationResult}
    (h : t.Accepting result) (hworkers : t.workers = Function.update s.workers w (some p))
    (hterminators : t.terminators = s.terminators) :
    s.Accepting result ∨
      ∃ stage resume, p = .terminating stage result resume ∧ (stage = .flagged ∨ stage = .signalled) := by
  obtain ⟨n, stage, hn, hstage⟩ | ⟨v, stage, resume, hv, hstage⟩ := h
  · exact Or.inl (Or.inl ⟨n, stage, hterminators ▸ hn, hstage⟩)
  · rw [hworkers] at hv
    obtain hv | rfl := eq_or_of_update hv
    · exact Or.inl (Or.inr ⟨v, stage, resume, hv, hstage⟩)
    · exact Or.inr ⟨stage, resume, rfl, hstage⟩

theorem accepting_setCall {s t : State} {o : Owner} {batch : List QueuedCheckpoint} {call : BatchCall}
    {result : TerminationResult} (h : (t.setCall batch call o).Accepting result)
    (hworkers : t.workers = s.workers) (hterminators : t.terminators = s.terminators) :
    s.Accepting result := by
  cases o with
  | worker w =>
      have hw : (t.setCall batch call (.worker w)).workers =
          Function.update s.workers w (some (.calling batch call)) := by
        rw [← hworkers]
        rfl
      refine (accepting_setWorker h hw ?_).resolve_right (by rintro ⟨_, _, ⟨⟩, _⟩)
      rw [← hterminators]
      rfl
  | force n =>
      obtain ⟨m, stage, hm, hstage⟩ | ⟨w, stage, resume, hw, hstage⟩ := h
      · exact Or.inl ⟨m, stage, hterminators ▸ hm, hstage⟩
      · exact Or.inr ⟨w, stage, resume, hworkers ▸ hw, hstage⟩

/-- A result is being published after a step: it was before, or the step accepted it. -/
theorem Move.accepting {s s' : State} {l : Label} {result : TerminationResult} (h : Move s l s')
    (ha : s'.Accepting result) : s.Accepting result ∨ accepts s l = some result := by
  have advanced : ∀ {r : TerminationResult} {stage stage' : TerminateStage} {t : Termination},
      s.termination.advance r stage = some (t, stage') → stage' = .flagged ∨ stage' = .signalled →
      (stage = .flagged ∨ stage = .signalled) ∨ (stage = .waiting ∧ s.termination.terminated = false) := by
    intro r stage stage' t hadv hstage
    obtain ⟨-, -, -, -, rfl⟩ | ⟨hw, -, ht, -⟩ | ⟨hf, -⟩ | ⟨hs, -⟩ := Termination.advance_cases hadv
    · rcases hstage with hstage | hstage <;> cases hstage
    · exact Or.inr ⟨hw, ht⟩
    · exact Or.inl (Or.inl hf)
    · exact Or.inl (Or.inr hs)
  cases h with
  | terminate _ =>
      refine Or.inl ((accepting_setTerminator ha rfl rfl).resolve_right ?_)
      rintro ⟨-, h | h⟩ <;> cases h
  | @advanceTerminate n k t stage hk hadv =>
      obtain ha | ⟨rfl, hstage⟩ := accepting_setTerminator ha rfl rfl
      · exact Or.inl ha
      · obtain hbefore | ⟨hwait, hterm⟩ := advanced hadv hstage
        · exact Or.inl (Or.inl ⟨n, k.stage, hk, hbefore⟩)
        · obtain ⟨result, _⟩ := k
          obtain rfl : _ = TerminateStage.waiting := hwait
          exact Or.inr (by simp [accepts, hk, hterm])
  | @workerTerminate w stage stage' r resume t hw hadv =>
      obtain ha | ⟨stage'', resume', heq, hstage⟩ := accepting_setWorker ha rfl rfl
      · exact Or.inl ha
      · split at heq
        · cases resume <;> cases heq
        · cases heq
          obtain hbefore | ⟨rfl, hterm⟩ := advanced hadv hstage
          · exact Or.inl (Or.inr ⟨w, stage, resume, hw, hbefore⟩)
          · exact Or.inr (by simp [accepts, hw, hterm])
  | readToken _ | send _ _ | reject _ _ | fail _ | accept _ | writeToken _ | merge _ =>
      exact Or.inl (accepting_setCall ha rfl rfl)
  | checkRetry _ | recheckRetry _ =>
      refine Or.inl ((accepting_setWorker ha rfl rfl).resolve_right ?_)
      rintro ⟨_, _, heq, ⟨rfl⟩ | ⟨rfl⟩⟩ <;> split at heq <;> cases heq
  | startWorker _ _ _ _ | quit _ _ | take _ _ | finishOk _ | finishError _ | notify _ | notifiedOk _
  | notifiedError _ | release _ | notifyWaiters _ =>
      refine Or.inl ((accepting_setWorker ha rfl rfl).resolve_right ?_)
      rintro ⟨_, _, ⟨⟩, _⟩
  | drain _ =>
      refine Or.inl ((accepting_setWorker ha rfl rfl).resolve_right ?_)
      rintro ⟨_, _, ⟨⟩, h | h⟩ <;> cases h
  | _ => exact Or.inl ha

/-- What a step publishes was being published. -/
theorem Move.published {s s' : State} {l : Label} {result : TerminationResult} (h : Move s l s')
    (hp : s'.termination.published = some result) :
    s.termination.published = some result ∨ s.Accepting result := by
  have advanced : ∀ {r : TerminationResult} {stage stage' : TerminateStage} {t : Termination},
      s.termination.advance r stage = some (t, stage') → t.published = some result →
      s.termination.published = some result ∨ (stage = .signalled ∧ r = result) := by
    intro r stage stage' t hadv ht
    rcases Termination.advance_cases hadv with ⟨-, -, -, rfl, -⟩ | ⟨-, -, -, -, rfl⟩ | ⟨-, -, rfl⟩ |
      ⟨hs, -, rfl⟩
    · exact Or.inl ht
    · exact Or.inl ht
    · exact Or.inl ht
    · exact Or.inr ⟨hs, Option.some.inj ht⟩
  cases h with
  | @advanceTerminate n k t stage hk hadv =>
      refine (advanced hadv hp).imp_right ?_
      rintro ⟨hs, rfl⟩
      exact Or.inl ⟨n, k.stage, hk, Or.inr hs⟩
  | @workerTerminate w stage stage' r resume t hw hadv =>
      refine (advanced hadv hp).imp_right ?_
      rintro ⟨rfl, rfl⟩
      exact Or.inr ⟨w, .signalled, resume, hw, Or.inr rfl⟩
  | @readToken o _ _ | @send o _ _ _ _ _ | @reject o _ _ _ _ _ | @fail o _ _ _ _ _
  | @accept o _ _ _ _ _ | @writeToken o _ _ _ | @merge o _ _ _ => cases o <;> exact Or.inl hp
  | _ => exact Or.inl hp

theorem Move.terminated {s s' : State} {l : Label} (h : Move s l s')
    (ht : s.termination.terminated = true) : s'.termination.terminated = true := by
  have advanced : ∀ {r : TerminationResult} {stage stage' : TerminateStage} {t : Termination},
      s.termination.advance r stage = some (t, stage') → t.terminated = true := by
    intro r stage stage' t hadv
    rcases Termination.advance_cases hadv with ⟨-, -, -, rfl, -⟩ | ⟨-, -, -, -, rfl⟩ | ⟨-, -, rfl⟩ |
      ⟨-, -, rfl⟩
    · exact ht
    · rfl
    · exact ht
    · exact ht
  cases h with
  | advanceTerminate _ hadv | workerTerminate _ hadv => exact advanced hadv
  | @readToken o _ _ | @send o _ _ _ _ _ | @reject o _ _ _ _ _ | @fail o _ _ _ _ _
  | @accept o _ _ _ _ _ | @writeToken o _ _ _ | @merge o _ _ _ => cases o <;> exact ht
  | _ => exact ht

theorem Move.accepts_terminated {s s' : State} {l : Label} {result : TerminationResult}
    (h : Move s l s') (ha : accepts s l = some result) : s'.termination.terminated = true := by
  have advanced : ∀ {r : TerminationResult} {stage' : TerminateStage} {t : Termination},
      s.termination.advance r .waiting = some (t, stage') → t.terminated = true := by
    intro r stage' t hadv
    rcases Termination.advance_cases hadv with ⟨-, -, ht, rfl, -⟩ | ⟨-, -, -, -, rfl⟩ | ⟨⟨⟩, -⟩ | ⟨⟨⟩, -⟩
    · exact ht
    · rfl
  cases h with
  | @advanceTerminate n k t stage hk hadv =>
      obtain ⟨r, stage₀⟩ := k
      simp only [accepts, hk] at ha
      cases stage₀ with
      | waiting => exact advanced hadv
      | _ => cases ha
  | @workerTerminate w stage stage' r resume t hw hadv =>
      simp only [accepts, hw] at ha
      cases stage with
      | waiting => exact advanced hadv
      | _ => cases ha
  | _ => cases ha

/-- Nothing is published or being published before a termination is accepted. -/
theorem idle_of_not_terminated {token : String} {stepData : Table} {allow : State → Label → Prop}
    {s : State} (h : (machine token stepData).ReachableBy allow s)
    (ht : s.termination.terminated = false) :
    s.termination.published = none ∧ ∀ result, ¬ s.Accepting result := by
  refine h.invariant (I := fun s => s.termination.terminated = false →
    s.termination.published = none ∧ ∀ result, ¬ s.Accepting result) ?_ ?_ ht
  · rintro _ rfl -
    refine ⟨rfl, ?_⟩
    rintro result (⟨n, stage, hn, -⟩ | ⟨w, stage, resume, hw, -⟩)
    · cases hn
    · cases hw
  · intro s l s' _ hidle _ hs hnot
    have hmove := move_of_step hs
    have hbefore : s.termination.terminated = false := by
      by_contra hterm
      rw [hmove.terminated (by simpa using hterm)] at hnot
      cases hnot
    obtain ⟨hpub, hacc⟩ := hidle hbefore
    refine ⟨?_, fun result ha => ?_⟩
    · by_contra hne
      obtain ⟨result, hr⟩ := Option.ne_none_iff_exists'.mp hne
      obtain hr | hr := hmove.published hr
      · rw [hpub] at hr
        cases hr
      · exact hacc result hr
    · obtain ha | ha := hmove.accepting ha
      · exact hacc result ha
      · rw [hmove.accepts_terminated ha] at hnot
        cases hnot

end LambdaDurable.CheckpointManager
