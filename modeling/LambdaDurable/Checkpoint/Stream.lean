import LambdaDurable.Checkpoint.Failure

/-!
# The queue delivers in order

While no batch fails, the checkpoints of the accepted batches, the one batch without an
answer, and the queue make up the sequence in which the calls have pushed. Failures only
take from it.
-/

namespace LambdaDurable.CheckpointManager

open State

/-- The checkpoints of the accepted batches, oldest first. -/
def acceptedEntries : List ServiceEvent → List QueuedCheckpoint
  | [] => []
  | .accepted _ batch _ _ _ :: log => acceptedEntries log ++ batch
  | _ :: log => acceptedEntries log

/-- The batch a worker has taken and has no answer for. -/
def WorkerPhase.unanswered : WorkerPhase → List QueuedCheckpoint
  | .calling batch .start | .calling batch (.holding _) | .calling batch (.inFlight _ _) => batch
  | _ => []

def CallerPhase.hasPushed : CallerPhase → Bool
  | .pushed | .waiting | .returned => true
  | _ => false

namespace State

def unanswered (s : State) (w : Nat) : List QueuedCheckpoint :=
  ((s.workers w).map (·.unanswered)).getD []

theorem unanswered_of_some {s : State} {w : Nat} {p : WorkerPhase} (h : s.workers w = some p) :
    s.unanswered w = p.unanswered := by
  simp [unanswered, h]

/-- What is accepted, taken or queued stands in the relation to what the calls have pushed. -/
structure Flow (R : List QueuedCheckpoint → List QueuedCheckpoint → Prop) (s : State)
    (pushed : List QueuedCheckpoint) : Prop where
  order : ∃ w, (∀ v, v ≠ w → s.unanswered v = []) ∧
    R (acceptedEntries s.log ++ s.unanswered w ++ s.queue) pushed
  owned : ∀ e ∈ pushed, ∃ k, s.callers e.notify = some k ∧ k.queued e.notify = e ∧
    k.phase.hasPushed = true
  nodup : (pushed.map (·.notify)).Nodup

/-- The calls have pushed these checkpoints, in this order. -/
structure Stream (s : State) (pushed : List QueuedCheckpoint) : Prop where
  order : ∃ w, (∀ v, v ≠ w → s.unanswered v = []) ∧
    acceptedEntries s.log ++ s.unanswered w ++ s.queue = pushed
  owned : ∀ e ∈ pushed, ∃ k, s.callers e.notify = some k ∧ k.queued e.notify = e ∧
    k.phase.hasPushed = true
  nodup : (pushed.map (·.notify)).Nodup

end State

/-- What a step pushes. -/
def pushes (s : State) : Label → List QueuedCheckpoint
  | .push c => ((s.callers c).map (·.queued c)).toList
  | _ => []

theorem Move.hasPushed {s s' : State} {l : Label} (h : Move s l s') {c : Nat} {k : Caller}
    (hk : s.callers c = some k) (hp : k.phase.hasPushed = true) :
    ∃ k', s'.callers c = some k' ∧ k'.queued c = k.queued c ∧ k'.phase.hasPushed = true := by
  have moved : ∀ {d : Nat} {j : Caller} {p : CallerPhase} {callers : Nat → Option Caller},
      s.callers d = some j → (j.phase.hasPushed = true → p.hasPushed = true) →
      callers = Function.update s.callers d (some { j with phase := p }) →
      ∃ k', callers c = some k' ∧ k'.queued c = k.queued c ∧ k'.phase.hasPushed = true := by
    rintro d j p _ hj hphase rfl
    by_cases hcd : c = d
    · subst hcd
      obtain rfl : j = k := Option.some.inj (hj.symm.trans hk)
      exact ⟨_, Function.update_self .., rfl, hphase hp⟩
    · exact ⟨k, (Function.update_of_ne hcd _ _).trans hk, rfl, hp⟩
  have before : ∀ {p : CallerPhase} {q : CallerPhase}, p = q → q.hasPushed = false →
      ∀ {b : Prop}, p.hasPushed = true → b := by
    rintro p _ rfl hq _ hp
    rw [hq] at hp
    cases hp
  cases h with
  | @call d kind stepId update hd =>
    have hcd : c ≠ d := by
      rintro rfl
      rw [hd] at hk
      cases hk
    exact ⟨k, (Function.update_of_ne hcd _ _).trans hk, rfl, hp⟩
  | checkTerminating hj hphase | checkAncestor hj hphase | track hj hphase | push hj hphase =>
    exact moved hj (before hphase rfl) rfl
  | @startBusy _ _ j hj _ _ | @startWorker _ _ j hj _ _ _ =>
    exact moved hj (fun _ => by cases j.kind <;> rfl) rfl
  | wake hj _ _ => exact moved hj (fun _ => rfl) rfl
  | readToken _ | reject _ _ | send _ _ | fail _ | accept _ | writeToken _ | merge _ =>
    exact ⟨k, by rw [setCall_callers]; exact hk, rfl, hp⟩
  | _ => exact ⟨k, hk, rfl, hp⟩

/-- The call has not pushed and may still do so. -/
def CallerPhase.mayPush : CallerPhase → Bool
  | .entered | .notTerminating | .noFinishedAncestor | .tracked => true
  | _ => false

/-- Where the calls of a state come from. -/
theorem Move.callers_cases {s s' : State} {l : Label} (h : Move s l s') {c : Nat} {k' : Caller}
    (hk' : s'.callers c = some k') :
    (∃ k, s.callers c = some k ∧ k'.kind = k.kind ∧ k'.queued = k.queued ∧
      (k'.phase.hasPushed = k.phase.hasPushed ∨ l = .push c) ∧
      (k'.phase.mayPush = true → k.phase.mayPush = true)) ∨
    s.callers c = none ∧ ∃ kind stepId update, l = .call c kind stepId update ∧
      k' = ⟨kind, stepId, update, .entered⟩ := by
  have same : s'.callers = s.callers → ∃ k, s.callers c = some k ∧ k'.kind = k.kind ∧
      k'.queued = k.queued ∧ (k'.phase.hasPushed = k.phase.hasPushed ∨ l = .push c) ∧
      (k'.phase.mayPush = true → k.phase.mayPush = true) := by
    intro hsame
    rw [hsame] at hk'
    exact ⟨k', hk', rfl, rfl, Or.inl rfl, id⟩
  have moved : ∀ {d : Nat} {j : Caller} {p : CallerPhase}, s.callers d = some j →
      s'.callers = Function.update s.callers d (some { j with phase := p }) →
      (p.hasPushed = j.phase.hasPushed ∨ l = .push d) →
      (p.mayPush = true → j.phase.mayPush = true) → ∃ k, s.callers c = some k ∧ k'.kind = k.kind ∧
      k'.queued = k.queued ∧ (k'.phase.hasPushed = k.phase.hasPushed ∨ l = .push c) ∧
      (k'.phase.mayPush = true → k.phase.mayPush = true) := by
    intro d j p hj hcallers hpushed hmay
    rw [hcallers, Function.update_apply] at hk'
    split at hk'
    · rename_i hcd
      subst hcd
      obtain rfl := Option.some.inj hk'
      exact ⟨j, hj, rfl, rfl, hpushed, hmay⟩
    · exact ⟨k', hk', rfl, rfl, Or.inl rfl, id⟩
  cases h with
  | @call d kind stepId update hd =>
    by_cases hcd : c = d
    · subst hcd
      exact Or.inr ⟨hd, kind, stepId, update, rfl,
        Option.some.inj (hk'.symm.trans (Function.update_self ..))⟩
    · exact Or.inl ⟨k', (Function.update_of_ne hcd _ _).symm.trans hk', rfl, rfl, Or.inl rfl, id⟩
  | checkTerminating hj hp | checkAncestor hj hp =>
    refine Or.inl (moved hj rfl (Or.inl ?_) fun _ => by rw [hp]; rfl)
    rw [hp]
    split <;> rfl
  | track hj hp => exact Or.inl (moved hj rfl (Or.inl (by rw [hp]; rfl)) fun _ => by rw [hp]; rfl)
  | push hj hp => exact Or.inl (moved hj rfl (Or.inr rfl) nofun)
  | @startBusy _ _ j hj hp _ | @startWorker _ _ j hj hp _ _ =>
    refine Or.inl (moved hj rfl (Or.inl ?_) ?_)
    · rw [hp]
      cases j.kind <;> rfl
    · cases j.kind <;> nofun
  | wake hj hp _ => exact Or.inl (moved hj rfl (Or.inl (by rw [hp]; rfl)) nofun)
  | readToken _ | reject _ _ | send _ _ | fail _ | accept _ | writeToken _ | merge _ =>
    exact Or.inl (same (State.setCall_callers ..))
  | _ => exact Or.inl (same rfl)

theorem Move.caller_stays {s s' : State} {l : Label} (h : Move s l s') {c : Nat} {k : Caller}
    (hk : s.callers c = some k) : ∃ k', s'.callers c = some k' ∧ k'.kind = k.kind ∧
      k'.queued = k.queued ∧ (k'.phase.hasPushed = k.phase.hasPushed ∨ l = .push c) := by
  obtain ⟨k', hk', -⟩ := h.extends.callers c k hk
  obtain ⟨j, hj, hkind, hqueued, hphase, -⟩ | ⟨hnone, -⟩ := h.callers_cases hk'
  · obtain rfl : k = j := Option.some.inj (hk.symm.trans hj)
    exact ⟨k', hk', hkind, hqueued, hphase⟩
  · rw [hnone] at hk
    cases hk

theorem Caller.eq_of_queued {k k' : Caller} (hkind : k'.kind = k.kind) (hqueued : k'.queued = k.queued) :
    k' = { k with phase := k'.phase } := by
  obtain ⟨kind, stepId, update, phase⟩ := k'
  have hentry := congrFun hqueued 0
  simp only [Caller.queued, QueuedCheckpoint.mk.injEq, and_true] at hentry
  obtain ⟨rfl, rfl⟩ := hentry
  obtain rfl : kind = k.kind := hkind
  rfl

variable {s t : State} {pushed : List QueuedCheckpoint}
  {R : List QueuedCheckpoint → List QueuedCheckpoint → Prop}

theorem State.stream_iff : s.Stream pushed ↔ s.Flow (· = ·) pushed :=
  ⟨fun h => ⟨h.order, h.owned, h.nodup⟩, fun h => ⟨h.order, h.owned, h.nodup⟩⟩

/-- A step that pushes nothing and leaves the batches where they are. -/
theorem State.Flow.of_eq (h : s.Flow R pushed) {l : Label} (hm : Move s l t)
    (hunanswered : ∀ w, t.unanswered w = s.unanswered w)
    (hlog : acceptedEntries t.log = acceptedEntries s.log) (hqueue : t.queue = s.queue) :
    t.Flow R pushed := by
  obtain ⟨w, hothers, horder⟩ := h.order
  refine ⟨⟨w, fun v hv => ?_, ?_⟩, fun e he => ?_, h.nodup⟩
  · rw [hunanswered, hothers v hv]
  · rwa [hunanswered, hlog, hqueue]
  · obtain ⟨k, hk, hqueued, hphase⟩ := h.owned e he
    obtain ⟨k', hk', hqueued', hphase'⟩ := hm.hasPushed hk hphase
    exact ⟨k', hk', hqueued'.trans hqueued, hphase'⟩

theorem unanswered_update {w : Nat} {p : WorkerPhase}
    (hworkers : t.workers = Function.update s.workers w (some p)) (v : Nat) :
    t.unanswered v = if v = w then p.unanswered else s.unanswered v := by
  rw [unanswered, hworkers, Function.update_apply]
  split <;> rfl

theorem State.Flow.worker (h : s.Flow R pushed) {l : Label} (hm : Move s l t) {w : Nat}
    {p : WorkerPhase} (hworkers : t.workers = Function.update s.workers w (some p))
    (hp : p.unanswered = s.unanswered w) (hlog : acceptedEntries t.log = acceptedEntries s.log)
    (hqueue : t.queue = s.queue) : t.Flow R pushed := by
  refine h.of_eq hm (fun v => ?_) hlog hqueue
  rw [unanswered_update hworkers]
  split
  · rename_i hv
    rw [hp, hv]
  · rfl

theorem State.Flow.call (h : s.Flow R pushed) {l : Label} {o : Owner} {batch : List QueuedCheckpoint}
    {call call' : BatchCall} {r : State} (hm : Move s l (r.setCall batch call' o))
    (hcall : s.callOf o = some (batch, call))
    (hsame : (WorkerPhase.calling batch call').unanswered = (WorkerPhase.calling batch call).unanswered)
    (hworkers : r.workers = s.workers) (hlog : acceptedEntries r.log = acceptedEntries s.log)
    (hqueue : r.queue = s.queue) : (r.setCall batch call' o).Flow R pushed := by
  cases o with
  | force n =>
    refine h.of_eq hm (fun v => ?_) hlog hqueue
    change ((r.workers v).map (·.unanswered)).getD [] = _
    rw [hworkers]
    rfl
  | worker w =>
    refine h.worker hm (w := w) (p := .calling batch call') ?_ ?_ hlog hqueue
    · rw [← hworkers]
      rfl
    · rw [hsame, unanswered_of_some (callOf_worker.mp hcall)]

theorem State.Flow.accept (h : s.Flow R pushed) {o : Owner} {batch : List QueuedCheckpoint}
    {token : String} {updates : List OperationUpdate} {response : CheckpointResponse}
    (hcall : s.callOf o = some (batch, .inFlight token updates)) :
    ({ s with log := .accepted o batch token updates response :: s.log }.setCall batch
      (.responded response) o).Flow R pushed := by
  have hm : Move s (.respond o (.ok response)) _ := .accept hcall
  cases o with
  | force n =>
    obtain ⟨rfl, -⟩ := callOf_force.mp hcall
    exact h.of_eq hm (fun _ => rfl) (List.append_nil _) rfl
  | worker w =>
    have htaken : s.unanswered w = batch := unanswered_of_some (callOf_worker.mp hcall)
    obtain ⟨v, hothers, horder⟩ := h.order
    by_cases hwv : w = v
    · subst hwv
      refine ⟨⟨w, fun u hu => ?_, ?_⟩, h.owned, h.nodup⟩
      · rw [unanswered_update (s := s) (w := w) rfl, if_neg hu, hothers u hu]
      · rw [htaken] at horder
        rw [unanswered_update (s := s) (w := w) rfl, if_pos rfl]
        exact (List.append_nil (acceptedEntries s.log ++ batch)).symm ▸ horder
    · obtain rfl : batch = [] := htaken.symm.trans (hothers w hwv)
      exact h.worker hm rfl htaken.symm (List.append_nil _) rfl

theorem SingleWorker.unanswered_eq_nil {s : State} (h : ServedQueue.SingleWorker s.view) {w : Nat}
    {p : WorkerPhase} (hw : s.workers w = some p) (hp : p.stage.Active) {v : Nat} (hv : v ≠ w) :
    s.unanswered v = [] := by
  cases hq : s.workers v with
  | none => simp [unanswered, hq]
  | some q =>
    rw [unanswered_of_some hq]
    have hidle : ¬ q.stage.Active := by
      intro hactive
      refine hv (h.unique v w ?_ ?_)
      · rwa [view_workers hq]
      · rwa [view_workers hw]
    cases q with
    | calling batch call => exact absurd trivial hidle
    | _ => rfl

theorem State.Flow.lose (h : s.Flow R pushed) {l : Label} (hm : Move s l t)
    (hshrink : ∀ xs xs' ys, xs'.Sublist xs → R xs ys → R xs' ys) {w : Nat} {p : WorkerPhase}
    (hworkers : t.workers = Function.update s.workers w (some p)) (hp : p.unanswered = [])
    (hlog : acceptedEntries t.log = acceptedEntries s.log) (hqueue : t.queue.Sublist s.queue) :
    t.Flow R pushed := by
  have hless : ∀ v, (t.unanswered v).Sublist (s.unanswered v) := by
    intro v
    rw [unanswered_update hworkers]
    split
    · rw [hp]
      exact List.nil_sublist _
    · exact List.Sublist.refl _
  obtain ⟨v, hothers, horder⟩ := h.order
  refine ⟨⟨v, fun u hu => ?_, hshrink _ _ _ ?_ horder⟩, fun e he => ?_, h.nodup⟩
  · exact List.sublist_nil.mp (hothers u hu ▸ hless u)
  · rw [hlog]
    exact ((List.Sublist.refl _).append (hless v)).append hqueue
  · obtain ⟨k, hk, hqueued, hphase⟩ := h.owned e he
    obtain ⟨k', hk', hqueued', hphase'⟩ := hm.hasPushed hk hphase
    exact ⟨k', hk', hqueued'.trans hqueued, hphase'⟩

theorem State.Flow.lose_call (h : s.Flow R pushed) {l : Label} {o : Owner}
    {batch : List QueuedCheckpoint} {e : DurableError} {event : ServiceEvent}
    (hm : Move s l ({ s with log := event :: s.log }.setCall batch (.finished (.error e)) o))
    (hshrink : ∀ xs xs' ys, xs'.Sublist xs → R xs ys → R xs' ys)
    (hlog : acceptedEntries (event :: s.log) = acceptedEntries s.log) :
    ({ s with log := event :: s.log }.setCall batch (.finished (.error e)) o).Flow R pushed := by
  cases o with
  | force n => exact h.of_eq hm (fun _ => rfl) hlog rfl
  | worker w => exact h.lose hm hshrink (w := w) rfl rfl hlog (List.Sublist.refl _)

/-- What one step does to the sequence of pushes; if the relation does not allow losses, no
batch fails. -/
theorem State.Flow.step (h : s.Flow R pushed) {l : Label} (hm : Move s l t)
    (hsnoc : ∀ xs ys e, R xs ys → R (xs ++ [e]) (ys ++ [e]))
    (hloss : (∀ xs xs' ys, xs'.Sublist xs → R xs ys → R xs' ys) ∨
      rejects s l = false ∧ ∀ w p, s.workers w = some p → p.onFailurePath = false)
    (hsingle : ServedQueue.SingleWorker s.view) : t.Flow R (pushed ++ pushes s l) := by
  have hquiet : pushes s l = [] → t.Flow R pushed → t.Flow R (pushed ++ pushes s l) := by
    intro hnone ht
    rwa [hnone, List.append_nil]
  have hmove := hm
  cases hm with
  | @push c k hk hp =>
    obtain ⟨w, hothers, horder⟩ := h.order
    have hpushed : pushes s (.push c) = [k.queued c] := by simp [pushes, hk]
    rw [hpushed]
    refine ⟨⟨w, hothers, ?_⟩, fun e he => ?_, ?_⟩
    · have hnext := hsnoc _ _ (k.queued c) horder
      rwa [List.append_assoc] at hnext
    · obtain he | he := List.mem_append.mp he
      · obtain ⟨j, hj, hqueued, hphase⟩ := h.owned e he
        obtain ⟨j', hj', hqueued', hphase'⟩ := hmove.hasPushed hj hphase
        exact ⟨j', hj', hqueued'.trans hqueued, hphase'⟩
      · obtain rfl := List.mem_singleton.mp he
        exact ⟨_, Function.update_self .., rfl, rfl⟩
    · rw [List.map_append, List.nodup_append]
      refine ⟨h.nodup, List.nodup_singleton _, ?_⟩
      rintro _ hmem _ hc rfl
      obtain ⟨e, he, hnotify⟩ := List.mem_map.mp hmem
      obtain ⟨j, hj, -, hphase⟩ := h.owned e he
      obtain hc : e.notify = c := hnotify.trans (List.mem_singleton.mp hc)
      obtain rfl : k = j := Option.some.inj (hk.symm.trans (hc ▸ hj))
      rw [hp] at hphase
      cases hphase
  | @take w hw hne =>
    refine hquiet rfl ?_
    have hothers : ∀ v, v ≠ w → s.unanswered v = [] := fun v hv =>
      SingleWorker.unanswered_eq_nil hsingle hw trivial hv
    have hown : s.unanswered w = [] := unanswered_of_some hw
    obtain ⟨u, -, horder⟩ := h.order
    have hall : s.unanswered u = [] := by
      by_cases huw : u = w
      · rw [huw, hown]
      · exact hothers u huw
    rw [hall, List.append_nil] at horder
    refine ⟨⟨w, fun v hv => ?_, ?_⟩, h.owned, h.nodup⟩
    · rw [unanswered_update (s := s) (w := w) rfl, if_neg hv, hothers v hv]
    · rw [unanswered_update (s := s) (w := w) rfl, if_pos rfl, List.append_assoc]
      exact (buildBatch_append s.queue).symm ▸ horder
  | accept hcall => exact hquiet rfl (h.accept hcall)
  | fail hcall =>
    refine hquiet rfl (h.lose_call hmove (hloss.resolve_right ?_) rfl)
    rintro ⟨hrejects, -⟩
    cases hrejects
  | reject hcall he =>
    refine hquiet rfl (h.lose_call hmove (hloss.resolve_right ?_) rfl)
    rintro ⟨hrejects, -⟩
    simp [rejects, hcall, he, Except.toOption] at hrejects
  | drain hw =>
    refine hquiet rfl (h.lose hmove (hloss.resolve_right ?_) rfl rfl rfl (List.nil_sublist _))
    rintro ⟨-, hpath⟩
    cases hpath _ _ hw
  | readToken hcall | send hcall _ | writeToken hcall | merge hcall =>
    exact hquiet rfl (h.call hmove hcall rfl rfl rfl rfl)
  | quit hw _ | finishOk hw | finishError hw | notify hw | notifiedOk hw | notifiedError hw
  | release hw | notifyWaiters hw =>
    exact hquiet rfl (h.worker hmove rfl (unanswered_of_some hw).symm rfl rfl)
  | @workerTerminate _ _ _ _ resume _ hw _ =>
    refine hquiet rfl (h.worker hmove rfl ?_ rfl rfl)
    rw [unanswered_of_some hw]
    cases resume <;> split <;> rfl
  | checkRetry hw | recheckRetry hw =>
    refine hquiet rfl (h.worker hmove rfl ?_ rfl rfl)
    rw [unanswered_of_some hw]
    split <;> rfl
  | @startWorker _ w _ _ _ _ hw =>
    refine hquiet rfl (h.of_eq hmove (fun v => ?_) rfl rfl)
    change (((Function.update s.workers w (some .top)) v).map (·.unanswered)).getD [] = _
    rw [Function.update_apply]
    split
    · rename_i hv
      simp [unanswered, hv, hw, WorkerPhase.unanswered]
    · rfl
  | _ => exact hquiet rfl (h.of_eq hmove (fun _ => rfl) rfl rfl)

theorem State.Stream.step (h : s.Stream pushed) {l : Label} (hm : Move s l t)
    (hrejects : rejects s l = false) (hsingle : ServedQueue.SingleWorker s.view)
    (hpath : FailurePathFailed s) (hfailed : ¬ s.Failed) : t.Stream (pushed ++ pushes s l) := by
  have hflow := State.stream_iff.mp h
  refine State.stream_iff.mpr (hflow.step hm (fun _ _ _ hxs => congrArg (· ++ _) hxs) ?_ hsingle)
  refine Or.inr ⟨hrejects, fun w p hw => ?_⟩
  by_contra hp
  exact hfailed (hpath w p hw (by simpa using hp))

theorem flow_new (token : String) (stepData : Table) :
    (State.new token stepData).Flow List.Sublist [] where
  order := ⟨0, fun _ _ => rfl, List.Sublist.refl _⟩
  owned _ he := (List.not_mem_nil he).elim
  nodup := List.nodup_nil

theorem stream_new (token : String) (stepData : Table) : (State.new token stepData).Stream [] where
  order := ⟨0, fun _ _ => rfl, rfl⟩
  owned _ he := (List.not_mem_nil he).elim
  nodup := List.nodup_nil

/-! ## Runs in which no batch fails -/

def NoneRejected (s : State) (l : Label) : Prop := rejects s l = false

variable {token : String} {stepData : Table}

theorem not_failed (h : (machine token stepData).ReachableBy NoneRejected s) : ¬ s.Failed := by
  refine h.invariant (I := fun s => ¬ s.Failed) ?_ ?_
  · rintro _ rfl hfailed
    cases hfailed
  · intro s l s' _ hs hl hstep hfailed
    obtain hbefore | hrejects := (move_of_step hstep).failed hfailed
    · exact hs hbefore
    · rw [hl] at hrejects
      cases hrejects

theorem sound_of_noneRejected (h : (machine token stepData).ReachableBy NoneRejected s) : Sound s := by
  refine h.invariant (fun _ hs => hs ▸ sound_new token stepData) fun r l _ hr hsound _ hstep => ?_
  exact hsound.step (move_of_step hstep)
    (releasesAcked_of_not_failed (failurePathFailed hr) (not_failed hr) l)

theorem singleWorker {allow : State → Label → Prop} (h : (machine token stepData).ReachableBy allow s) :
    ServedQueue.SingleWorker s.view :=
  ServedQueue.singleWorker_run (view_new_fresh token stepData)
    (simulated (fun _ _ => True) (fun _ _ _ _ _ => trivial) h)

theorem State.Stream.of_reachable (h : s.Stream pushed)
    (hs : (machine token stepData).ReachableBy NoneRejected s) {l : Label} (hl : rejects s l = false)
    (hm : Move s l t) : t.Stream (pushed ++ pushes s l) :=
  h.step hm hl (singleWorker hs) (failurePathFailed hs) (not_failed hs)

theorem State.Flow.of_reachable (h : s.Flow List.Sublist pushed) {allow : State → Label → Prop}
    (hs : (machine token stepData).ReachableBy allow s) {l : Label} (hm : Move s l t) :
    t.Flow List.Sublist (pushed ++ pushes s l) :=
  h.step hm (fun _ _ _ hxs => hxs.append (List.Sublist.refl _))
    (Or.inl fun _ _ _ hless hxs => hless.trans hxs) (singleWorker hs)

/-- What is in flight is what the batch's calls had asked for. -/
theorem coalesced_of_inFlight {allow : State → Label → Prop}
    (h : (machine token stepData).ReachableBy allow s) {o : Owner} {batch : List QueuedCheckpoint}
    {token' : String} {updates : List OperationUpdate}
    (hcall : s.callOf o = some (batch, .inFlight token' updates)) :
    coalesceUpdates (batch.map (·.update)) = .ok updates := by
  refine h.invariant (I := fun s => ∀ o batch token' updates,
    s.callOf o = some (batch, .inFlight token' updates) →
      coalesceUpdates (batch.map (·.update)) = .ok updates) ?_ ?_ o batch token' updates hcall
  · rintro _ rfl o _ _ _ hcall
    cases o <;> cases hcall
  · intro s l s' _ hs _ hstep o batch token' updates hcall
    have same : s'.workers = s.workers → s'.forces = s.forces →
        coalesceUpdates (batch.map (·.update)) = .ok updates := by
      intro hworkers hforces
      apply hs o batch token' updates
      rw [← hcall]
      cases o <;> simp only [callOf, hworkers, hforces]
    have worker : ∀ {w : Nat} {p : WorkerPhase}, s'.workers = Function.update s.workers w (some p) →
        s'.forces = s.forces → p ≠ .calling batch (.inFlight token' updates) →
        coalesceUpdates (batch.map (·.update)) = .ok updates := by
      intro w p hworkers hforces hp
      cases o with
      | force n =>
        apply hs (.force n) batch token' updates
        rw [← hcall]
        simp only [callOf, hforces]
      | worker v =>
        have hv := callOf_worker.mp hcall
        rw [hworkers] at hv
        exact hs (.worker v) batch token' updates
          (callOf_worker.mpr ((eq_or_of_update hv).resolve_right hp))
    have moved : ∀ {r : State} {o' : Owner} {taken : List QueuedCheckpoint} {call call' : BatchCall},
        s' = r.setCall taken call' o' → s.callOf o' = some (taken, call) → r.workers = s.workers →
        r.forces = s.forces → (call' = .inFlight token' updates →
          coalesceUpdates (taken.map (·.update)) = .ok updates) →
        coalesceUpdates (batch.map (·.update)) = .ok updates := by
      intro r o' taken call call' hs' ho' hworkers hforces hnew
      subst hs'
      cases o' with
      | worker w =>
        by_cases hp : WorkerPhase.calling taken call' = .calling batch (.inFlight token' updates)
        · cases hp
          exact hnew rfl
        · exact worker (w := w) (p := .calling taken call') (hworkers ▸ rfl) hforces hp
      | force m =>
        cases o with
        | worker v =>
          apply hs (.worker v) batch token' updates
          rw [← hcall]
          simp only [callOf, setCall, setForce, hworkers]
        | force n =>
          obtain ⟨rfl, hn⟩ := callOf_force.mp hcall
          obtain ⟨rfl, -⟩ := callOf_force.mp ho'
          obtain hn | hn := eq_or_of_update hn
          · exact hs (.force n) [] token' updates (callOf_force.mpr ⟨rfl, hforces ▸ hn⟩)
          · exact hnew hn
    cases move_of_step hstep with
    | send hbatch hok =>
      refine moved rfl hbatch rfl rfl fun heq => ?_
      cases heq
      exact hok
    | readToken hbatch | reject hbatch _ | fail hbatch | accept hbatch | writeToken hbatch
    | merge hbatch => exact moved rfl hbatch rfl rfl (by rintro ⟨⟩)
    | @force n _ =>
      cases o with
      | worker v => exact hs (.worker v) batch token' updates hcall
      | force m =>
        obtain ⟨rfl, hm⟩ := callOf_force.mp hcall
        exact hs (.force m) [] token' updates
          (callOf_force.mpr ⟨rfl, (eq_or_of_update hm).resolve_right (by rintro ⟨⟩)⟩)
    | take _ _ | quit _ _ | finishOk _ | finishError _ | notify _ | notifiedOk _ | notifiedError _
    | drain _ | release _ | notifyWaiters _ | startWorker _ _ _ _ => exact worker rfl rfl (by rintro ⟨⟩)
    | checkRetry _ | recheckRetry _ =>
      refine worker rfl rfl ?_
      split <;> rintro ⟨⟩
    | @workerTerminate _ _ _ _ resume _ _ _ =>
      refine worker rfl rfl ?_
      cases resume <;> split <;> rintro ⟨⟩
    | _ => exact same rfl rfl

theorem mem_acceptedEntries {log : List ServiceEvent} {o : Owner} {batch : List QueuedCheckpoint}
    {token' : String} {updates : List OperationUpdate} {response : CheckpointResponse}
    {e : QueuedCheckpoint} (h : .accepted o batch token' updates response ∈ log) (he : e ∈ batch) :
    e ∈ acceptedEntries log := by
  induction log with
  | nil => exact (List.not_mem_nil h).elim
  | cons event log ih =>
    obtain rfl | hlog := List.mem_cons.mp h
    · exact List.mem_append_right _ he
    · cases event with
      | accepted _ _ _ _ _ => exact List.mem_append_left _ (ih hlog)
      | _ => exact ih hlog

/-- The log of a step other than an accepted answer shows no further entry. -/
theorem Move.acceptedEntries {s s' : State} {l : Label} (h : Move s l s') :
    (acceptedEntries s'.log = acceptedEntries s.log ∧ ∀ o response, l ≠ .respond o (.ok response)) ∨
      ∃ o batch token' updates response, l = .respond o (.ok response) ∧
        s.callOf o = some (batch, .inFlight token' updates) ∧
        CheckpointManager.acceptedEntries s'.log =
          CheckpointManager.acceptedEntries s.log ++ batch := by
  cases h with
  | @accept o batch token' updates response hcall =>
    refine Or.inr ⟨o, batch, token', updates, response, rfl, hcall, ?_⟩
    rw [setCall_log]
    rfl
  | @readToken o _ _ | @reject o _ _ _ _ _ | @send o _ _ _ _ _ | @fail o _ _ _ _ _
  | @writeToken o _ _ _ | @merge o _ _ _ =>
    refine Or.inl ⟨?_, nofun⟩
    cases o <;> rfl
  | _ => exact Or.inl ⟨rfl, nofun⟩

end LambdaDurable.CheckpointManager
