import LambdaDurable.Checkpoint.WakeUp

/-!
# What a returned checkpoint call knows

`process_queue` releases a waiter the same way whether its batch was acknowledged, was
rejected, or was drained behind a rejected one, and `checkpoint` returns `Ok` in all three cases.
-/

namespace LambdaDurable.CheckpointManager

open State

/-- The checkpoint a call queues. -/
def Caller.queued (k : Caller) (c : Nat) : QueuedCheckpoint := ⟨k.stepId, k.update, c⟩

theorem Caller.update_eq_of_queued {k k' : Caller} (h : k'.queued = k.queued) :
    k'.update = k.update := by
  injection congrFun h 0

namespace State

/-- A successful service call carried this batch. -/
def Acked (s : State) (batch : List QueuedCheckpoint) : Prop :=
  ∃ o token updates response, .accepted o batch token updates response ∈ s.log ∧
    coalesceUpdates (batch.map (·.update)) = .ok updates

/-- A queued checkpoint belongs to the call whose number it carries. -/
def Owns (s : State) (e : QueuedCheckpoint) : Prop :=
  ∃ k, s.callers e.notify = some k ∧ k.queued e.notify = e

/-- Somebody awaits the outcome of this call's checkpoint. -/
def Awaited (s : State) (c : Nat) : Prop := ∃ k, s.callers c = some k ∧ k.kind = .checkpoint

end State

/-- The worker releases no `checkpoint` call from a failed batch or from the queue behind it. -/
def ReleasesAcked (s : State) (l : Label) : Prop :=
  (∀ w e rest failure, l = .notify w → s.workers w = some (.notifying (e :: rest) (some failure)) →
    ¬ s.Awaited e.notify) ∧
  (∀ w failure, l = .drain w → s.workers w = some (.draining failure) →
    ∀ e ∈ s.queue, ¬ s.Awaited e.notify)

/-! ## What never changes along a run -/

/-- The log grows, and a call keeps its kind, its ID and its update. -/
structure Extends (s t : State) : Prop where
  log : ∀ event ∈ s.log, event ∈ t.log
  callers : ∀ c k, s.callers c = some k →
    ∃ k', t.callers c = some k' ∧ k'.kind = k.kind ∧ k'.queued = k.queued

theorem Extends.refl (s : State) : Extends s s :=
  ⟨fun _ h => h, fun _ k hk => ⟨k, hk, rfl, rfl⟩⟩

theorem Extends.of_eq {s t : State} (hlog : ∀ event ∈ s.log, event ∈ t.log)
    (hcallers : t.callers = s.callers) : Extends s t :=
  ⟨hlog, fun c k hk => ⟨k, by rw [hcallers]; exact hk, rfl, rfl⟩⟩

theorem Extends.phase {s t : State} {c : Nat} {k : Caller} {p : CallerPhase}
    (hk : s.callers c = some k) (hlog : t.log = s.log)
    (hcallers : t.callers = Function.update s.callers c (some { k with phase := p })) :
    Extends s t := by
  refine ⟨fun event h => by rwa [hlog], fun d j hj => ?_⟩
  rw [hcallers]
  obtain rfl | hd := eq_or_ne d c
  · obtain rfl : k = j := Option.some.inj (hk.symm.trans hj)
    exact ⟨_, Function.update_self .., rfl, rfl⟩
  · exact ⟨j, by rwa [Function.update_of_ne hd], rfl, rfl⟩

theorem Move.extends {s s' : State} {l : Label} (h : Move s l s') : Extends s s' := by
  cases h with
  | @call c kind stepId update hc =>
      refine ⟨fun _ h => h, fun d j hj => ?_⟩
      have hd : d ≠ c := by
        rintro rfl
        rw [hc] at hj
        cases hj
      exact ⟨j, (Function.update_of_ne hd _ _).trans hj, rfl, rfl⟩
  | checkTerminating hk _ | checkAncestor hk _ | track hk _ | push hk _ | startBusy hk _ _
  | startWorker hk _ _ _ | wake hk _ _ => exact Extends.phase hk rfl rfl
  | reject _ _ | send _ _ | fail _ | accept _ =>
      refine Extends.of_eq (fun event h => ?_) (setCall_callers ..)
      rw [setCall_log]
      exact List.mem_cons_of_mem _ h
  | readToken _ | writeToken _ | merge _ =>
      refine Extends.of_eq (fun event h => ?_) (setCall_callers ..)
      rwa [setCall_log]
  | _ => exact Extends.of_eq (fun _ h => h) rfl

namespace Extends

variable {s t : State}

theorem acked (h : Extends s t) {batch : List QueuedCheckpoint} (hb : s.Acked batch) :
    t.Acked batch := by
  obtain ⟨o, token, updates, response, hlog, hupdates⟩ := hb
  exact ⟨o, token, updates, response, h.log _ hlog, hupdates⟩

theorem owns (h : Extends s t) {e : QueuedCheckpoint} (he : s.Owns e) : t.Owns e := by
  obtain ⟨k, hk, hq⟩ := he
  obtain ⟨k', hk', -, hq'⟩ := h.callers _ k hk
  exact ⟨k', hk', by rw [hq', hq]⟩

end Extends

/-! ## Batches in hand -/

def BatchCall.Sound (s : State) (batch : List QueuedCheckpoint) : BatchCall → Prop
  | .inFlight _ updates => coalesceUpdates (batch.map (·.update)) = .ok updates
  | .responded _ | .merging _ | .finished (.ok _) => s.Acked batch
  | _ => True

def WorkerPhase.Sound (s : State) : WorkerPhase → Prop
  | .calling batch call => (∀ e ∈ batch, s.Owns e) ∧ call.Sound s batch
  | .notifying rest none => (∀ e ∈ rest, s.Owns e) ∧ ∃ batch, s.Acked batch ∧ ∀ e ∈ rest, e ∈ batch
  | .notifying rest (some _) => ∀ e ∈ rest, s.Owns e
  | _ => True

/-- A released call: if somebody awaits it, its checkpoint was acknowledged. -/
def Released (s : State) (c : Nat) : Prop :=
  ∃ k, s.callers c = some k ∧
    (k.kind = .checkpoint → ∃ batch, s.Acked batch ∧ k.queued c ∈ batch)

theorem BatchCall.Sound.extend {s t : State} (hext : Extends s t) {batch : List QueuedCheckpoint}
    {call : BatchCall} (h : call.Sound s batch) : call.Sound t batch := by
  obtain _ | _ | _ | _ | _ | (_ | _) := call
  · trivial
  · trivial
  · exact h
  · exact hext.acked h
  · exact hext.acked h
  · trivial
  · exact hext.acked h

theorem WorkerPhase.Sound.extend {s t : State} (hext : Extends s t) {p : WorkerPhase}
    (h : p.Sound s) : p.Sound t := by
  rcases p with _ | ⟨batch, call⟩ | ⟨rest, _ | _⟩ | _ | _ | _ | _ | _ | _ | _ <;> try trivial
  · exact ⟨fun e he => hext.owns (h.1 e he), h.2.extend hext⟩
  · obtain ⟨howns, batch, hacked, hrest⟩ := h
    exact ⟨fun e he => hext.owns (howns e he), batch, hext.acked hacked, hrest⟩
  · exact fun e he => hext.owns (h e he)

theorem Released.extend {s t : State} (hext : Extends s t) {c : Nat} (h : Released s c) :
    Released t c := by
  obtain ⟨k, hk, hacked⟩ := h
  obtain ⟨k', hk', hkind, hq⟩ := hext.callers c k hk
  refine ⟨k', hk', fun hcheck => ?_⟩
  obtain ⟨batch, hb, hmem⟩ := hacked (hkind ▸ hcheck)
  exact ⟨batch, hext.acked hb, by rwa [hq]⟩

structure Sound (s : State) : Prop where
  queue : ∀ e ∈ s.queue, s.Owns e
  workers : ∀ w p, s.workers w = some p → p.Sound s
  notified : ∀ c, s.notified c = true → Released s c
  returned : ∀ c k, s.callers c = some k → k.kind = .checkpoint → k.phase = .returned →
    s.notified c = true

theorem Sound.of_changes {s t : State} (h : Sound s) (hext : Extends s t)
    (hqueue : ∀ e ∈ t.queue, e ∈ s.queue ∨ t.Owns e)
    (hworkers : ∀ w p, t.workers w = some p → s.workers w = some p ∨ p.Sound t)
    (hnotified : ∀ c, t.notified c = true → s.notified c = true ∨ Released t c)
    (hreturned : ∀ c k, t.callers c = some k → k.kind = .checkpoint → k.phase = .returned →
      t.notified c = true) : Sound t where
  queue e he := (hqueue e he).elim (fun hs => hext.owns (h.queue e hs)) id
  workers w p hp := (hworkers w p hp).elim (fun hs => (h.workers w p hs).extend hext) id
  notified c hc := (hnotified c hc).elim (fun hs => (h.notified c hs).extend hext) id
  returned := hreturned

/-- A call moves on, and nothing else of the state is touched but perhaps a fresh worker. -/
theorem Sound.caller {s t : State} (h : Sound s) (hext : Extends s t) {c : Nat} {k : Caller}
    (hqueue : ∀ e ∈ t.queue, e ∈ s.queue ∨ t.Owns e)
    (hworkers : ∀ w p, t.workers w = some p → s.workers w = some p ∨ p.Sound t)
    (hnotified : t.notified = s.notified) (hcallers : t.callers = Function.update s.callers c (some k))
    (hk : k.kind = .checkpoint → k.phase = .returned → s.notified c = true) : Sound t := by
  refine h.of_changes hext hqueue hworkers (fun d hd => Or.inl (hnotified ▸ hd)) ?_
  intro d j hj hkind hret
  rw [hnotified]
  rw [hcallers, Function.update_apply] at hj
  split at hj
  · rename_i hd
    obtain rfl := Option.some.inj hj
    exact hd ▸ hk hkind hret
  · exact h.returned d j hj hkind hret

/-- A worker moves on without touching the queue or the callers. -/
theorem Sound.worker {s t : State} (h : Sound s) (hext : Extends s t) {w : Nat} {p : WorkerPhase}
    (hqueue : ∀ e ∈ t.queue, e ∈ s.queue) (hworkers : t.workers = Function.update s.workers w (some p))
    (hp : p.Sound t) (hnotified : ∀ c, t.notified c = true → s.notified c = true ∨ Released t c)
    (hmono : ∀ c, s.notified c = true → t.notified c = true) (hcallers : t.callers = s.callers) :
    Sound t := by
  refine h.of_changes hext (fun e he => Or.inl (hqueue e he)) (fun v q hq => ?_) hnotified ?_
  · rw [hworkers] at hq
    refine (eq_or_of_update hq).imp_right ?_
    rintro rfl
    exact hp
  · intro c k hk hkind hret
    rw [hcallers] at hk
    exact hmono c (h.returned c k hk hkind hret)

theorem Sound.call {s t : State} (h : Sound s) {o : Owner} {batch : List QueuedCheckpoint}
    {call call' : BatchCall} (hcall : s.callOf o = some (batch, call))
    (hext : Extends s (t.setCall batch call' o)) (hqueue : t.queue = s.queue)
    (hworkers : t.workers = s.workers) (hnotified : t.notified = s.notified)
    (hcallers : t.callers = s.callers)
    (hsound : call.Sound s batch → call'.Sound (t.setCall batch call' o) batch) :
    Sound (t.setCall batch call' o) := by
  cases o with
  | force n =>
      have hret : ∀ c k, t.callers c = some k → k.kind = .checkpoint → k.phase = .returned →
          t.notified c = true := by
        rw [hcallers, hnotified]
        exact h.returned
      refine h.of_changes hext (fun e he => Or.inl ?_) (fun w p hp => Or.inl ?_)
        (fun c hc => Or.inl ?_) hret
      · rw [← hqueue]
        exact he
      · rw [← hworkers]
        exact hp
      · rw [← hnotified]
        exact hc
  | worker w =>
      have hw := callOf_worker.mp hcall
      obtain ⟨howns, hcs⟩ := h.workers w _ hw
      refine h.worker hext (w := w) (p := .calling batch call') (fun e he => hqueue ▸ he) ?_
        ⟨fun e he => hext.owns (howns e he), hsound hcs⟩ (fun c hc => Or.inl (hnotified ▸ hc))
        (fun c hc => ?_) hcallers
      · rw [← hworkers]
        rfl
      · rw [← hnotified] at hc
        exact hc

theorem Sound.step {s s' : State} {l : Label} (h : Sound s) (hm : Move s l s')
    (hl : ReleasesAcked s l) : Sound s' := by
  have hext := hm.extends
  cases hm with
  | @call c kind stepId update hc =>
      exact h.caller hext (fun _ he => Or.inl he) (fun _ _ hp => Or.inl hp) rfl rfl (by nofun)
  | checkTerminating hk hp =>
      refine h.caller hext (fun _ he => Or.inl he) (fun _ _ hp => Or.inl hp) rfl rfl fun _ hret => ?_
      dsimp only at hret
      split at hret <;> cases hret
  | checkAncestor hk hp =>
      refine h.caller hext (fun _ he => Or.inl he) (fun _ _ hp => Or.inl hp) rfl rfl fun _ hret => ?_
      dsimp only at hret
      split at hret <;> cases hret
  | track hk hp =>
      exact h.caller hext (fun _ he => Or.inl he) (fun _ _ hp => Or.inl hp) rfl rfl (by nofun)
  | @push c k hk hp =>
      refine h.caller hext (fun e he => ?_) (fun _ _ hp => Or.inl hp) rfl rfl (by nofun)
      refine (List.mem_append.mp he).imp_right fun hmem => ?_
      rw [List.mem_singleton.mp hmem]
      exact ⟨{ k with phase := .pushed }, Function.update_self .., rfl⟩
  | @startBusy c w k hk hp hbusy =>
      refine h.caller hext (fun _ he => Or.inl he) (fun _ _ hp => Or.inl hp) rfl rfl fun hkind hret => ?_
      dsimp only at hkind hret
      rw [hkind] at hret
      cases hret
  | @startWorker c w k hk hp hbusy hw =>
      refine h.caller hext (fun _ he => Or.inl he) (fun v p hp => ?_) rfl rfl fun hkind hret => ?_
      · refine (eq_or_of_update hp).imp_right ?_
        rintro rfl
        trivial
      · dsimp only at hkind hret
        rw [hkind] at hret
        cases hret
  | wake hk hp hn =>
      exact h.caller hext (fun _ he => Or.inl he) (fun _ _ hp => Or.inl hp) rfl rfl fun _ _ => hn
  | quit hw hempty =>
      exact h.worker hext (fun _ he => he) rfl trivial (fun _ hc => Or.inl hc) (fun _ hc => hc) rfl
  | @take w hw hne =>
      have hsplit := buildBatch_append s.queue
      refine h.worker hext (fun e he => ?_) rfl ⟨fun e he => ?_, trivial⟩ (fun _ hc => Or.inl hc)
        (fun _ hc => hc) rfl
      · rw [← hsplit]
        exact List.mem_append_right _ he
      · refine hext.owns (h.queue e ?_)
        rw [← hsplit]
        exact List.mem_append_left _ he
  | readToken hcall | reject hcall _ | fail hcall =>
      exact h.call hcall hext rfl rfl rfl rfl fun _ => trivial
  | send hcall hupdates => exact h.call hcall hext rfl rfl rfl rfl fun _ => hupdates
  | @accept o batch token updates response hcall =>
      refine h.call hcall hext rfl rfl rfl rfl fun hupdates => ?_
      refine ⟨o, token, updates, response, ?_, hupdates⟩
      rw [setCall_log]
      exact List.mem_cons_self
  | writeToken hcall | merge hcall =>
      exact h.call hcall hext rfl rfl rfl rfl fun hacked => hext.acked hacked
  | finishOk hw =>
      obtain ⟨howns, hacked⟩ := h.workers _ _ hw
      refine h.worker hext (fun _ he => he) rfl ⟨fun e he => hext.owns (howns e he), _, hext.acked hacked,
        fun _ he => he⟩ (fun _ hc => Or.inl hc) (fun _ hc => hc) rfl
  | finishError hw =>
      obtain ⟨howns, -⟩ := h.workers _ _ hw
      exact h.worker hext (fun _ he => he) rfl (fun e he => hext.owns (howns e he))
        (fun _ hc => Or.inl hc) (fun _ hc => hc) rfl
  | @notify w e rest failure hw =>
      have hmono : ∀ c, s.notified c = true → Function.update s.notified e.notify true c = true := by
        intro c hc
        rw [Function.update_apply]
        split
        · rfl
        · exact hc
      have hreleased : Released s e.notify → ∀ c, Function.update s.notified e.notify true c = true →
          s.notified c = true ∨ Released s c := by
        intro hrel c hc
        rw [Function.update_apply] at hc
        split at hc
        · rename_i heq
          exact Or.inr (heq ▸ hrel)
        · exact Or.inl hc
      cases failure with
      | none =>
          obtain ⟨howns, batch, hacked, hrest⟩ := h.workers _ _ hw
          have hrel : Released s e.notify := by
            obtain ⟨k, hk, hq⟩ := howns e List.mem_cons_self
            exact ⟨k, hk, fun _ => ⟨batch, hacked, by rw [hq]; exact hrest e List.mem_cons_self⟩⟩
          refine h.worker hext (fun _ he => he) rfl ?_
            (fun c hc => (hreleased hrel c hc).imp_right (Released.extend hext)) hmono rfl
          exact ⟨fun e he => hext.owns (howns e (List.mem_cons_of_mem _ he)), batch, hext.acked hacked,
            fun e he => hrest e (List.mem_cons_of_mem _ he)⟩
      | some failure =>
          have howns := h.workers _ _ hw
          have hrel : Released s e.notify := by
            obtain ⟨k, hk, -⟩ := howns e List.mem_cons_self
            exact ⟨k, hk, fun hkind => absurd ⟨k, hk, hkind⟩ (hl.1 w e rest failure rfl hw)⟩
          exact h.worker hext (fun _ he => he) rfl
            (fun e he => hext.owns (howns e (List.mem_cons_of_mem _ he)))
            (fun c hc => (hreleased hrel c hc).imp_right (Released.extend hext)) hmono rfl
  | @drain w failure hw =>
      refine h.worker hext (fun _ he => (List.not_mem_nil he).elim) rfl trivial (fun c hc => ?_)
        (fun _ hc => Bool.or_eq_true_iff.mpr (Or.inl hc)) rfl
      refine (Bool.or_eq_true_iff.mp hc).imp_right fun hany => ?_
      obtain ⟨e, he, heq⟩ := List.any_eq_true.mp hany
      obtain rfl : e.notify = c := by simpa using heq
      obtain ⟨k, hk, -⟩ := h.queue e he
      exact Released.extend hext
        ⟨k, hk, fun hkind => absurd ⟨k, hk, hkind⟩ (hl.2 w failure rfl hw e he)⟩
  | notifiedOk _ | notifiedError _ | release _ | notifyWaiters _ =>
      exact h.worker hext (fun _ he => he) rfl trivial (fun _ hc => Or.inl hc) (fun _ hc => hc) rfl
  | @workerTerminate w stage stage' result resume t hw hadv =>
      refine h.worker hext (fun _ he => he) rfl ?_ (fun _ hc => Or.inl hc) (fun _ hc => hc) rfl
      cases resume <;> split <;> trivial
  | checkRetry hw =>
      refine h.worker hext (fun _ he => he) rfl ?_ (fun _ hc => Or.inl hc) (fun _ hc => hc) rfl
      split <;> trivial
  | recheckRetry hw =>
      refine h.worker hext (fun _ he => he) rfl ?_ (fun _ hc => Or.inl hc) (fun _ hc => hc) rfl
      split <;> trivial
  | _ =>
      exact h.of_changes hext (fun _ he => Or.inl he) (fun _ _ hp => Or.inl hp) (fun _ hc => Or.inl hc)
        h.returned

theorem sound_new (token : String) (stepData : Table) : Sound (State.new token stepData) where
  queue _ he := (List.not_mem_nil he).elim
  workers _ _ hp := by cases hp
  notified _ hc := by cases hc
  returned _ _ hk := by cases hk

theorem sound_of_reachableBy {token : String} {stepData : Table} {s : State}
    (h : (machine token stepData).ReachableBy ReleasesAcked s) : Sound s :=
  h.invariant (fun _ hs => hs ▸ sound_new token stepData)
    fun _ _ _ _ hsound hl hs => hsound.step (move_of_step hs) hl

/-- Every `checkpoint` call that returned `Ok` had its update in an acknowledged batch. -/
def CheckpointsDurable (s : State) : Prop :=
  ∀ c k, s.callers c = some k → k.kind = .checkpoint → k.phase = .returned →
    ∃ batch, s.Acked batch ∧ k.queued c ∈ batch

theorem Sound.durable {s : State} (h : Sound s) : CheckpointsDurable s := by
  intro c k hk hkind hret
  obtain ⟨k', hk', hacked⟩ := h.notified c (h.returned c k hk hkind hret)
  obtain rfl : k = k' := Option.some.inj (hk.symm.trans hk')
  exact hacked hkind

theorem checkpoint_durable {token : String} {stepData : Table} {s : State}
    (h : (machine token stepData).ReachableBy ReleasesAcked s) : CheckpointsDurable s :=
  (sound_of_reachableBy h).durable

def releasedAcked (s : State) : Label → Bool
  | .notify w => match s.workers w with
    | some (.notifying _ (some _)) => false
    | _ => true
  | .drain _ => false
  | _ => true

theorem checkpoint_durable_ackedRun :
    ∃ s, (s.callers 0).map (·.phase) = some .returned ∧ CheckpointsDurable s := by
  have hend : ((machine "t0" fun _ => none).checkedRun releasedAcked (.new "t0" fun _ => none)
      (pushLabels 0 "a" ++ [.maybeStart 0 0] ++ serveLabels 0 ++ [.wake 0])).map
      (fun s => (s.callers 0).map (·.phase)) = some (some .returned) := by decide +kernel
  obtain ⟨s, hrun, hs⟩ := Option.map_eq_some_iff.mp hend
  refine ⟨s, hs, @checkpoint_durable "t0" (fun _ => none) s ?_⟩
  refine Transition.Machine.checkedRun_reachableBy (fun r l _ hok => ?_) _ (.init rfl) hrun
  constructor
  · rintro w e rest failure rfl hw
    simp [releasedAcked, hw] at hok
  · rintro w failure rfl
    cases hok

/-- The service rejects the batch of the one call there is. -/
def rejectedRun : List Label :=
  pushLabels 0 "a" ++ [.maybeStart 0 0, .takeBatch 0, .readToken (.worker 0), .send (.worker 0),
    .respond (.worker 0) (.error (.awsSdk "throttled")), .finishBatch 0, .notify 0, .wake 0]

def ServiceEvent.isAccepted : ServiceEvent → Bool
  | .accepted .. => true
  | _ => false

theorem rejectedRun_returns :
    ¬ ∀ s, (machine "t0" fun _ => none).Reachable s → CheckpointsDurable s := by
  intro h
  have hend : ((machine "t0" fun _ => none).run (.new "t0" fun _ => none) rejectedRun).map
      (fun s => (s.callers 0, s.log.any (·.isAccepted))) =
      some (some ⟨.checkpoint, "a", startUpdate "a", .returned⟩, false) := by decide +kernel
  obtain ⟨s, hrun, hs⟩ := Option.map_eq_some_iff.mp hend
  simp only [Prod.mk.injEq] at hs
  have hreach := Transition.Machine.run_reachable rfl rejectedRun hrun
  obtain ⟨batch, ⟨o, token, updates, response, hlog, -⟩, -⟩ := h s hreach 0 _ hs.1 rfl rfl
  have haccepted : s.log.any (·.isAccepted) = true := List.any_eq_true.mpr ⟨_, hlog, rfl⟩
  rw [hs.2] at haccepted
  cases haccepted

end LambdaDurable.CheckpointManager
