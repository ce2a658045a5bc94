import LambdaDurable.Checkpoint.Stream

/-!
# What workers hand to `process_batch`

Up to and including the first batch that fails, the batches of the workers are the
checkpoints in the order of their `push_back`.
-/

namespace LambdaDurable.CheckpointManager

open State

/-- The batch with which a worker's call of `process_batch` begins in a step. -/
def hands (s : State) : Label → List (List QueuedCheckpoint)
  | .readToken (.worker w) =>
    match s.workers w with
    | some (.calling batch .start) => [batch]
    | _ => []
  | _ => []

def Label.ofWorker : Label → Bool
  | .send (.worker _) | .respond (.worker _) _ => true
  | _ => false

structure History where
  pushed : List QueuedCheckpoint := []
  /-- the batches of the workers, up to and including the first failing one -/
  handed : List (List QueuedCheckpoint) := []
  failed : Bool := false

def History.after (h : History) (s : State) (l : Label) : History where
  pushed := h.pushed ++ pushes s l
  handed := if h.failed then h.handed else h.handed ++ hands s l
  failed := h.failed || (l.ofWorker && rejects s l)

/-- The manager with the history of its pushes and batches. -/
def recorded (token : String) (stepData : Table) : Transition.Machine (State × History) Label :=
  (machine token stepData).recording {} History.after

/-- The batches the workers have sent to the service, oldest first. -/
def requests : List ServiceEvent → List (List QueuedCheckpoint)
  | [] => []
  | .requested (.worker _) batch _ _ :: log => requests log ++ [batch]
  | _ :: log => requests log

/-- The batch a worker is about to hand to `process_batch`, and the one it has handed over but
`process_batch` has not sent. -/
def WorkerPhase.carried : WorkerPhase → List QueuedCheckpoint × List (List QueuedCheckpoint)
  | .calling batch .start => (batch, [])
  | .calling batch (.holding _) => ([], [batch])
  | _ => ([], [])

namespace State

def carried (s : State) (w : Nat) : List QueuedCheckpoint × List (List QueuedCheckpoint) :=
  ((s.workers w).map (·.carried)).getD ([], [])

/-- What the workers carry, one at most. -/
def Carries (s : State) (x : List QueuedCheckpoint × List (List QueuedCheckpoint)) : Prop :=
  ∃ w, (∀ v, v ≠ w → s.carried v = ([], [])) ∧ s.carried w = x

end State

/-- The history, the batch on its way, the queue and the log fit together. -/
def History.InOrder (h : History) (s : State) : Prop :=
  ∃ x, s.Carries x ∧ h.handed.flatten ++ x.1 ++ s.queue = h.pushed ∧
    requests s.log ++ x.2 = h.handed

structure History.Fits (h : History) (s : State) : Prop where
  nonempty : ∀ batch ∈ h.handed, batch ≠ []
  taken : ∀ w batch, s.workers w = some (.calling batch .start) → batch ≠ []
  inOrder : h.failed = false → h.InOrder s
  prefix_pushed : h.handed.flatten <+: h.pushed
  path : ∀ w p, s.workers w = some p → p.onFailurePath = true → h.failed = true

variable {s t : State} {h : History} {l : Label}
  {x : List QueuedCheckpoint × List (List QueuedCheckpoint)}

theorem carried_of_some {w : Nat} {p : WorkerPhase} (hw : s.workers w = some p) :
    s.carried w = p.carried := by
  simp [State.carried, hw]

theorem carried_update {w : Nat} {p : WorkerPhase}
    (hworkers : t.workers = Function.update s.workers w (some p)) (v : Nat) :
    t.carried v = if v = w then p.carried else s.carried v := by
  rw [State.carried, hworkers, Function.update_apply]
  split <;> rfl

theorem State.Carries.of_eq (hx : s.Carries x) (h : ∀ v, t.carried v = s.carried v) :
    t.Carries x := by
  obtain ⟨w, hothers, hw⟩ := hx
  exact ⟨w, fun v hv => (h v).trans (hothers v hv), (h w).trans hw⟩

/-- While a worker is active no other carries anything. -/
theorem carried_eq_nil (hsingle : ServedQueue.SingleWorker s.view) {w : Nat} {p : WorkerPhase}
    (hw : s.workers w = some p) (hp : p.stage.Active) {v : Nat} (hv : v ≠ w) :
    s.carried v = ([], []) := by
  cases hq : s.workers v with
  | none => simp [State.carried, hq]
  | some q =>
    rw [carried_of_some hq]
    have hidle : ¬ q.stage.Active := by
      intro hactive
      refine hv (hsingle.unique v w ?_ ?_)
      · rwa [view_workers hq]
      · rwa [view_workers hw]
    cases q with
    | calling _ _ => exact absurd trivial hidle
    | _ => rfl

theorem State.Carries.eq_of_active (hx : s.Carries x) (hsingle : ServedQueue.SingleWorker s.view)
    {w : Nat} {p : WorkerPhase} (hw : s.workers w = some p) (hp : p.stage.Active) :
    x = p.carried := by
  obtain ⟨u, hothers, rfl⟩ := hx
  by_cases huw : u = w
  · rw [huw, carried_of_some hw]
  · have hnone := hothers w (Ne.symm huw)
    rw [carried_of_some hw] at hnone
    rw [hnone, carried_eq_nil hsingle hw hp huw]

/-- After a step of the active worker it alone may carry something. -/
theorem carries_moved (hsingle : ServedQueue.SingleWorker s.view) {w : Nat} {p p' : WorkerPhase}
    (hw : s.workers w = some p) (hp : p.stage.Active)
    (hworkers : t.workers = Function.update s.workers w (some p')) : t.Carries p'.carried := by
  refine ⟨w, fun v hv => ?_, ?_⟩
  · rw [carried_update hworkers, if_neg hv]
    exact carried_eq_nil hsingle hw hp hv
  · rw [carried_update hworkers, if_pos rfl]

/-! ## One step -/

/-- A step that leaves what is carried, the queue but for a push, and the requests as they are. -/
theorem History.Fits.quiet (hfits : h.Fits s) (hhands : hands s l = [])
    (hcarried : ∀ v, t.carried v = s.carried v) (hrequests : requests t.log = requests s.log)
    (hqueue : h.failed = false → t.queue = s.queue ++ pushes s l)
    (htaken : ∀ w batch, t.workers w = some (.calling batch .start) → batch ≠ [])
    (hpath : ∀ w p, t.workers w = some p → p.onFailurePath = true → (h.after s l).failed = true) :
    (h.after s l).Fits t := by
  have hhanded : (h.after s l).handed = h.handed := by simp [History.after, hhands]
  refine ⟨hhanded ▸ hfits.nonempty, htaken, fun hfailed => ?_, ?_, hpath⟩
  · have hbefore : h.failed = false := (Bool.or_eq_false_iff.mp hfailed).1
    obtain ⟨x, hx, horder, hsent⟩ := hfits.inOrder hbefore
    refine ⟨x, hx.of_eq hcarried, ?_, ?_⟩
    · rw [hhanded, hqueue hbefore, ← List.append_assoc, horder]
      rfl
    · rw [hhanded, hrequests, hsent]
  · rw [hhanded]
    exact hfits.prefix_pushed.trans (List.prefix_append ..)

theorem History.Fits.stays (hfits : h.Fits s) {w : Nat} {p : WorkerPhase} (hw : s.workers w = some p)
    (hp : p.onFailurePath = true) : (h.after s l).failed = true := by
  rw [History.after, hfits.path w p hw hp, Bool.true_or]

/-- One worker has moved, onto the failure path only if a batch has failed. -/
theorem History.Fits.path_worker (hfits : h.Fits s) {w : Nat} {p : WorkerPhase}
    (hworkers : t.workers = Function.update s.workers w (some p))
    (hp : p.onFailurePath = true → (h.after s l).failed = true) :
    ∀ v q, t.workers v = some q → q.onFailurePath = true → (h.after s l).failed = true := by
  intro v q hv hq
  rw [hworkers] at hv
  obtain hv | rfl := eq_or_of_update hv
  · exact hfits.stays hv hq
  · exact hp hq

theorem History.Fits.taken_worker (hfits : h.Fits s) {w : Nat} {p : WorkerPhase}
    (hworkers : t.workers = Function.update s.workers w (some p))
    (hp : ∀ batch, p = .calling batch .start → batch ≠ []) :
    ∀ v batch, t.workers v = some (.calling batch .start) → batch ≠ [] := by
  intro v batch hv
  rw [hworkers] at hv
  obtain hv | rfl := eq_or_of_update hv
  · exact hfits.taken v batch hv
  · exact hp batch rfl

/-- One worker has moved that carries nothing, before and after. -/
theorem History.Fits.idle (hfits : h.Fits s) {w : Nat} {p : WorkerPhase}
    (hhands : hands s l = []) (hpushes : pushes s l = [])
    (hworkers : t.workers = Function.update s.workers w (some p))
    (hbefore : s.carried w = ([], [])) (hafter : p.carried = ([], []))
    (hcalling : ∀ batch, p ≠ .calling batch .start) (hqueue : h.failed = false → t.queue = s.queue)
    (hlog : requests t.log = requests s.log)
    (hp : p.onFailurePath = true → (h.after s l).failed = true) : (h.after s l).Fits t := by
  refine hfits.quiet hhands (fun v => ?_) hlog (fun hnot => ?_) ?_ (hfits.path_worker hworkers hp)
  · rw [carried_update hworkers]
    split
    · rename_i hv
      rw [hv, hbefore, hafter]
    · rfl
  · rw [hpushes, List.append_nil, hqueue hnot]
  · exact hfits.taken_worker hworkers fun batch heq => absurd heq (hcalling batch)

/-- No worker has moved. -/
theorem History.Fits.same (hfits : h.Fits s) (hhands : hands s l = [])
    (hworkers : t.workers = s.workers) (hqueue : t.queue = s.queue ++ pushes s l)
    (hlog : requests t.log = requests s.log) : (h.after s l).Fits t := by
  refine hfits.quiet hhands (fun v => ?_) hlog (fun _ => hqueue) ?_ ?_
  · simp only [State.carried, hworkers]
  · rw [hworkers]
    exact hfits.taken
  · rw [hworkers]
    exact fun v q hv hq => hfits.stays hv hq

/-- The batch of the worker fails: nothing is promised of what comes after it. -/
theorem History.Fits.fails (hfits : h.Fits s) (hhands : hands s l = [])
    (hfailed : (h.after s l).failed = true)
    (htaken : ∀ w batch, t.workers w = some (.calling batch .start) → batch ≠ []) :
    (h.after s l).Fits t := by
  have hhanded : (h.after s l).handed = h.handed := by simp [History.after, hhands]
  refine ⟨hhanded ▸ hfits.nonempty, htaken, fun hnot => ?_, ?_, fun _ _ _ _ => hfailed⟩
  · rw [hfailed] at hnot
    cases hnot
  · rw [hhanded]
    exact hfits.prefix_pushed.trans (List.prefix_append ..)

theorem History.Fits.take (hfits : h.Fits s) (hsingle : ServedQueue.SingleWorker s.view) {w : Nat}
    (hw : s.workers w = some .top) (hne : s.queue ≠ []) :
    (h.after s (.takeBatch w)).Fits ({ s with queue := (buildBatch s.queue).2 }.setWorker w
      (.calling (buildBatch s.queue).1 .start)) := by
  have hhanded : (h.after s (.takeBatch w)).handed = h.handed := by simp [History.after, hands]
  refine ⟨hhanded ▸ hfits.nonempty, ?_, fun hfailed => ?_, ?_, ?_⟩
  · refine hfits.taken_worker rfl ?_
    rintro batch ⟨⟩
    exact buildBatch_ne_nil hne
  · have hbefore : h.failed = false := (Bool.or_eq_false_iff.mp hfailed).1
    obtain ⟨x, hx, horder, hsent⟩ := hfits.inOrder hbefore
    obtain rfl := hx.eq_of_active hsingle hw trivial
    refine ⟨_, carries_moved hsingle hw trivial rfl, ?_, hhanded ▸ hsent⟩
    have horder : h.handed.flatten ++ [] ++ s.queue = h.pushed := horder
    rw [List.append_nil] at horder
    calc (h.after s (.takeBatch w)).handed.flatten ++ (buildBatch s.queue).1 ++ (buildBatch s.queue).2
      _ = h.handed.flatten ++ ((buildBatch s.queue).1 ++ (buildBatch s.queue).2) := by
        rw [hhanded, List.append_assoc]
      _ = h.pushed := by rw [buildBatch_append, horder]
      _ = (h.after s (.takeBatch w)).pushed := (List.append_nil _).symm
  · rw [hhanded]
    exact hfits.prefix_pushed.trans (List.prefix_append ..)
  · exact hfits.path_worker rfl fun hpath => by cases hpath

/-- The worker hands its batch to `process_batch`. -/
theorem History.Fits.hand (hfits : h.Fits s) (hsingle : ServedQueue.SingleWorker s.view) {w : Nat}
    {batch : List QueuedCheckpoint} (hw : s.workers w = some (.calling batch .start)) :
    (h.after s (.readToken (.worker w))).Fits (s.setWorker w (.calling batch (.holding s.token))) := by
  have htaken := hfits.taken_worker (t := s.setWorker w (.calling batch (.holding s.token))) rfl
    (by rintro _ ⟨⟩)
  have hpath := hfits.path_worker (t := s.setWorker w (.calling batch (.holding s.token)))
    (l := .readToken (.worker w)) rfl (by rintro ⟨⟩)
  have hpushed : (h.after s (.readToken (.worker w))).pushed = h.pushed := List.append_nil _
  cases hfailed : h.failed with
  | true =>
    have hhanded : (h.after s (.readToken (.worker w))).handed = h.handed := by
      simp [History.after, hfailed]
    refine ⟨hhanded ▸ hfits.nonempty, htaken, fun hnot => ?_, ?_, hpath⟩
    · rw [History.after, hfailed] at hnot
      cases hnot
    · rw [hhanded, hpushed]
      exact hfits.prefix_pushed
  | false =>
    have hhanded : (h.after s (.readToken (.worker w))).handed = h.handed ++ [batch] := by
      simp [History.after, hfailed, hands, hw]
    obtain ⟨x, hx, horder, hsent⟩ := hfits.inOrder hfailed
    obtain rfl := hx.eq_of_active hsingle hw trivial
    have hflat : (h.handed ++ [batch]).flatten ++ s.queue = h.pushed := by
      rw [List.flatten_append, List.flatten_singleton]
      exact horder
    refine ⟨?_, htaken, fun _ => ⟨_, carries_moved hsingle hw trivial rfl, ?_, ?_⟩, ?_, hpath⟩
    · rw [hhanded]
      intro b hb
      obtain hb | hb := List.mem_append.mp hb
      · exact hfits.nonempty b hb
      · rw [List.mem_singleton.mp hb]
        exact hfits.taken w batch hw
    · rw [hhanded, hpushed, ← hflat]
      exact congrArg (· ++ s.queue) (List.append_nil _)
    · have hsent : requests s.log ++ [] = h.handed := hsent
      rw [hhanded, ← hsent, List.append_nil]
      rfl
    · rw [hhanded, hpushed, ← hflat]
      exact List.prefix_append ..

/-- The batch that was handed over is sent. -/
theorem History.Fits.send (hfits : h.Fits s) (hsingle : ServedQueue.SingleWorker s.view) {w : Nat}
    {batch : List QueuedCheckpoint} {token : String} {updates : List OperationUpdate}
    (hw : s.workers w = some (.calling batch (.holding token))) :
    (h.after s (.send (.worker w))).Fits
      ({ s with log := .requested (.worker w) batch token updates :: s.log }.setWorker w
        (.calling batch (.inFlight token updates))) := by
  have hhanded : (h.after s (.send (.worker w))).handed = h.handed := by simp [History.after, hands]
  have hpushed : (h.after s (.send (.worker w))).pushed = h.pushed := List.append_nil _
  refine ⟨hhanded ▸ hfits.nonempty, hfits.taken_worker rfl (by rintro _ ⟨⟩), fun hfailed => ?_, ?_,
    hfits.path_worker rfl fun hpath => by cases hpath⟩
  · have hbefore : h.failed = false := (Bool.or_eq_false_iff.mp hfailed).1
    obtain ⟨x, hx, horder, hsent⟩ := hfits.inOrder hbefore
    obtain rfl := hx.eq_of_active hsingle hw trivial
    refine ⟨_, carries_moved hsingle hw trivial rfl, ?_, ?_⟩
    · rw [hhanded, hpushed]
      exact horder
    · rw [hhanded, ← hsent]
      exact List.append_nil _
  · rw [hhanded, hpushed]
    exact hfits.prefix_pushed

theorem History.Fits.step (hfits : h.Fits s) (hsingle : ServedQueue.SingleWorker s.view)
    (hm : Move s l t) : (h.after s l).Fits t := by
  have hnothing : ∀ (r : State), r.queue = r.queue ++ [] := fun r => (List.append_nil _).symm
  cases hm with
  | take hw hne => exact hfits.take hsingle hw hne
  | @readToken o _ hcall =>
    cases o with
    | worker w => exact hfits.hand hsingle (callOf_worker.mp hcall)
    | force n => exact hfits.same rfl rfl (hnothing s) rfl
  | @send o _ _ _ hcall _ =>
    cases o with
    | worker w => exact hfits.send hsingle (callOf_worker.mp hcall)
    | force n => exact hfits.same rfl rfl (hnothing s) rfl
  | @reject o batch token e hcall he =>
    cases o with
    | worker w =>
      refine hfits.fails rfl ?_ (hfits.taken_worker (w := w) rfl (by rintro _ ⟨⟩))
      simp [History.after, Label.ofWorker, rejects, hcall, he, Except.toOption]
    | force n => exact hfits.same rfl rfl (hnothing s) rfl
  | @fail o batch token updates e hcall =>
    cases o with
    | worker w =>
      refine hfits.fails rfl ?_ (hfits.taken_worker (w := w) rfl (by rintro _ ⟨⟩))
      simp [History.after, Label.ofWorker, rejects]
    | force n => exact hfits.same rfl rfl (hnothing s) rfl
  | @accept o _ _ _ _ hcall | @writeToken o _ _ hcall | @merge o _ _ hcall =>
    cases o with
    | worker w =>
      exact hfits.idle rfl rfl rfl (carried_of_some (callOf_worker.mp hcall)) rfl (by rintro _ ⟨⟩)
        (fun _ => rfl) rfl (by rintro ⟨⟩)
    | force n => exact hfits.same rfl rfl (hnothing s) rfl
  | @push c k hk hp =>
    refine hfits.same rfl rfl ?_ rfl
    simp [pushes, hk, pushBack, setCaller, Caller.queued]
  | drain hw =>
    refine hfits.idle rfl rfl rfl (carried_of_some hw) rfl (by rintro _ ⟨⟩) (fun hnot => ?_) rfl
      (by rintro ⟨⟩)
    rw [hfits.path _ _ hw rfl] at hnot
    cases hnot
  | @startWorker c w k _ _ _ hw =>
    refine hfits.idle (w := w) (p := .top) rfl rfl rfl ?_ rfl (by rintro _ ⟨⟩) (fun _ => rfl) rfl
      (by rintro ⟨⟩)
    simp [State.carried, hw]
  | quit hw _ | finishOk hw | notifiedOk hw | release hw | notifyWaiters hw =>
    exact hfits.idle rfl rfl rfl (carried_of_some hw) rfl (by rintro _ ⟨⟩) (fun _ => rfl) rfl
      (by rintro ⟨⟩)
  | finishError hw | notifiedError hw =>
    exact hfits.idle rfl rfl rfl (carried_of_some hw) rfl (by rintro _ ⟨⟩) (fun _ => rfl) rfl
      fun _ => hfits.stays hw rfl
  | @notify w c rest failure hw =>
    refine hfits.idle rfl rfl rfl (carried_of_some hw) rfl (by rintro _ ⟨⟩) (fun _ => rfl) rfl
      fun hpath => ?_
    cases failure with
    | none => cases hpath
    | some e => exact hfits.stays hw rfl
  | @workerTerminate w stage stage' result resume t hw hadv =>
    refine hfits.idle rfl rfl rfl (carried_of_some hw) ?_ ?_ (fun _ => rfl) rfl fun hpath => ?_
    · cases resume <;> split <;> rfl
    · intro batch
      cases resume <;> split <;> rintro ⟨⟩
    · cases resume <;> split at hpath <;> cases hpath
  | checkRetry hw | recheckRetry hw =>
    refine hfits.idle rfl rfl rfl (carried_of_some hw) ?_ ?_ (fun _ => rfl) rfl fun hpath => ?_
    · split <;> rfl
    · intro batch
      split <;> rintro ⟨⟩
    · split at hpath <;> cases hpath
  | _ => exact hfits.same rfl rfl (hnothing s) rfl

/-! ## Runs -/

theorem fits_of_reachable {token : String} {stepData : Table} {p : State × History}
    (hp : (recorded token stepData).Reachable p) : p.2.Fits p.1 := by
  refine hp.invariant (I := fun p => p.2.Fits p.1) ?_ ?_
  · rintro ⟨s, h⟩ ⟨rfl, rfl⟩
    constructor
    · exact fun _ hb => (List.not_mem_nil hb).elim
    · rintro _ _ ⟨⟩
    · exact fun _ => ⟨_, ⟨0, fun _ _ => rfl, rfl⟩, rfl, rfl⟩
    · exact List.prefix_rfl
    · rintro _ _ ⟨⟩
  · intro p l p' hreach hfits hstep
    obtain ⟨hmove, hafter⟩ := Transition.Machine.recording_step hstep
    have hmanager : (machine token stepData).Reachable p.1 :=
      Transition.Machine.ReachableBy.forget hreach
    rw [hafter]
    exact hfits.step (singleWorker hmanager) (move_of_step hmove)

/-- Between its spawn and its reset of `is_processing`. -/
def WorkerPhase.active : WorkerPhase → Bool
  | .leaving | .done => false
  | _ => true

theorem WorkerPhase.active_iff (p : WorkerPhase) : p.active = true ↔ p.stage.Active := by
  cases p with
  | terminating _ _ resume => cases resume <;> simp [active, stage, ServedQueue.WorkerStage.Active]
  | _ => simp [active, stage, ServedQueue.WorkerStage.Active]

theorem State.Carries.eq_of_inactive (hx : s.Carries x)
    (hidle : ∀ w p, s.workers w = some p → p.active = false) : x = ([], []) := by
  obtain ⟨w, -, rfl⟩ := hx
  cases hw : s.workers w with
  | none => simp [State.carried, hw]
  | some p =>
    have hp := hidle w p hw
    rw [carried_of_some hw]
    cases p with
    | calling _ _ => cases hp
    | _ => rfl

/-- One worker at a time, and what it hands to `process_batch` and sends is in the order of the
pushes, none lost or doubled. -/
theorem batches_in_order {token : String} {stepData : Table} {s : State} {h : History}
    (hreach : (recorded token stepData).Reachable (s, h)) :
    (∀ w w' p p', s.workers w = some p → s.workers w' = some p' → p.active = true →
      p'.active = true → w = w') ∧
    (∀ batch ∈ h.handed, batch ≠ []) ∧ h.handed.flatten <+: h.pushed ∧
    (h.failed = false → requests s.log <+: h.handed) ∧
    (h.failed = false → s.queue = [] → (∀ w p, s.workers w = some p → p.active = false) →
      h.handed.flatten = h.pushed ∧ requests s.log = h.handed) := by
  have hfits := fits_of_reachable hreach
  have hmanager : (machine token stepData).Reachable s :=
    Transition.Machine.ReachableBy.forget (p := (s, h)) hreach
  have hsingle := singleWorker hmanager
  refine ⟨fun w w' p p' hw hw' hp hp' => ?_, hfits.nonempty, hfits.prefix_pushed,
    fun hfailed => ?_, fun hfailed hqueue hidle => ?_⟩
  · apply hsingle.unique
    · rw [view_workers hw]
      exact p.active_iff.mp hp
    · rw [view_workers hw']
      exact p'.active_iff.mp hp'
  · obtain ⟨x, -, -, hsent⟩ := hfits.inOrder hfailed
    exact hsent ▸ List.prefix_append ..
  · obtain ⟨x, hx, horder, hsent⟩ := hfits.inOrder hfailed
    obtain rfl := hx.eq_of_inactive hidle
    rw [hqueue, List.append_nil, List.append_nil] at horder
    rw [List.append_nil] at hsent
    exact ⟨horder, hsent⟩

/-- Two checkpoints, the second of them pushed while the first is served. -/
def overlappingPushes : List Label :=
  pushLabels 0 "a" ++ [.maybeStart 0 0, .takeBatch 0] ++ pushLabels 1 "b" ++ [.maybeStart 1 1] ++
    (serveLabels 0).tail ++ serveLabels 0 ++ [.takeBatch 0, .release 0, .notifyWaiters 0]

theorem batches_in_order_overlappingPushes : ∃ (s : State) (h : History), h.handed.length = 2 ∧
    h.pushed.length = 2 ∧ h.handed.flatten = h.pushed ∧ requests s.log = h.handed := by
  have hend : ((recorded "t0" fun _ => none).run (.new "t0" fun _ => none, {}) overlappingPushes).map
      (fun p => (p.1.isProcessing, p.1.queue, p.2.failed, p.2.handed.length, p.2.pushed.length)) =
      some (false, [], false, 2, 2) := by decide +kernel
  obtain ⟨⟨s, h⟩, hrun, hs⟩ := Option.map_eq_some_iff.mp hend
  simp only [Prod.mk.injEq] at hs
  obtain ⟨hidle, hqueue, hfailed, hhanded, hpushed⟩ := hs
  have hinit : (recorded "t0" fun _ => none).init (.new "t0" fun _ => none, {}) := ⟨rfl, rfl⟩
  have hreach := Transition.Machine.run_reachable hinit overlappingPushes hrun
  have hmanager : (machine "t0" fun _ => none).Reachable s :=
    Transition.Machine.ReachableBy.forget (p := (s, h)) hreach
  obtain ⟨-, -, -, -, hall⟩ := @batches_in_order "t0" (fun _ => none) s h hreach
  refine ⟨s, h, hhanded, hpushed, hall hfailed hqueue fun w p hw => ?_⟩
  by_contra hp
  apply (singleWorker hmanager).not_active hidle w
  rw [view_workers hw]
  exact p.active_iff.mp (by simpa using hp)

end LambdaDurable.CheckpointManager
