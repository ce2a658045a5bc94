import LambdaDurable.Checkpoint.Record
import LambdaDurable.Checkpoint.Stream

/-!
# Nothing is sent below a finished operation

The guard of a call looks at its immediate parent only, in a table that responses refresh.
The updates go out in the order of the pushes, and coalescing keeps that order: so nothing
follows the end of an operation above it as long as no call passes the guard with such an
operation above it, and none is pushed for before the call has pushed.
-/

namespace LambdaDurable.CheckpointManager

open State

/-- The updates sent to the service, oldest first. -/
def sentUpdates : List ServiceEvent → List OperationUpdate
  | [] => []
  | .requested _ _ _ updates :: log => sentUpdates log ++ updates
  | _ :: log => sentUpdates log

/-- `below x a` says that `a` is above `x` in the tree of operations. -/
def NothingFollows (below : String → String → Prop) (updates : List OperationUpdate) : Prop :=
  updates.Pairwise fun u v => u.action.isTerminal = true → ¬ below v.id u.id

/-- Past `has_finished_ancestor`, before `push_back`. -/
def CallerPhase.passed : CallerPhase → Bool
  | .noFinishedAncestor | .tracked => true
  | _ => false

/-- A Succeed or Fail of the operation has been pushed. -/
def State.Finished (s : State) (id : String) : Prop :=
  ∃ c k, s.callers c = some k ∧ k.phase.hasPushed = true ∧ k.update.action.isTerminal = true ∧
    k.update.id = id

/-- Nothing of an operation above is finished, and nothing of it waits in the queue. -/
structure State.Unfinished (below : String → String → Prop) (s : State) (id : String) : Prop where
  above : ∀ a, s.Finished a → ¬ below id a
  queue : ∀ e ∈ s.queue, ¬ below id e.update.id

/-- A call that passes the guard has nothing finished above it, and nothing is pushed for an
operation above a call that has passed it. -/
structure Guarded (below : String → String → Prop) (s : State) (l : Label) : Prop where
  check : ∀ c k, l = .checkAncestor c → s.callers c = some k →
    hasFinishedAncestor s.stepData k.update = false → s.Unfinished below k.update.id
  push : ∀ c k, l = .push c → s.callers c = some k → ∀ d j, s.callers d = some j →
    j.phase.passed = true → d ≠ c → ¬ below j.update.id k.update.id

/-- The batch a worker has taken and not sent. -/
def WorkerPhase.taken : WorkerPhase → List QueuedCheckpoint
  | .calling batch .start | .calling batch (.holding _) => batch
  | _ => []

def State.taken (s : State) (w : Nat) : List QueuedCheckpoint :=
  ((s.workers w).map (·.taken)).getD []

/-- What is sent, and what is to be sent after it. -/
def State.line (s : State) (batch : List QueuedCheckpoint) : List OperationUpdate :=
  sentUpdates s.log ++ (batch ++ s.queue).map (·.update)

/-- No entry is below one in front of it. -/
def Unrelated (below : String → String → Prop) (entries : List QueuedCheckpoint) : Prop :=
  entries.Pairwise fun e e' => ¬ below e'.update.id e.update.id

structure State.Line (below : String → String → Prop) (s : State) (entries : List QueuedCheckpoint) :
    Prop where
  order : NothingFollows below (s.line entries)
  batch : Unrelated below entries
  queue : Unrelated below s.queue
  finished : ∀ u ∈ s.line entries, u.action.isTerminal = true → s.Finished u.id
  passed : ∀ c k, s.callers c = some k → k.phase.passed = true → s.Unfinished below k.update.id

/-- One worker at most has taken a batch and not sent it. -/
def State.Lined (below : String → String → Prop) (s : State) : Prop :=
  ∃ w, (∀ v, v ≠ w → s.taken v = []) ∧ s.Line below (s.taken w)

variable {below : String → String → Prop} {s t : State} {l : Label} {entries : List QueuedCheckpoint}

theorem State.Finished.later (hm : Move s l t) {id : String} (h : s.Finished id) : t.Finished id := by
  obtain ⟨c, k, hk, hpushed, hterminal, hid⟩ := h
  obtain ⟨k', hk', hqueued, hpushed'⟩ := hm.hasPushed hk hpushed
  have hupdate : k'.update = k.update := by injection hqueued
  exact ⟨c, k', hk', hpushed', hupdate ▸ hterminal, hupdate ▸ hid⟩

theorem State.Finished.before (hm : Move s l t) {id : String} (h : t.Finished id) :
    s.Finished id ∨ ∃ c k, l = .push c ∧ s.callers c = some k ∧ k.update.id = id := by
  obtain ⟨c, k', hk', hpushed, hterminal, hid⟩ := h
  obtain ⟨k, hk, -, hqueued, hphase, -⟩ | ⟨-, kind, stepId, update, -, rfl⟩ := hm.callers_cases hk'
  · have hupdate := Caller.update_eq_of_queued hqueued
    obtain hphase | hpush := hphase
    · exact Or.inl ⟨c, k, hk, hphase ▸ hpushed, hupdate ▸ hterminal, hupdate ▸ hid⟩
    · exact Or.inr ⟨c, k, hpush, hk, hupdate ▸ hid⟩
  · cases hpushed

theorem Move.passed_cases (h : Move s l t) {c : Nat} {k' : Caller} (hk' : t.callers c = some k')
    (hp : k'.phase.passed = true) : ∃ k, s.callers c = some k ∧ k'.update = k.update ∧
      (k.phase.passed = true ∨
        l = .checkAncestor c ∧ hasFinishedAncestor s.stepData k.update = false) := by
  have same : t.callers = s.callers → ∃ k, s.callers c = some k ∧ k'.update = k.update ∧
      (k.phase.passed = true ∨
        l = .checkAncestor c ∧ hasFinishedAncestor s.stepData k.update = false) := by
    intro hsame
    rw [hsame] at hk'
    exact ⟨k', hk', rfl, Or.inl hp⟩
  have moved : ∀ {d : Nat} {j : Caller} {p : CallerPhase}, s.callers d = some j →
      t.callers = Function.update s.callers d (some { j with phase := p }) →
      (p.passed = true → j.phase.passed = true ∨
        l = .checkAncestor d ∧ hasFinishedAncestor s.stepData j.update = false) →
      ∃ k, s.callers c = some k ∧ k'.update = k.update ∧ (k.phase.passed = true ∨
        l = .checkAncestor c ∧ hasFinishedAncestor s.stepData k.update = false) := by
    intro d j p hj hcallers hpassed
    rw [hcallers, Function.update_apply] at hk'
    split at hk'
    · rename_i hcd
      subst hcd
      obtain rfl := Option.some.inj hk'
      exact ⟨j, hj, rfl, hpassed hp⟩
    · exact ⟨k', hk', rfl, Or.inl hp⟩
  cases h with
  | @call d kind stepId update hd =>
    by_cases hcd : c = d
    · subst hcd
      obtain rfl := Option.some.inj (hk'.symm.trans (Function.update_self ..))
      cases hp
    · exact ⟨k', (Function.update_of_ne hcd _ _).symm.trans hk', rfl, Or.inl hp⟩
  | checkTerminating hj _ =>
    refine moved hj rfl fun hpassed => ?_
    split at hpassed <;> cases hpassed
  | checkAncestor hj _ =>
    refine moved hj rfl fun hpassed => ?_
    split at hpassed
    · cases hpassed
    · rename_i hfree
      exact Or.inr ⟨rfl, by simpa using hfree⟩
  | track hj hphase => exact moved hj rfl fun _ => Or.inl (by rw [hphase]; rfl)
  | push hj _ => exact moved hj rfl fun hpassed => by cases hpassed
  | @startBusy _ _ j hj _ _ | @startWorker _ _ j hj _ _ _ =>
    refine moved hj rfl fun hpassed => ?_
    cases hkind : j.kind <;> rw [hkind] at hpassed <;> cases hpassed
  | wake hj _ _ => exact moved hj rfl fun hpassed => by cases hpassed
  | readToken _ | reject _ _ | send _ _ | fail _ | accept _ | writeToken _ | merge _ =>
    exact same (setCall_callers ..)
  | _ => exact same rfl

theorem State.Unfinished.later {id : String} (h : s.Unfinished below id) (hm : Move s l t)
    (hqueue : t.queue.Sublist s.queue) (hpush : ∀ c, l ≠ .push c) : t.Unfinished below id where
  above a ha hbelow := by
    obtain ha | ⟨c, _, hl, -⟩ := ha.before hm
    · exact h.above a ha hbelow
    · exact hpush c hl
  queue e he := h.queue e (hqueue.subset he)

theorem State.Line.passed_later (h : s.Line below entries) (hm : Move s l t)
    (hguard : Guarded below s l) (hqueue : t.queue.Sublist s.queue) (hpush : ∀ c, l ≠ .push c) {c : Nat}
    {k : Caller} (hk : t.callers c = some k) (hp : k.phase.passed = true) :
    t.Unfinished below k.update.id := by
  obtain ⟨j, hj, hupdate, hpassed⟩ := hm.passed_cases hk hp
  rw [hupdate]
  refine State.Unfinished.later ?_ hm hqueue hpush
  obtain hpassed | ⟨hl, hfree⟩ := hpassed
  · exact h.passed c j hj hpassed
  · exact hguard.check c j hl hj hfree

/-- A step that pushes and sends nothing. -/
theorem State.Lined.mono (h : s.Lined below) (hm : Move s l t) (hguard : Guarded below s l)
    (htaken : ∀ w, t.taken w = s.taken w ∨ t.taken w = []) (hlog : sentUpdates t.log = sentUpdates s.log)
    (hqueue : t.queue.Sublist s.queue) (hpush : ∀ c, l ≠ .push c) : t.Lined below := by
  obtain ⟨w, hothers, hline⟩ := h
  have hsub : (t.taken w).Sublist (s.taken w) := by
    obtain hsame | hnone := htaken w
    · rw [hsame]
    · rw [hnone]
      exact List.nil_sublist _
  have hlines : (t.line (t.taken w)).Sublist (s.line (s.taken w)) := by
    rw [State.line, State.line, hlog]
    exact ((hsub.append hqueue).map _).append_left _
  refine ⟨w, fun v hv => ?_, hline.order.sublist hlines, hline.batch.sublist hsub,
    hline.queue.sublist hqueue, fun u hu hterminal => ?_, fun c k hk hp => ?_⟩
  · obtain hsame | hnone := htaken v
    · rw [hsame, hothers v hv]
    · exact hnone
  · exact (hline.finished u (hlines.subset hu) hterminal).later hm
  · exact hline.passed_later hm hguard hqueue hpush hk hp

theorem taken_of_some {w : Nat} {p : WorkerPhase} (h : s.workers w = some p) : s.taken w = p.taken := by
  simp [taken, h]

theorem taken_update {w : Nat} {p : WorkerPhase}
    (hworkers : t.workers = Function.update s.workers w (some p)) (v : Nat) :
    t.taken v = if v = w then p.taken else s.taken v := by
  rw [taken, hworkers, Function.update_apply]
  split <;> rfl

theorem State.Lined.worker (h : s.Lined below) (hm : Move s l t) (hguard : Guarded below s l) {w : Nat}
    {p : WorkerPhase} (hworkers : t.workers = Function.update s.workers w (some p))
    (hp : p.taken = s.taken w ∨ p.taken = []) (hlog : sentUpdates t.log = sentUpdates s.log)
    (hqueue : t.queue.Sublist s.queue) (hpush : ∀ c, l ≠ .push c) : t.Lined below := by
  refine h.mono hm hguard (fun v => ?_) hlog hqueue hpush
  rw [taken_update hworkers]
  split
  · rename_i hv
    exact hv ▸ hp
  · exact Or.inl rfl

theorem State.Lined.call (h : s.Lined below) {o : Owner} {batch : List QueuedCheckpoint}
    {call call' : BatchCall} {r : State} (hm : Move s l (r.setCall batch call' o))
    (hguard : Guarded below s l) (hcall : s.callOf o = some (batch, call))
    (hsame : (WorkerPhase.calling batch call').taken = (WorkerPhase.calling batch call).taken ∨
      (WorkerPhase.calling batch call').taken = [])
    (hworkers : r.workers = s.workers) (hlog : sentUpdates r.log = sentUpdates s.log)
    (hqueue : r.queue = s.queue) (hpush : ∀ c, l ≠ .push c) : (r.setCall batch call' o).Lined below := by
  have hsub : r.queue.Sublist s.queue := by rw [hqueue]
  cases o with
  | force n =>
    refine h.mono hm hguard (fun v => Or.inl ?_) hlog hsub hpush
    change ((r.workers v).map (·.taken)).getD [] = _
    rw [hworkers]
    rfl
  | worker w =>
    refine h.worker hm hguard (w := w) (p := .calling batch call') ?_ ?_ hlog
      hsub hpush
    · rw [← hworkers]
      rfl
    · rwa [taken_of_some (callOf_worker.mp hcall)]

/-- Of each update that is sent, the last of those merged was pushed. -/
theorem mem_batch_of_coalesce {us vs : List OperationUpdate} (h : coalesceUpdates us = .ok vs)
    {v : OperationUpdate} (hv : v ∈ vs) : ∃ u ∈ us, u.id = v.id ∧ v.action = u.action := by
  obtain ⟨init, last, hlast, haction⟩ := Backend.exists_concat_of_merged (Backend.merged_of_coalesce h hv)
  have hmem : last ∈ Backend.naming v.id us := by
    rw [hlast]
    exact List.mem_append_right _ (List.mem_singleton_self _)
  exact ⟨last, (List.mem_filter.mp hmem).1, Backend.naming_id hmem, haction⟩

/-- Nothing of a batch goes out behind something below it. -/
theorem State.Line.send (h : s.Line below entries) {updates : List OperationUpdate}
    (hcoalesce : coalesceUpdates (entries.map (·.update)) = .ok updates) :
    NothingFollows below (sentUpdates s.log ++ updates ++ s.queue.map (·.update)) ∧
      ∀ u ∈ updates, ∃ v ∈ entries.map (·.update), v.id = u.id ∧ u.action = v.action := by
  have hmem : ∀ u ∈ updates, ∃ v ∈ entries.map (·.update), v.id = u.id ∧ u.action = v.action :=
    fun u hu => mem_batch_of_coalesce hcoalesce hu
  have horder := h.order
  simp only [NothingFollows, State.line, List.map_append, List.pairwise_append] at horder
  obtain ⟨hsent, ⟨-, hqueue, hahead⟩, hall⟩ := horder
  have hids : (updates.map (·.id)).Pairwise fun i j => ¬ below j i := by
    refine List.Pairwise.sublist (Backend.sublist_of_coalesce hcoalesce) ?_
    rw [List.map_map]
    exact List.pairwise_map.mpr h.batch
  refine ⟨?_, hmem⟩
  simp only [NothingFollows, List.pairwise_append]
  refine ⟨⟨hsent, ?_, fun u hu v hv hterminal => ?_⟩, hqueue, fun u hu v hv hterminal => ?_⟩
  · refine (List.pairwise_map.mp hids).imp ?_
    exact fun hnot _ => hnot
  · obtain ⟨w, hw, hid, -⟩ := hmem v hv
    rw [← hid]
    exact hall u hu w (List.mem_append_left _ hw) hterminal
  · obtain hu | hu := List.mem_append.mp hu
    · exact hall u hu v (List.mem_append_right _ hv) hterminal
    · obtain ⟨w, hw, hid, haction⟩ := hmem u hu
      rw [← hid]
      exact hahead w hw v hv (haction ▸ hterminal)

theorem State.Lined.send (h : s.Lined below) {o : Owner} {batch : List QueuedCheckpoint} {token : String}
    {updates : List OperationUpdate} (hcall : s.callOf o = some (batch, .holding token))
    (hcoalesce : coalesceUpdates (batch.map (·.update)) = .ok updates)
    (hguard : Guarded below s (.send o)) :
    ({ s with log := .requested o batch token updates :: s.log }.setCall batch
      (.inFlight token updates) o).Lined below := by
  have hm : Move s (.send o) _ := .send hcall hcoalesce
  have hempty : batch = [] → ({ s with log := .requested o batch token updates :: s.log }.setCall batch
      (.inFlight token updates) o).Lined below := by
    rintro rfl
    obtain rfl : [] = updates := Except.ok.inj hcoalesce
    exact h.call hm hguard hcall (Or.inl rfl) rfl (List.append_nil _) rfl fun c hl => by cases hl
  cases o with
  | force n => exact hempty (callOf_force.mp hcall).1
  | worker v =>
    have htaken : s.taken v = batch := taken_of_some (callOf_worker.mp hcall)
    obtain ⟨w, hothers, hline⟩ := h
    by_cases hvw : v = w
    · subst hvw
      rw [htaken] at hline
      obtain ⟨horder, hmem⟩ := hline.send hcoalesce
      refine ⟨v, fun u hu => ?_, ?_⟩
      · rw [taken_update (s := s) (w := v) rfl, if_neg hu, hothers u hu]
      · rw [taken_update (s := s) (w := v) rfl, if_pos rfl]
        refine ⟨horder, List.Pairwise.nil, hline.queue, fun u hu hterminal => ?_, fun c k hk hp => ?_⟩
        · obtain hu | hu := List.mem_append.mp hu
          · obtain hu | hu := List.mem_append.mp hu
            · exact (hline.finished u (List.mem_append_left _ hu) hterminal).later hm
            · obtain ⟨u', hu', hid, haction⟩ := hmem u hu
              have hin : u' ∈ s.line batch := by
                rw [State.line, List.map_append]
                exact List.mem_append_right _ (List.mem_append_left _ hu')
              exact hid ▸ (hline.finished u' hin (haction ▸ hterminal)).later hm
          · have hin : u ∈ s.line batch := by
              rw [State.line, List.map_append]
              exact List.mem_append_right _ (List.mem_append_right _ hu)
            exact (hline.finished u hin hterminal).later hm
        · exact hline.passed_later hm hguard (List.Sublist.refl _) (fun c hl => by cases hl) hk hp
    · exact hempty (htaken ▸ hothers v hvw)

theorem State.Lined.take (h : s.Lined below) {w : Nat} (hw : s.workers w = some .top)
    (hne : s.queue ≠ []) (hsingle : ServedQueue.SingleWorker s.view)
    (hguard : Guarded below s (.takeBatch w)) :
    ({ s with queue := (buildBatch s.queue).2 }.setWorker w
      (.calling (buildBatch s.queue).1 .start)).Lined below := by
  have hm : Move s (.takeBatch w) _ := .take hw hne
  have hnone : ∀ v, s.taken v = [] := by
    intro v
    by_cases hv : v = w
    · rw [hv, taken_of_some hw]
      rfl
    · have hidle := SingleWorker.unanswered_eq_nil hsingle hw trivial hv
      cases hp : s.workers v with
      | none => simp [taken, hp]
      | some p =>
        rw [unanswered_of_some hp] at hidle
        rw [taken_of_some hp]
        cases p with
        | calling batch call => cases call <;> first | exact hidle | rfl
        | _ => rfl
  obtain ⟨u, -, hline⟩ := h
  rw [hnone] at hline
  have hsplit := buildBatch_append s.queue
  refine ⟨w, fun v hv => ?_, ?_⟩
  · rw [taken_update (s := s) (w := w) rfl, if_neg hv, hnone]
  · rw [taken_update (s := s) (w := w) rfl, if_pos rfl]
    have hsame : ({ s with queue := (buildBatch s.queue).2 }.setWorker w
        (.calling (buildBatch s.queue).1 .start)).line (buildBatch s.queue).1 = s.line [] :=
      congrArg (fun q => sentUpdates s.log ++ q.map (·.update)) hsplit
    have hpieces := hline.queue
    rw [Unrelated, ← hsplit, List.pairwise_append] at hpieces
    refine ⟨hsame ▸ hline.order, hpieces.1, hpieces.2.1, fun v hv hterminal => ?_, fun c k hk hp => ?_⟩
    · exact (hline.finished v (hsame ▸ hv) hterminal).later hm
    · have hrest := List.sublist_append_right (buildBatch s.queue).1 (buildBatch s.queue).2
      rw [hsplit] at hrest
      exact hline.passed_later hm hguard hrest (fun c hl => by cases hl) hk hp

theorem State.Lined.push (h : s.Lined below) {c : Nat} {k : Caller} (hk : s.callers c = some k)
    (hphase : k.phase = .tracked) (hguard : Guarded below s (.push c)) :
    ((s.pushBack ⟨k.stepId, k.update, c⟩).setCaller c { k with phase := .pushed }).Lined below := by
  have hm : Move s (.push c) _ := .push hk hphase
  obtain ⟨w, hothers, hline⟩ := h
  have hfree := hline.passed c k hk (by rw [hphase]; rfl)
  have hpushed : ((s.pushBack ⟨k.stepId, k.update, c⟩).setCaller c { k with phase := .pushed }).line
      (s.taken w) = s.line (s.taken w) ++ [k.update] := by
    simp [State.line, setCaller, pushBack]
  refine ⟨w, hothers, ⟨?_, hline.batch, ?_, fun u hu hterminal => ?_, fun d j hj hp => ?_⟩⟩
  · refine hpushed ▸ List.pairwise_append.mpr ⟨hline.order, List.pairwise_singleton .., ?_⟩
    intro u hu v hv hterminal
    obtain rfl := List.mem_singleton.mp hv
    exact hfree.above u.id (hline.finished u hu hterminal)
  · refine List.pairwise_append.mpr ⟨hline.queue, List.pairwise_singleton .., ?_⟩
    intro e he e' he'
    obtain rfl := List.mem_singleton.mp he'
    exact hfree.queue e he
  · obtain hu | hu := List.mem_append.mp (hpushed ▸ hu)
    · exact (hline.finished u hu hterminal).later hm
    · obtain rfl := List.mem_singleton.mp hu
      exact ⟨c, _, Function.update_self .., rfl, hterminal, rfl⟩
  · have hdc : d ≠ c := by
      rintro rfl
      obtain rfl := Option.some.inj (hj.symm.trans (Function.update_self ..))
      cases hp
    have hj' : s.callers d = some j := (Function.update_of_ne hdc _ _).symm.trans hj
    have hbefore := hline.passed d j hj' hp
    have hother := hguard.push c k rfl hk d j hj' hp hdc
    refine ⟨fun a ha => ?_, fun e he => ?_⟩
    · obtain ha | ⟨c', k', hl, hk', rfl⟩ := ha.before hm
      · exact hbefore.above a ha
      · cases hl
        obtain rfl := Option.some.inj (hk.symm.trans hk')
        exact hother
    · obtain he | he := List.mem_append.mp he
      · exact hbefore.queue e he
      · obtain rfl := List.mem_singleton.mp he
        exact hother

theorem State.Lined.step (h : s.Lined below) (hm : Move s l t) (hguard : Guarded below s l)
    (hsingle : ServedQueue.SingleWorker s.view) : t.Lined below := by
  have hmove := hm
  cases hm with
  | push hk hphase => exact h.push hk hphase hguard
  | take hw hne => exact h.take hw hne hsingle hguard
  | send hcall hcoalesce => exact h.send hcall hcoalesce hguard
  | readToken hcall | writeToken hcall | merge hcall | reject hcall _ | fail hcall | accept hcall =>
    exact h.call hmove hguard hcall (by first | exact Or.inl rfl | exact Or.inr rfl) rfl rfl rfl
      fun c hl => by cases hl
  | quit hw _ | finishOk hw | finishError hw | notify hw | notifiedOk hw | notifiedError hw
  | release hw | notifyWaiters hw =>
    exact h.worker hmove hguard rfl (Or.inr rfl) rfl (List.Sublist.refl _) fun c hl => by cases hl
  | drain hw =>
    exact h.worker hmove hguard rfl (Or.inr rfl) rfl (List.nil_sublist _) fun c hl => by cases hl
  | @workerTerminate _ _ _ _ resume _ hw _ =>
    refine h.worker hmove hguard rfl (Or.inr ?_) rfl (List.Sublist.refl _) fun c hl => by cases hl
    cases resume <;> split <;> rfl
  | checkRetry hw | recheckRetry hw =>
    refine h.worker hmove hguard rfl (Or.inr ?_) rfl (List.Sublist.refl _) fun c hl => by cases hl
    split <;> rfl
  | startWorker _ _ _ _ =>
    exact h.worker hmove hguard rfl (Or.inr rfl) rfl (List.Sublist.refl _) fun c hl => by cases hl
  | _ => exact h.mono hmove hguard (fun _ => Or.inl rfl) rfl (List.Sublist.refl _) fun c hl => by cases hl

/-- Nothing is sent below a finished operation in a run that keeps to the guard. -/
theorem nothingFollows_of_guarded {token : String} {stepData : Table}
    (h : (machine token stepData).ReachableBy (Guarded below) s) :
    NothingFollows below (sentUpdates s.log) := by
  have hlined : s.Lined below := by
    refine h.invariant (I := State.Lined below) ?_ ?_
    · rintro _ rfl
      exact ⟨0, fun _ _ => rfl, List.Pairwise.nil, List.Pairwise.nil, List.Pairwise.nil,
        fun u hu => (List.not_mem_nil hu).elim, fun c k hk => by cases hk⟩
    · intro r l t hr hlined hguard hstep
      exact hlined.step (move_of_step hstep) hguard (singleWorker hr)
  obtain ⟨w, -, hline⟩ := hlined
  exact (List.pairwise_append.mp hline.order).1

end LambdaDurable.CheckpointManager
