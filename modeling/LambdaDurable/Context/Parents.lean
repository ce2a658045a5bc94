import LambdaDurable.Context.Ledger
import LambdaDurable.Context.Placed

/-!
# Parents before children

If every call names a parent that the service knows, or has none, then so does every
request, and the parent was known before the request was made: a batch is built from
calls only, and merging two updates keeps the parent of one of them.
-/

namespace LambdaDurable

namespace Backend

theorem merged_parentId {us : List OperationUpdate} {v : OperationUpdate} (h : merged us = some v)
    {p : String} (hp : v.parentId = some p) : ∃ u ∈ us, u.parentId = some p := by
  cases us with
  | nil => cases h
  | cons u us =>
    obtain rfl := Option.some.inj h
    clear h
    induction us generalizing u with
    | nil => exact ⟨u, List.mem_cons_self, hp⟩
    | cons w us ih =>
      obtain ⟨x, hx, hparent⟩ := ih (CheckpointManager.mergeUpdate u w) hp
      obtain rfl | hx := List.mem_cons.mp hx
      · obtain hw | ⟨-, hu⟩ := Option.or_eq_some_iff.mp hparent
        · exact ⟨w, by simp, hw⟩
        · exact ⟨u, by simp, hu⟩
      · exact ⟨x, by simp [hx], hparent⟩

theorem coalesce_parentId {us vs : List OperationUpdate}
    (h : CheckpointManager.coalesceUpdates us = .ok vs) {v : OperationUpdate} (hv : v ∈ vs)
    {p : String} (hp : v.parentId = some p) : ∃ u ∈ us, u.parentId = some p := by
  obtain ⟨u, hu, hparent⟩ := merged_parentId (merged_of_coalesce h hv) hp
  exact ⟨u, (List.mem_filter.mp hu).1, hparent⟩

end Backend

namespace CheckpointManager

open State

/-- The operation was loaded, or its START was in a batch accepted so far. -/
def Known (loaded : Table) (log : List ServiceEvent) (id : String) : Prop :=
  loaded id ≠ none ∨ ∃ o batch token updates response,
    .accepted o batch token updates response ∈ log ∧
      (∃ e ∈ batch, e.update.id = id ∧ e.update.action = .start) ∧ ∃ u ∈ updates, u.id = id

/-- Every request names parents only that were known before it. -/
def ParentsFirst (loaded : Table) (log : List ServiceEvent) : Prop :=
  ∀ newer o batch token updates older, log = newer ++ .requested o batch token updates :: older →
    ∀ u ∈ updates, ∀ p, u.parentId = some p → Known loaded older p

structure Rooted (loaded : Table) (s : State) : Prop where
  callers : ∀ c k, s.callers c = some k → ∀ p, k.update.parentId = some p → Known loaded s.log p
  log : ParentsFirst loaded s.log

variable {loaded : Table} {s t : State} {l : Label}

theorem Known.later {log log' : List ServiceEvent} {id : String} (h : Known loaded log id)
    (hsub : ∀ event ∈ log, event ∈ log') : Known loaded log' id := by
  obtain hloaded | ⟨o, batch, token, updates, response, hevent, hcarried⟩ := h
  · exact Or.inl hloaded
  · exact Or.inr ⟨o, batch, token, updates, response, hsub _ hevent, hcarried⟩

theorem ParentsFirst.cons {log : List ServiceEvent} (h : ParentsFirst loaded log)
    {event : ServiceEvent} (hevent : ∀ o batch token updates, event = .requested o batch token updates →
      ∀ u ∈ updates, ∀ p, u.parentId = some p → Known loaded log p) :
    ParentsFirst loaded (event :: log) := by
  intro newer o batch token updates older heq
  cases newer with
  | nil =>
    obtain ⟨rfl, rfl⟩ := List.cons.inj heq
    exact hevent o batch token updates rfl
  | cons _ newer => exact h newer o batch token updates older (List.cons.inj heq).2

theorem rooted_new (token : String) (loaded : Table) : Rooted loaded (State.new token loaded) where
  callers c k hk := by cases hk
  log newer o batch token updates older h := by simp [State.new] at h

/-- The log of a step: as before, or with one more event. -/
theorem Move.log_cases (h : Move s l t) : t.log = s.log ∨
    (∃ o batch token updates, s.callOf o = some (batch, .holding token) ∧
      coalesceUpdates (batch.map (·.update)) = .ok updates ∧
      t.log = .requested o batch token updates :: s.log) ∨
    ∃ event, (∀ o batch token updates, event ≠ .requested o batch token updates) ∧
      t.log = event :: s.log := by
  cases h with
  | @send o batch token updates hcall hcoalesce =>
    exact Or.inr (Or.inl ⟨o, batch, token, updates, hcall, hcoalesce, by rw [setCall_log]⟩)
  | @reject o batch token e hcall he =>
    refine Or.inr (Or.inr ⟨.rejected o batch e, fun _ _ _ _ => ServiceEvent.noConfusion, ?_⟩)
    rw [setCall_log]
  | @fail o batch token updates e hcall =>
    refine Or.inr (Or.inr ⟨.rejected o batch e, fun _ _ _ _ => ServiceEvent.noConfusion, ?_⟩)
    rw [setCall_log]
  | @accept o batch token updates response hcall =>
    refine Or.inr (Or.inr ⟨.accepted o batch token updates response,
      fun _ _ _ _ => ServiceEvent.noConfusion, ?_⟩)
    rw [setCall_log]
  | readToken _ | writeToken _ | merge _ => exact Or.inl (by rw [setCall_log])
  | _ => exact Or.inl rfl

/-- What is in a batch is the update of a call. -/
theorem Sound.owns_of_holding (h : Sound s) {o : Owner} {batch : List QueuedCheckpoint}
    {token : String} (hcall : s.callOf o = some (batch, .holding token)) : ∀ e ∈ batch, s.Owns e := by
  cases o with
  | worker w => exact (h.workers w _ (callOf_worker.mp hcall)).1
  | force n =>
    obtain ⟨rfl, -⟩ := callOf_force.mp hcall
    exact fun e he => (List.not_mem_nil he).elim

theorem Rooted.step (h : Rooted loaded s) (hsound : Sound s) (hm : Move s l t)
    (hcall : ∀ c kind stepId update, l = .call c kind stepId update →
      ∀ p, update.parentId = some p → Known loaded s.log p) : Rooted loaded t where
  callers c k hk p hp := by
    have hlater : ∀ {q}, Known loaded s.log q → Known loaded t.log q :=
      fun hq => hq.later hm.extends.log
    cases hbefore : s.callers c with
    | some k' =>
      obtain ⟨k'', hk'', -, hqueued⟩ := hm.extends.callers c k' hbefore
      obtain rfl : k = k'' := Option.some.inj (hk.symm.trans hk'')
      exact hlater (h.callers c k' hbefore p (Caller.update_eq_of_queued hqueued ▸ hp))
    | none =>
      obtain ⟨k', hk', -⟩ | ⟨-, kind, stepId, update, rfl, rfl⟩ := hm.callers_cases hk
      · rw [hbefore] at hk'
        cases hk'
      · exact hlater (hcall c kind stepId update rfl p hp)
  log := by
    rcases hm.log_cases with hsame | ⟨o, batch, token, updates, hholding, hcoalesce, hlog⟩ |
        ⟨event, hevent, hlog⟩
    · rw [hsame]
      exact h.log
    · rw [hlog]
      refine h.log.cons ?_
      rintro _ _ _ _ ⟨⟩ u hu p hp
      obtain ⟨v, hv, hparent⟩ := Backend.coalesce_parentId hcoalesce hu hp
      obtain ⟨e, he, rfl⟩ := List.mem_map.mp hv
      obtain ⟨k, hk, hqueued⟩ := hsound.owns_of_holding hholding e he
      have hupdate : k.update = e.update := by rw [← hqueued]; rfl
      exact h.callers e.notify k hk p (hupdate ▸ hparent)
    · rw [hlog]
      exact h.log.cons fun o batch token updates heq => absurd heq (hevent o batch token updates)

end CheckpointManager

namespace Call

open Effects State CheckpointManager

variable {V α : Type} {token : String} {loaded : Table} {program : Act V α} {s : State V α}
  {allow : State V α → Label V → Prop}

theorem caller_of_awaits (h : (machine token loaded program).ReachableBy allow s) {n : Nat}
    {kind : CallKind} {stepId : String} {u : OperationUpdate} (hawaits : s.AwaitsCall n kind stepId u) :
    ∃ phase, s.manager.callers n = some ⟨kind, stepId, u, phase⟩ := by
  refine h.invariant (I := fun s => ∀ n kind stepId u, s.AwaitsCall n kind stepId u →
    ∃ phase, s.manager.callers n = some ⟨kind, stepId, u, phase⟩) ?_ ?_ n kind stepId u hawaits
  · rintro _ ⟨mode, rfl⟩ n kind stepId u hawaits
    exact absurd hawaits (not_awaits_of_ticket rfl _ _ _ _)
  · intro s l s' _ hs _ hstep n kind stepId u hawaits
    cases move_of_step hstep with
    | manager hm =>
      obtain ⟨phase, hn⟩ := hs n kind stepId u hawaits
      obtain ⟨k', hk', hkind, hqueued, -⟩ := (CheckpointManager.move_of_step hm).caller_stays hn
      exact ⟨k'.phase, hk'.trans (congrArg some (Caller.eq_of_queued hkind hqueued))⟩
    | setMode | service _ => exact hs n kind stepId u hawaits
    | perform _ _ _ | resume _ _ _ => exact absurd hawaits (not_awaits_of_ticket rfl _ _ _ _)
    | @request m e k l m' _ hprogram hl hm =>
      obtain ⟨hticket, e', k', hprogram', hcall⟩ := hawaits
      obtain rfl : m = n := Option.some.inj hticket
      obtain ⟨rfl, -⟩ := Prog.act.inj (hprogram.symm.trans hprogram')
      obtain rfl := Option.some.inj (hl.symm.trans (call_of_requestLabel hcall))
      cases CheckpointManager.move_of_step hm with
      | call _ => exact ⟨.entered, Function.update_self ..⟩

theorem known_of_announced (hallow : ∀ s l, allow s (.manager l) → rejects s.manager l = false)
    (h : (machine token loaded program).ReachableBy allow s) {id : String}
    (hannounced : Announced loaded s.trace id) : Known loaded s.manager.log id := by
  obtain hloaded | ⟨stepId, u, r, hmem, rfl, haction⟩ := hannounced
  · exact Or.inl hloaded
  refine h.invariant (I := fun s => ∀ stepId u r, ⟨.checkpoint stepId u, r⟩ ∈ s.trace →
    u.action = .start → Known loaded s.manager.log u.id) ?_ ?_ stepId u r hmem haction
  · rintro _ ⟨mode, rfl⟩ stepId u r hmem
    cases hmem
  · intro s l s' hr hs _ hstep stepId u r hmem haction
    cases move_of_step hstep with
    | manager hm =>
      exact (hs stepId u r hmem haction).later (CheckpointManager.move_of_step hm).extends.log
    | request _ _ _ hm =>
      exact (hs stepId u r hmem haction).later (CheckpointManager.move_of_step hm).extends.log
    | setMode | service _ => exact hs stepId u r hmem haction
    | @perform _ e _ _ _ _ ha =>
      rw [answer_trace, touch_trace] at hmem
      obtain heq | hbefore := List.mem_cons.mp hmem
      · cases heq
        cases ha
      · have hknown := hs stepId u r hbefore haction
        cases e <;> exact hknown
    | @resume n e k a hticket hprogram ha =>
      obtain heq | hbefore := List.mem_cons.mp hmem
      · cases heq
        obtain ⟨phase, hn⟩ := caller_of_awaits hr ⟨hticket, _, k, hprogram, rfl⟩
        simp only [outcome, hn, Option.any_some, Option.ite_none_right_eq_some,
          decide_eq_true_eq] at ha
        obtain ⟨batch, ⟨o, token, updates, response, hlog, hcoalesce⟩, he⟩ :=
          (sound_of_noneRejected (manager_reachable hallow hr)).durable n _ hn rfl ha.1
        exact Or.inr ⟨o, batch, token, updates, response, hlog, ⟨_, he, rfl, haction⟩,
          Backend.mem_of_coalesce hcoalesce (List.mem_map_of_mem he)⟩
      · exact hs stepId u r hbefore haction

end Call

namespace Tasks

open Effects CheckpointManager

variable {V I : Type} {token : String} {loaded : Table} {root : ExecutionContext} {s s' : State V I}
  {l : Label V I} {t : Nat} {task : Task V I}

/-- No call of the service fails. -/
def NoneFails (s : State V I) (l : Label V I) : Prop :=
  ∀ m, l = .manager m → rejects s.manager m = false

theorem rejects_of_asks {m : CheckpointManager.State} {l : CheckpointManager.Label}
    (h : asks l = true) : rejects m l = false := by
  cases l <;> first | rfl | cases h

theorem manager_reachable (h : (machine token loaded root).ReachableBy NoneFails s) :
    (CheckpointManager.machine token loaded).ReachableBy NoneRejected s.manager :=
  manager_reachableBy (fun _ _ hl => hl _ rfl) (fun _ _ => rejects_of_asks) h

theorem view_reachable (h : (machine token loaded root).ReachableBy NoneFails s)
    (htask : s.tasks[t]? = some task) : (Call.machine token loaded task.start).ReachableBy
      (fun s l => ∀ m, l = .manager m → rejects s.manager m = false) (s.view task) := by
  refine view_reachableBy (fun s l cl hl _ hseen m hm => ?_) h htask
  subst hm
  rw [(look_fields s t task.start).1]
  cases hseen with
  | manager _ => exact hl m rfl
  | markAwaited _ _ => rfl
  | others _ _ _ hrequest => exact rejects_of_asks (asks_of_requestLabel hrequest)

/-- The context's operation is known, if it has one. -/
def Grounded (loaded : Table) (log : List ServiceEvent) (ctx : ExecutionContext) : Prop :=
  ∀ p, ctx.currentParentId = some p → Known loaded log p

structure Rooted (loaded : Table) (s : State V I) : Prop where
  manager : CheckpointManager.Rooted loaded s.manager
  contexts : ∀ ctx ∈ s.contexts, Grounded loaded s.manager.log ctx
  tasks : ∀ task ∈ s.tasks, Grounded loaded s.manager.log task.ctx

theorem known_of_announced (hr : (machine token loaded root).ReachableBy NoneFails s)
    (htask : s.tasks[t]? = some task) {id : String} (h : Announced loaded task.trace id) :
    Known loaded s.manager.log id :=
  Call.known_of_announced (fun _ _ hl => hl _ rfl) (view_reachable hr htask) h

theorem Move.extends_log (hm : Move loaded s l s') :
    ∀ event ∈ s.manager.log, event ∈ s'.manager.log := by
  obtain hsame | ⟨m, hm, -⟩ := hm.manager_cases
  · rw [hsame]
    exact fun _ => id
  · exact (CheckpointManager.move_of_step hm).extends.log

/-- The calls that a step makes have known parents. -/
theorem Rooted.call (h : Rooted loaded s) (hr : (machine token loaded root).ReachableBy NoneFails s)
    (htask : s.tasks[t]? = some task) {e : Effect V} {k : Answer e → Act V (DurableResult (Output V))}
    (hprogram : task.program = .act e k) {n c : Nat} {kind : CallKind} {stepId : String}
    {update : OperationUpdate} (hcall : Call.requestLabel n e = some (.call c kind stepId update))
    {p : String} (hp : update.parentId = some p) : Known loaded s.manager.log p := by
  have hplaced := placed hr htask (e := e) (by rw [hprogram]; rfl)
  have hparent : task.ctx.currentParentId = some p ∨ Announced loaded task.trace p := by
    cases e with
    | checkpoint _ u | checkpointQueued _ u =>
      cases hcall
      exact hplaced p hp
    | _ => cases hcall
  obtain hparent | hannounced := hparent
  · exact h.tasks task (List.mem_of_getElem? htask) p hparent
  · exact known_of_announced hr htask hannounced

theorem Rooted.step (h : Rooted loaded s) (hr : (machine token loaded root).ReachableBy NoneFails s)
    (hm : Move loaded s l s') : Rooted loaded s' where
  manager := by
    obtain hsame | ⟨m, hm, hcases⟩ := hm.manager_cases
    · rw [hsame]
      exact h.manager
    · refine h.manager.step (sound_of_noneRejected (manager_reachable hr))
        (CheckpointManager.move_of_step hm) fun c kind stepId update hcall p hp => ?_
      subst hcall
      obtain ⟨hquiet, -⟩ | ⟨_, n, task, e, k, -, htask, hprogram, hrequest⟩ := hcases
      · cases hquiet
      · exact h.call hr htask hprogram hrequest hp
  contexts := by
    have hlater : ∀ ctx ∈ s.contexts, Grounded loaded s'.manager.log ctx := fun ctx hctx p hp =>
      (h.contexts ctx hctx p hp).later hm.extends_log
    obtain hsame | ⟨_, task, hashedId, counter, htask, he, hcontexts⟩ := hm.contexts_cases
    · rwa [hsame]
    · rw [hcontexts]
      intro ctx hctx
      obtain hctx | hctx := List.mem_append.mp hctx
      · exact hlater ctx hctx
      · obtain rfl := List.mem_singleton.mp hctx
        rintro p ⟨⟩
        exact (known_of_announced hr htask (placed hr htask he).1).later hm.extends_log
  tasks := by
    intro task' hmem
    obtain ⟨task, htask, hsame⟩ | hnew := hm.grows.mem hmem
    · rw [hsame.ctx]
      exact fun p hp => (h.tasks task htask p hp).later hm.extends_log
    · rcases mem_started hnew with ⟨_, name, call, ctx, -, hctx, rfl⟩ | ⟨_, task, e, htask, he, hspawned⟩
      · exact fun p hp => (h.contexts ctx (List.mem_of_getElem? hctx) p hp).later hm.extends_log
      · obtain ⟨_, _, _, _, spec, cfg, hashedId, rfl, hbatch, rfl⟩ := mem_spawned hspawned
        obtain ⟨n, hdrawn, rfl⟩ := batch_eq_some hbatch
        rintro p ⟨⟩
        exact (known_of_announced hr htask (placed hr htask he n hdrawn)).later hm.extends_log

/-- While no call of the service fails, whatever is sent below an operation is sent after that
operation is known. -/
theorem parents_first (h : (machine token loaded root).ReachableBy NoneFails s) :
    ParentsFirst loaded s.manager.log := by
  refine (h.invariant (I := Rooted loaded) ?_ ?_).manager.log
  · rintro _ ⟨hroot, mode, rfl⟩
    refine ⟨rooted_new token loaded, fun ctx hctx => ?_, fun task htask => by cases htask⟩
    obtain rfl := List.mem_singleton.mp hctx
    rintro p hp
    rw [hroot] at hp
    cases hp
  · intro s l s' hr hs _ hstep
    exact hs.step hr (move_of_step hstep)

def noneFails (s : State V I) : Label V I → Bool
  | .manager m => !rejects s.manager m
  | _ => true

theorem noneFails_sound (h : noneFails s l = true) : NoneFails s l := by
  rintro m rfl
  simpa [noneFails] using h

/-- The next effect of the task, answered at once. -/
def quick (t : Nat) : Label V I := .perform t fun _ => none

/-- The next effect of the task, a call with the number `n` that pushes. -/
def asked (t n w : Nat) : List (Label V I) :=
  .request t n :: [.checkTerminating n, .checkAncestor n, .track n, .push n, .maybeStart n w].map
    .manager

/-- The worker serves a batch of one call, which returns to its task. -/
def served (t n w : Nat) : List (Label V I) :=
  (serveLabels w).map .manager ++ [.manager (.wake n), .resume t]

/-- A step in a child context: its START is sent once that of the context is acknowledged. -/
def nestedRun : List (Label Nat Nat) :=
  [.begin 0 (some "a") (.runInChildContext { codec := .nat }), quick 0, quick 0, quick 0] ++
    asked 0 0 0 ++ served 0 0 0 ++ [quick 0, .enter 0, .begin 1 (some "b") (.step { codec := .nat }),
      quick 1, quick 1, quick 1] ++ asked 1 1 0 ++
    [.takeBatch 0, .readToken (.worker 0), .send (.worker 0)].map .manager

def sentParents (log : List ServiceEvent) : List (List (Option String)) :=
  log.filterMap fun
    | .requested _ _ _ updates => some (updates.map (·.parentId))
    | _ => none

theorem parents_first_nestedRun : ∃ s : State Nat Nat,
    sentParents s.manager.log = [[some "a_0"], [none]] ∧
      ParentsFirst (fun _ => none) s.manager.log := by
  have hend : ((machine "t0" (fun _ => none) rootContext).checkedRun noneFails
      (.new "t0" (fun _ => none) .execution rootContext) nestedRun).map
      (fun s => sentParents s.manager.log) = some [[some "a_0"], [none]] := by decide +kernel
  obtain ⟨s, hrun, hs⟩ := Option.map_eq_some_iff.mp hend
  refine ⟨s, hs, @parents_first Nat Nat "t0" (fun _ => none) rootContext s ?_⟩
  exact Transition.Machine.checkedRun_reachableBy (fun _ _ _ => noneFails_sound) nestedRun
    (.init ⟨rfl, _, rfl⟩) hrun

end Tasks

end LambdaDurable
