import LambdaDurable.Checkpoint.Published
import LambdaDurable.Context.Anchored
import LambdaDurable.Context.Counters

/-!
# What a suspended invocation waits for

A call that has asked for a suspension waits for the operation it has looked up last, and a step
that has sent a RETRY waits for it. While no other task sends updates of the operation, the service
goes on with its record by itself.
-/

namespace LambdaDurable

open Effects Backend Call
open CheckpointManager (acceptedUpdates)

variable {V I α : Type}

namespace Call

variable {loaded : Table} {type : OperationType} {id : String} {s : State V α}
  {trace : List (Event V)} {u : OperationUpdate}

/-- The call waits for an operation of the given type. -/
inductive State.Waits (s : State V α) (type : OperationType) (id : String) : Prop
  | asked {result : TerminationResult} : Performs s (.terminate result) →
      result.reason.awaitedType = some type → lookedUp s.trace = some id → s.Waits type id
  | retried {u : OperationUpdate} : u ∈ s.askedFor → u.action = .retry → u.id = id → type = .step →
      s.Waits type id

/-- The call sends updates of one type for the operation, and its loaded record is of that type. -/
structure State.Types (s : State V α) (loaded : Table) (type : OperationType) (id : String) :
    Prop where
  updates : ∀ u ∈ s.askedFor, u.id = id → u.operationType = type
  record : OfType type (loaded id)
  known : ∀ op, loaded id = some op → op.status ≠ .unknown

theorem isExternal_of_awaitedType {reason : TerminationReason} (h : reason.awaitedType = some type) :
    type = .step ∨ isExternal type = true := by
  cases reason <;> simp [TerminationReason.awaitedType] at h <;> subst h <;> decide

/-! ## After a RETRY -/

/-- The RETRY ends what is sent of steps, and its record was open. -/
structure Retried (loaded : Table) (us : List OperationUpdate) (u : OperationUpdate) : Prop where
  operationType : u.operationType = .step
  unfinished : loaded.terminal u.id = false
  session : Session (ofKind .step us) (some u)

theorem retried_append {e : Effect V} (h : Anchored loaded trace e)
    (hsent : ∀ u ∈ sent trace, u.action = .retry → Retried loaded (sent trace) u)
    (hu : u ∈ sent trace ++ e.updates) (haction : u.action = .retry) :
    Retried loaded (sent trace ++ e.updates) u := by
  obtain hu | hu := List.mem_append.mp hu
  · have hnone : e.updates = [] := by
      by_contra hsome
      exact h.closed hsome u hu haction
    rw [hnone, List.append_nil]
    exact hsent u hu haction
  · obtain ⟨htype, hopen, hopening⟩ := h.retries u hu haction
    have hone : e.updates = [u] := by
      unfold Effect.updates at hu ⊢
      cases hcall : e.call with
      | none => simp [hcall] at hu
      | some c =>
        rw [hcall] at hu
        obtain rfl : u = c.2.2 := by simpa using hu
        rfl
    have hkind : ofKind .step [u] = [u] := by simp [ofKind, htype]
    refine ⟨htype, hopen, ofKind .step (sent trace), ?_, hopening⟩
    rw [hone, ofKind_append, hkind, Option.toList_some]

theorem retried_of_permitted (h : Permitted (Anchored loaded) trace) :
    ∀ u ∈ sent trace, u.action = .retry → Retried loaded (sent trace) u := by
  induction trace with
  | nil => rintro _ ⟨⟩
  | cons event trace ih => exact fun u hu => retried_append h.1 (ih h.2) hu

/-- All that a call does, and does next, is anchored. -/
structure State.IsAnchored (s : State V α) (loaded : Table) : Prop where
  permitted : Permitted (Anchored loaded) s.trace
  next : ∀ e, s.program.next = some e → Anchored loaded s.trace e

theorem State.IsAnchored.retried (h : s.IsAnchored loaded) (hu : u ∈ s.askedFor)
    (haction : u.action = .retry) : Retried loaded s.askedFor u := by
  have hsent := retried_of_permitted h.permitted
  unfold askedFor at hu ⊢
  cases hnext : s.program.next with
  | none =>
    rw [hnext] at hu
    simp only [Option.map_none, Option.getD_none, List.append_nil] at hu ⊢
    exact hsent u hu haction
  | some e =>
    rw [hnext] at hu
    exact retried_append (h.next e hnext) hsent hu haction

/-! ## After a suspension -/

/-- A call that has suspended does nothing more, so what its suspension rests on is still so. -/
theorem State.IsAnchored.rests (h : s.IsAnchored loaded) {result : TerminationResult}
    (hasked : Performs s (.terminate result)) (hsuspension : result.reason.isSuspension = true) :
    ∃ type id earlier, result.reason.awaitedType = some type ∧ lookedUp s.trace = some id ∧
      Rests loaded type id earlier ∧ earlier <:+ s.trace ∧ s.askedFor = sent earlier := by
  obtain hnext | ⟨a, hmem⟩ := hasked
  · obtain ⟨type, id, htype, hlook, hrests⟩ := (h.next _ hnext).suspends result rfl hsuspension
    refine ⟨type, id, s.trace, htype, hlook, hrests, List.suffix_refl _, ?_⟩
    rw [askedFor, hnext]
    exact List.append_nil _
  · obtain ⟨later, earlier, htrace⟩ := List.append_of_mem hmem
    have hunsuspended : ∀ e trace, Anchored loaded trace e → ⟨.terminate result, a⟩ ∈ trace →
        e = .pending := by
      intro e trace he hmem
      refine he.last.resolve_left fun hnone => ?_
      have hnot := hnone result hmem
      rw [hsuspension] at hnot
      cases hnot
    obtain rfl : later = [] := by
      obtain rfl | ⟨later, event, rfl⟩ := List.eq_nil_or_concat' later
      · rfl
      · have hpermitted := h.permitted
        rw [htrace, List.append_assoc] at hpermitted
        have hlast := hunsuspended _ _ (permitted_event hpermitted) List.mem_cons_self
        obtain ⟨e, answer⟩ := event
        obtain rfl : e = .pending := hlast
        exact answer.elim
    rw [List.nil_append] at htrace
    have hpermitted := h.permitted
    rw [htrace] at hpermitted
    obtain ⟨type, id, htype, hlook, hrests⟩ := hpermitted.1.suspends result rfl hsuspension
    refine ⟨type, id, earlier, htype, ?_, hrests, ?_, ?_⟩
    · rw [htrace]
      exact hlook
    · rw [htrace]
      exact List.suffix_cons _ _
    · have hsent : sent s.trace = sent earlier := by
        rw [htrace]
        exact sent_cons_quiet rfl
      rw [askedFor, hsent]
      cases hnext : s.program.next with
      | none => exact List.append_nil _
      | some e =>
        obtain rfl := hunsuspended e _ (h.next e hnext) hmem
        exact List.append_nil _

/-! ## The record of the operation -/

theorem State.Types.ofKind (h : s.Types loaded type id) {us : List OperationUpdate}
    (hsub : us.Sublist (naming id s.askedFor)) : us.Sublist (LambdaDurable.ofKind type s.askedFor) := by
  have hall : us = LambdaDurable.ofKind type us := by
    refine (List.filter_eq_self.mpr fun u hu => ?_).symm
    obtain ⟨hmem, hid⟩ := List.mem_filter.mp (hsub.subset hu)
    simpa using h.updates u hmem (by simpa using hid)
  rw [hall]
  exact (hsub.trans List.filter_sublist).filter _

theorem State.Types.acks (h : s.Types loaded type id) (hnoted : s.Noted loaded id)
    {v : OperationUpdate} (hv : v ∈ s.acks id) : v.operationType = type := by
  obtain ⟨w, hw, htype⟩ := hnoted.asked hv
  obtain ⟨hmem, hid⟩ := List.mem_filter.mp hw
  rw [← htype]
  exact h.updates w hmem (by simpa using hid)

/-- An accepted RETRY makes the record due. -/
theorem awaken_of_accepted (h : s.IsAnchored loaded) (htypes : s.Types loaded .step id)
    (hnoted : s.Noted loaded id) (hu : u ∈ s.askedFor) (haction : u.action = .retry) (hid : u.id = id)
    (haccepted : u ∈ s.accepted.map (·.update)) :
    Awaken loaded (acceptedUpdates s.manager.log) s.backend id := by
  obtain ⟨-, hopen, hsession⟩ := h.retried hu haction
  obtain ⟨closing, hclosing, hsame⟩ := hsession.sublist (htypes.ofKind hnoted.sublist)
  have hmem : u ∈ naming id (s.accepted.map (·.update)) :=
    List.mem_filter.mpr ⟨haccepted, by simpa using hid⟩
  have hlast : Session (naming id (s.accepted.map (·.update))) (some u) := by
    obtain rfl | rfl := hsame
    · obtain ⟨starts, hstarts, hopening⟩ := hclosing
      rw [hstarts, Option.toList_none, List.append_nil] at hmem
      rw [(hopening u hmem).action] at haction
      cases haction
    · exact hclosing
  exact awaken_of_retry hnoted.record hnoted.merges hlast haction htypes.record (hid ▸ hopen)
    fun v hv => htypes.acks hnoted hv

theorem State.Kept.accepted (hkept : s.Kept loaded id) {stepId : String}
    {r : Answer (.checkpoint stepId u : Effect V)} (hmem : ⟨.checkpoint stepId u, r⟩ ∈ s.trace)
    (hid : u.id = id) : u ∈ naming id (s.accepted.map (·.update)) := by
  obtain ⟨later, earlier, htrace⟩ := List.append_of_mem hmem
  apply (hkept.delivered later earlier stepId u r htrace hid).subset
  simp [naming, hid]

/-- A suspension leaves a record behind that is due. -/
theorem awaken_of_asked (h : s.IsAnchored loaded) {result : TerminationResult}
    (hasked : Performs s (.terminate result)) (hsuspension : result.reason.isSuspension = true)
    (htype : result.reason.awaitedType = some type) (hlook : lookedUp s.trace = some id)
    (htypes : s.Types loaded type id) (hkept : s.Kept loaded id) (hnoted : s.Noted loaded id) :
    Awaken loaded (acceptedUpdates s.manager.log) s.backend id := by
  obtain ⟨type', id', earlier, htype', hlook', hrests, hsuffix, hsent⟩ := h.rests hasked hsuspension
  obtain rfl : type = type' := Option.some.inj (htype.symm.trans htype')
  obtain rfl : id = id' := Option.some.inj (hlook.symm.trans hlook')
  have hsub := htypes.ofKind hnoted.sublist
  rw [hsent] at hsub
  cases hrests with
  | @loaded op hop hopen hstep hnone =>
    rw [hnone] at hsub
    refine awaken_of_loaded hnoted.record hnoted.merges (List.sublist_nil.mp hsub) hop ?_
    obtain rfl | hexternal := isExternal_of_awaitedType htype
    · exact Or.inl (hstep rfl)
    · exact Or.inr ⟨(htypes.record op hop).symm ▸ hexternal, hopen, htypes.known op hop⟩
  | @started stepId u r hnew hexternal hone hid haction hmem =>
    have haccepted := hkept.accepted (hsuffix.subset hmem) hid
    rw [hone] at hsub
    have hall : naming id (s.accepted.map (·.update)) = [u] := by
      apply hsub.eq_of_length
      have hle := hsub.length_le
      have hpos := List.length_pos_of_mem haccepted
      rw [List.length_singleton] at hle ⊢
      omega
    have hkind : u ∈ ofKind type (sent earlier) := by simp [hone]
    have hutype : u.operationType = type := by simpa using (List.mem_filter.mp hkind).2
    exact awaken_of_start hnoted.record hnoted.merges hall hnew haction (hutype ▸ hexternal)
  | @retried stepId u r before hstep hbefore hid haction =>
    subst hstep hbefore
    have hu : u ∈ s.askedFor := by
      rw [hsent]
      exact List.mem_append_right _ (List.mem_singleton.mpr rfl)
    have haccepted := hkept.accepted (hsuffix.subset List.mem_cons_self) hid
    exact awaken_of_accepted h htypes hnoted hu haction hid (List.mem_filter.mp haccepted).1

end Call

namespace Tasks

open CheckpointManager (Confirmed Prompt rejects acceptedEntries)

variable {token : String} {loaded : Table} {root : ExecutionContext} {s s' : State V I} {l : Label V I}
  {j : Nat} {task : Task V I} {type : OperationType} {id : String}
  {allow : State V I → Label V I → Prop}

/-- No batch fails, only the tasks and the workers call `terminate`, and no RETRY is still on its
way to the queue when a worker looks for the second time. -/
def Orderly (s : State V I) (l : Label V I) : Prop :=
  ∀ m, l = .manager m → rejects s.manager m = false ∧ Prompt s.manager m ∧
    ∀ n result, m ≠ .terminate n result

/-! ## What the tasks do -/

theorem anchors_start (h : (machine token loaded root).ReachableBy allow s) (htask : task ∈ s.tasks) :
    Anchors loaded (fun trace _ => Live trace) task.start [] := by
  refine h.invariant (I := fun s => ∀ task ∈ s.tasks,
    Anchors loaded (fun trace _ => Live trace) task.start []) ?_ ?_ task htask
  · rintro _ ⟨-, mode, rfl⟩ task htask
    cases htask
  · intro s l s' _ hs _ hstep task' hmem
    obtain ⟨task, htask, hsame⟩ | hnew := (move_of_step hstep).grows.mem hmem
    · rw [hsame.start]
      exact hs task htask
    · obtain ⟨_, name, call, ctx, -, -, rfl⟩ | ⟨_, task, e, -, -, hspawned⟩ := mem_started hnew
      · exact anchors_run ..
      · obtain ⟨_, _, _, _, spec, cfg, hashedId, -, -, rfl⟩ := mem_spawned hspawned
        apply anchors_returning
        apply live_of_mild
        exact mild_runChild ..

theorem isAnchored (h : (machine token loaded root).ReachableBy allow s)
    (htask : s.tasks[j]? = some task) : (s.view task).IsAnchored loaded := by
  have hview : (Call.machine token loaded task.start).ReachableBy (fun _ _ => True) (s.view task) :=
    view_reachableBy (fun _ _ _ _ _ _ => trivial) h htask
  have hstart := anchors_start h (List.mem_of_getElem? htask)
  constructor
  · exact permitted_of_reachableBy (respects_answers loaded _) hstart hview
  · intro e he
    have hmeets := meets_of_reachableBy (respects_answers loaded _) hstart hview
    cases hprogram : (s.view task).program with
    | ret r =>
      rw [hprogram] at he
      cases he
    | act e' k =>
      rw [hprogram] at he hmeets
      obtain rfl : e' = e := Option.some.inj he
      exact hmeets.1

/-- A task never takes back what it has asked for. -/
theorem Move.asks_more (hm : Move loaded s l s') (hj : s.tasks[j]? = some task) :
    ∃ task', s'.tasks[j]? = some task' ∧ (s.view task).askedFor ⊆ (s'.view task').askedFor ∧
      ∀ e, Performs (s.view task) e → Performs (s'.view task') e := by
  obtain ⟨task', hj', hadvances⟩ := hm.advances hj
  refine ⟨task', hj', ?_⟩
  cases hadvances with
  | idle hprogram htrace _ =>
    simp only [Call.State.askedFor, Performs, State.view, State.around, hprogram, htrace]
    exact ⟨List.Subset.refl _, fun _ h => h⟩
  | @answered e k a hprogram _ htrace _ =>
    simp only [Call.State.askedFor, Performs, State.view, State.around, hprogram, htrace]
    constructor
    · exact List.subset_append_left _ _
    · rintro e' (hnext | ⟨a', hmem⟩)
      · obtain rfl := Option.some.inj hnext
        exact Or.inr ⟨a, List.mem_cons_self⟩
      · exact Or.inr ⟨a', List.mem_cons_of_mem _ hmem⟩

/-- What the manager has been asked, the tasks have asked. -/
structure Requested (s : State V I) : Prop where
  callers : ∀ c k, s.manager.callers c = some k →
    ∃ (j : Nat) (task : Task V I), s.tasks[j]? = some task ∧ k.update ∈ (s.view task).askedFor
  terminators : ∀ n k, s.manager.terminators n = some k →
    ∃ (j : Nat) (task : Task V I), s.tasks[j]? = some task ∧ Performs (s.view task) (.terminate k.result)

theorem Requested.step (h : Requested s) (hm : Move loaded s l s') (hl : Orderly s l) :
    Requested s' := by
  have asked : ∀ {u : OperationUpdate}, (∃ (j : Nat) (task : Task V I), s.tasks[j]? = some task ∧
      u ∈ (s.view task).askedFor) → ∃ (j : Nat) (task : Task V I), s'.tasks[j]? = some task ∧
      u ∈ (s'.view task).askedFor := by
    rintro u ⟨j, task, hj, hu⟩
    obtain ⟨task', hj', hsub, -⟩ := hm.asks_more hj
    exact ⟨j, task', hj', hsub hu⟩
  have performed : ∀ {e : Effect V}, (∃ (j : Nat) (task : Task V I), s.tasks[j]? = some task ∧
      Performs (s.view task) e) → ∃ (j : Nat) (task : Task V I), s'.tasks[j]? = some task ∧
      Performs (s'.view task) e := by
    rintro e ⟨j, task, hj, he⟩
    obtain ⟨task', hj', -, hperforms⟩ := hm.asks_more hj
    exact ⟨j, task', hj', hperforms e he⟩
  obtain hsame | ⟨m, hmove, hcases⟩ := hm.manager_cases
  · constructor
    · intro c k hk
      rw [hsame] at hk
      exact asked (h.callers c k hk)
    · intro n k hk
      rw [hsame] at hk
      exact performed (h.terminators n k hk)
  have hmanager := CheckpointManager.move_of_step hmove
  have requested : (∃ n e, Call.requestLabel n e = some m ∧ ∃ (j : Nat) (task : Task V I),
      s.tasks[j]? = some task ∧ (s.view task).program.next = some e) ∨
      isCall m = false ∧ ∀ n result, m ≠ .terminate n result := by
    obtain ⟨hcall, rfl | ⟨hashedId, rfl⟩⟩ | ⟨t, n, task, e, k, -, htask, hprogram, hrequest⟩ := hcases
    · exact Or.inr ⟨hcall, (hl m rfl).2.2⟩
    · exact Or.inr ⟨rfl, by rintro _ _ ⟨⟩⟩
    · refine Or.inl ⟨n, e, hrequest, t, task, htask, ?_⟩
      simp [State.view, State.around, hprogram, Prog.next]
  constructor
  · intro c k hk
    obtain ⟨j, hj, -, hqueued, -⟩ | ⟨-, kind, stepId, u, rfl, rfl⟩ := hmanager.callers_cases hk
    · rw [CheckpointManager.Caller.update_eq_of_queued hqueued]
      exact asked (h.callers c j hj)
    · obtain ⟨n, e, hrequest, t, task, htask, hnext⟩ | ⟨hcall, -⟩ := requested
      · apply asked
        refine ⟨t, task, htask, List.mem_append_right _ ?_⟩
        rw [hnext]
        cases e <;> first | (cases hrequest; exact List.mem_singleton.mpr rfl) | cases hrequest
      · cases hcall
  · intro n k hk
    obtain ⟨j, hj, hresult⟩ | rfl := hmanager.terminators_cases hk
    · rw [← hresult]
      exact performed (h.terminators n j hj)
    · obtain ⟨n', e, hrequest, t, task, htask, hnext⟩ | ⟨-, hnone⟩ := requested
      · apply performed
        refine ⟨t, task, htask, Or.inl ?_⟩
        rw [hnext]
        cases e <;> first | (cases hrequest; rfl) | cases hrequest
      · exact absurd rfl (hnone n k.result)

theorem requested (h : (machine token loaded root).ReachableBy Orderly s) : Requested s := by
  refine h.invariant ?_ fun s l s' _ hs hl hstep => hs.step (move_of_step hstep) hl
  rintro _ ⟨-, mode, rfl⟩
  constructor
  · rintro _ _ ⟨⟩
  · rintro _ _ ⟨⟩

/-! ## Who sends updates of an operation -/

/-- No other task sends an update of the operation. -/
def State.OnlyBy (s : State V I) (j : Nat) (id : String) : Prop :=
  ∀ i other, s.tasks[i]? = some other → i ≠ j → ∀ u ∈ (s.view other).askedFor, u.id ≠ id

theorem State.OnlyBy.before (hm : Move loaded s l s') (h : s'.OnlyBy j id) : s.OnlyBy j id := by
  intro i other hi hij u hu
  obtain ⟨other', hi', hsub, -⟩ := hm.asks_more hi
  exact h i other' hi' hij u (hsub hu)

theorem undisturbed_of_seen {p : Act V (DurableResult (Output V))} {cl : Call.Label V}
    (hl : Orderly s l) (honly : s.OnlyBy j id) (hseen : Seen s j l cl) :
    Undisturbed id (s.look j p) cl := by
  have hmanager := (look_fields s j p).1
  cases hseen with
  | @manager m hcall =>
    rintro _ ⟨⟩
    rw [hmanager]
    refine ⟨(hl m rfl).1, ?_⟩
    rintro c kind stepId u rfl
    cases hcall
  | markAwaited hashedId _ =>
    rintro _ ⟨⟩
    exact ⟨rfl, by rintro _ _ _ _ ⟨⟩⟩
  | @others t n task e k m hne htask hprogram hrequest =>
    rintro _ ⟨⟩
    obtain ⟨kind, stepId, u, hcall, rfl⟩ | ⟨-, ⟨_, rfl⟩ | ⟨_, _, rfl⟩⟩ :=
      Call.State.requestLabel_cases hrequest
    · refine ⟨rfl, ?_⟩
      rintro _ _ _ _ ⟨⟩
      refine honly t task htask hne u (List.mem_append_right _ ?_)
      simp [State.view, State.around, hprogram, Prog.next, Call.State.updates_of_call hcall]
    · exact ⟨rfl, by rintro _ _ _ _ ⟨⟩⟩
    · exact ⟨rfl, by rintro _ _ _ _ ⟨⟩⟩
  | _ => rintro _ ⟨⟩

theorem view_undisturbed (h : (machine token loaded root).ReachableBy Orderly s)
    (htask : s.tasks[j]? = some task) (honly : s.OnlyBy j id) :
    (Call.machine token loaded task.start).ReachableBy (Undisturbed id) (s.view task) :=
  view_reachableBy_of_kept (fun _ _ _ => State.OnlyBy.before)
    (fun _ _ _ hl honly _ hseen => undisturbed_of_seen hl honly hseen) h honly htask

/-- The operation is the task's own, and what is known of it is of the given type. -/
structure State.Owns (s : State V I) (loaded : Table) (j : Nat) (type : OperationType) (id : String) :
    Prop where
  only : s.OnlyBy j id
  types : ∀ task, s.tasks[j]? = some task → (s.view task).Types loaded type id

/-- Behind a confirmed suspension a task waits for an operation whose record is due. -/
theorem awakens (h : (machine token loaded root).ReachableBy Orderly s) {result : TerminationResult}
    (hsuspension : result.reason.isSuspension = true) (hconfirmed : Confirmed s.manager result)
    (howns : ∀ (j : Nat) (task : Task V I) type id, s.tasks[j]? = some task →
      (s.view task).Waits type id → s.Owns loaded j type id) :
    ∃ (j : Nat) (task : Task V I) (type : OperationType) (id : String),
      s.tasks[j]? = some task ∧ (s.view task).Waits type id ∧
      Awaken loaded (acceptedUpdates s.manager.log) s.backend id := by
  have hrequested := requested h
  obtain ⟨n, k, hk, rfl⟩ | ⟨u, ⟨c, k, hk, rfl, -⟩, haction, hdelivered⟩ := hconfirmed
  · obtain ⟨j, task, hj, hasked⟩ := hrequested.terminators n k hk
    have hanchored := isAnchored h hj
    obtain ⟨type, id, -, htype, hlook, -⟩ := hanchored.rests hasked hsuspension
    have hwaits : (s.view task).Waits type id := .asked hasked htype hlook
    obtain ⟨honly, htypes⟩ := howns j task type id hj hwaits
    have hview := view_undisturbed h hj honly
    refine ⟨j, task, type, id, hj, hwaits, ?_⟩
    exact Call.awaken_of_asked hanchored hasked hsuspension htype hlook (htypes task hj)
      (kept_of_reachableBy (fun _ _ hl => hl) hview)
      (noted_of_reachableBy (fun _ _ hl _ _ _ _ heq => (hl _ heq).2 _ _ _ _ rfl) hview)
  · obtain ⟨j, task, hj, hu⟩ := hrequested.callers c k hk
    have hwaits : (s.view task).Waits .step k.update.id := .retried hu haction rfl rfl
    obtain ⟨honly, htypes⟩ := howns j task _ _ hj hwaits
    have hview := view_undisturbed h hj honly
    refine ⟨j, task, .step, k.update.id, hj, hwaits, ?_⟩
    exact Call.awaken_of_accepted (isAnchored h hj) (htypes task hj)
      (noted_of_reachableBy (fun _ _ hl _ _ _ _ heq => (hl _ heq).2 _ _ _ _ rfl) hview) hu haction rfl
      hdelivered

end Tasks

end LambdaDurable
