import LambdaDurable.Checkpoint.Standing
import LambdaDurable.Context.Ledger
import LambdaDurable.Context.Pending

/-!
# One call over all invocations of an execution

An invocation can be cut off at any moment. The next one runs the same code on the table
that the service has by then. Service calls may fail; no other task sends an update of the
call's own operation.
-/

namespace LambdaDurable

open Effects Backend

variable {V α : Type}

namespace CheckpointManager

/-- The updates the service has acknowledged, oldest first. -/
def acceptedUpdates : List ServiceEvent → List OperationUpdate
  | [] => []
  | .accepted _ _ _ updates _ :: log => acceptedUpdates log ++ updates
  | _ :: log => acceptedUpdates log

theorem Move.acceptedUpdates {s s' : State} {l : Label} (h : Move s l s') :
    CheckpointManager.acceptedUpdates s'.log =
      CheckpointManager.acceptedUpdates s.log ++ Call.acknowledged s l := by
  have same : CheckpointManager.acceptedUpdates s'.log = CheckpointManager.acceptedUpdates s.log →
      Call.acknowledged s l = [] → CheckpointManager.acceptedUpdates s'.log =
        CheckpointManager.acceptedUpdates s.log ++ Call.acknowledged s l := by
    intro hlog hnone
    rw [hlog, hnone, List.append_nil]
  cases h with
  | @accept o batch token' updates response hcall =>
    rw [State.setCall_log]
    simp only [CheckpointManager.acceptedUpdates, Call.acknowledged, hcall]
  | @readToken o _ _ | @reject o _ _ _ _ _ | @send o _ _ _ _ _ | @fail o _ _ _ _ _
  | @writeToken o _ _ _ | @merge o _ _ _ =>
    apply same
    · cases o <;> rfl
    · rfl
  | _ => exact same rfl rfl

end CheckpointManager

open CheckpointManager

namespace Call

/-- The updates sent, and the one being sent. -/
def State.askedFor (s : State V α) : List OperationUpdate :=
  sent s.trace ++ (s.program.next.map (·.updates)).getD []

/-- The acknowledged updates of an operation. -/
def State.acks (id : String) (s : State V α) : List OperationUpdate :=
  naming id (acceptedUpdates s.manager.log)

/-- The books on one operation in a run in which service calls may fail. -/
structure State.Noted (loaded : Table) (id : String) (s : State V α) : Prop where
  books : s.Books (CheckpointManager.State.Flow List.Sublist) id
  record : Follows (loaded id) (s.acks id) (s.backend id)
  merges : Merges (naming id (s.accepted.map (·.update))) (s.acks id)

/-- No other task sends an update of the operation. -/
def Alone (id : String) (_ : State V α) (l : Label V) : Prop :=
  ∀ c kind stepId u, l = .manager (.call c kind stepId u) → u.id ≠ id

variable {token : String} {loaded : Table} {program : Act V α} {id : String} {s : State V α}
  {allow : State V α → Label V → Prop}

theorem manager_reachable_any (h : (machine token loaded program).ReachableBy allow s) :
    (CheckpointManager.machine token loaded).Reachable s.manager := by
  refine h.invariant (I := fun s => (CheckpointManager.machine token loaded).Reachable s.manager)
    ?_ ?_
  · rintro _ ⟨mode, rfl⟩
    exact .init rfl
  · intro s l s' _ hs _ hstep
    cases move_of_step hstep with
    | manager hm => exact hs.step trivial hm
    | setMode | service _ | resume _ _ _ => exact hs
    | request _ _ _ hm => exact hs.step trivial hm
    | @perform _ e _ _ _ _ _ =>
      cases e with
      | markAwaited hashedId => exact hs.step (l := .markAwaited hashedId) trivial rfl
      | _ => exact hs

theorem acknowledged_of_requestLabel {n : Nat} {e : Effect V} {l : CheckpointManager.Label}
    {m : CheckpointManager.State} (h : requestLabel n e = some l) : acknowledged m l = [] := by
  rcases State.requestLabel_cases h with ⟨_, _, _, -, rfl⟩ | ⟨-, ⟨_, rfl⟩ | ⟨_, _, rfl⟩⟩ <;> rfl

theorem noted_new (token : String) (loaded : Table) (id : String) (mode : ExecutionMode)
    (program : Act V α) : (State.new token loaded mode program).Noted loaded id where
  books := {
    stream := ⟨[], [], flow_new token loaded, rfl, rfl⟩
    mine := fun _ _ hk => by cases hk
    ticket := fun _ _ _ _ hawaits => absurd hawaits (State.not_awaits_of_ticket rfl _ _ _ _) }
  record := .refl
  merges := .nil

theorem State.Noted.manage (h : s.Noted loaded id)
    (hmanager : (CheckpointManager.machine token loaded).Reachable s.manager)
    {l : CheckpointManager.Label} {m : CheckpointManager.State}
    (hother : ∀ c kind stepId u, l = .call c kind stepId u → u.id ≠ id)
    (hm : CheckpointManager.Move s.manager l m) : (s.manage l m).Noted loaded id := by
  have hbooks := h.books.manage (fun _ hflow => hflow.of_reachable hmanager hm) hother hm
  have hacks : (s.manage l m).acks id = s.acks id ++ naming id (acknowledged s.manager l) := by
    unfold State.acks
    rw [← naming_append]
    exact congrArg (naming id) hm.acceptedUpdates
  rcases hm.acceptedEntries with ⟨hsame, hl⟩ | ⟨o, batch, token', updates, response, rfl, hcall, haccepted⟩
  · have hnone : acknowledged s.manager l = [] := by
      unfold acknowledged
      split
      · exact absurd rfl (hl _ _)
      · rfl
    rw [hnone, show naming id [] = [] from rfl, List.append_nil] at hacks
    refine ⟨hbooks, ?_, ?_⟩
    · rw [hacks, State.manage, hnone]
      exact h.record
    · rw [hacks, State.manage, State.accepted, hsame]
      exact h.merges
  · have hcoalesced := coalesced_of_inFlight hmanager hcall
    have hacknowledged : acknowledged s.manager (.respond o (.ok response)) = updates := by
      simp only [acknowledged, hcall]
    rw [hacknowledged] at hacks
    refine ⟨hbooks, ?_, ?_⟩
    · rw [hacks, State.manage, hacknowledged]
      exact h.record.applyAll hcoalesced
    · rw [hacks, State.manage, State.accepted, haccepted, List.map_append, naming_append]
      exact h.merges.coalesced hcoalesced

theorem noted_of_reachableBy (hallow : ∀ s l, allow s l → Alone id s l)
    (h : (machine token loaded program).ReachableBy allow s) : s.Noted loaded id := by
  refine h.invariant (I := fun s => s.Noted loaded id) ?_ ?_
  · rintro _ ⟨mode, rfl⟩
    exact noted_new ..
  · intro s l s' hr hs hl hstep
    have hmanager := manager_reachable_any hr
    cases move_of_step hstep with
    | manager hm =>
      exact hs.manage hmanager (fun c kind stepId u heq => hallow _ _ hl c kind stepId u (by rw [heq]))
        (CheckpointManager.move_of_step hm)
    | setMode => exact ⟨⟨hs.books.stream, hs.books.mine, hs.books.ticket⟩, hs.record, hs.merges⟩
    | service hb =>
      exact ⟨⟨hs.books.stream, hs.books.mine, hs.books.ticket⟩, hs.record.advance hb, hs.merges⟩
    | @perform _ e k a hticket hprogram ha =>
      have hbooks := hs.books.perform (k := k) (a := a) hticket
        (State.call_eq_none_of_instant ha)
        fun l m pushed hm _ hflow => hflow.of_reachable hmanager hm
      have hlog : ((s.touch e).answer e a k).manager.log = s.manager.log := State.touch_log s e
      refine ⟨hbooks, ?_, ?_⟩
      · unfold State.acks
        rw [hlog, State.answer_backend, State.touch_backend]
        exact hs.record
      · unfold State.acks State.accepted
        rw [hlog]
        exact hs.merges
    | request hticket hprogram hrequest hm =>
      have hmove := CheckpointManager.move_of_step hm
      have hbooks := hs.books.request hticket hprogram hrequest hmove
        fun _ hflow => hflow.of_reachable hmanager hmove
      obtain ⟨-, -, hentries⟩ := State.quiet_of_requestLabel hrequest hmove
      have hupdates := hmove.acceptedUpdates
      rw [acknowledged_of_requestLabel hrequest, List.append_nil] at hupdates
      refine ⟨hbooks, ?_, ?_⟩
      · unfold State.acks
        rw [hupdates]
        exact hs.record
      · unfold State.acks State.accepted
        rw [hupdates, hentries]
        exact hs.merges
    | resume hticket hprogram ha =>
      exact ⟨hs.books.resume hticket hprogram ha, hs.record, hs.merges⟩

/-- What the service has accepted of an operation, the call has asked for. -/
theorem State.Noted.sublist (h : s.Noted loaded id) :
    (naming id (s.accepted.map (·.update))).Sublist (naming id s.askedFor) := by
  obtain ⟨pushed, returned, hflow, hpushed, hreturned⟩ := h.books.stream
  obtain ⟨w, -, horder⟩ := hflow.order
  have haccepted : s.accepted.Sublist pushed :=
    ((List.sublist_append_left _ _).trans (List.sublist_append_left _ _)).trans horder
  have hmine := (haccepted.filter (names id)).map (·.update)
  have hall : naming id (s.accepted.map (·.update)) =
      (s.accepted.filter (names id)).map (·.update) := List.filter_map ..
  rw [hpushed, List.map_append, hreturned, ← hall] at hmine
  refine hmine.trans ?_
  rw [askedFor, naming_append]
  refine (List.Sublist.refl _).append ?_
  unfold inflight
  split
  · rename_i n e k hticket hprogram
    rw [hprogram]
    split
    · rename_i hcall
      obtain ⟨⟨kind, stepId, u⟩, hu⟩ := Option.isSome_iff_exists.mp hcall
      obtain ⟨phase, hn⟩ := h.books.ticket n kind stepId u ⟨hticket, e, k, hprogram, hu⟩
      have hnext : (e.updates : List OperationUpdate) = [u] := updates_of_call hu
      simp only [hn, Prog.next, Option.map_some, Option.getD_some, hnext]
      by_cases hp : phase.hasPushed = true <;> by_cases hid : u.id = id <;>
        simp [Option.filter, hp, names, Caller.queued, naming, hid]
    · exact List.nil_sublist _
  · exact List.nil_sublist _

/-! ## Sessions -/

/-- Before each update of the operation only STARTs have been sent, and the update is one
itself, or as `closes` says. -/
def OpensThen (id : String) (closes : List (Event V) → OperationUpdate → Prop)
    (trace : List (Event V)) (e : Effect V) : Prop :=
  ∀ u ∈ e.updates, u.id = id →
    (∀ v ∈ naming id (sent trace), Opening v) ∧ (Opening u ∨ closes trace u)

variable {closes : List (Event V) → OperationUpdate → Prop} {trace : List (Event V)}

theorem opened_of_permitted (h : Permitted (OpensThen id closes) trace) :
    ∃ closing, Session (naming id (sent trace)) closing ∧
      ∀ u ∈ closing, ∃ earlier, earlier <:+ trace.tail ∧ closes earlier u := by
  induction trace with
  | nil => exact ⟨none, session_nil, fun _ hu => by cases hu⟩
  | cons event trace ih =>
    obtain ⟨hevent, hbefore⟩ := h
    obtain ⟨closing, hsession, hclosing⟩ := ih hbefore
    have hlater : ∀ u ∈ closing, ∃ earlier, earlier <:+ trace ∧ closes earlier u := by
      intro u hu
      obtain ⟨earlier, hsuffix, hcloses⟩ := hclosing u hu
      exact ⟨earlier, hsuffix.trans (List.tail_suffix _), hcloses⟩
    rw [sent, naming_append]
    cases hupdates : naming id event.1.updates with
    | nil => exact ⟨closing, (List.append_nil _).symm ▸ hsession, hlater⟩
    | cons u rest =>
      obtain ⟨hu, hid⟩ := List.mem_filter.mp (hupdates ▸ List.mem_cons_self : u ∈ naming id _)
      obtain ⟨hopened, hnext⟩ := hevent u hu (by simpa using hid)
      obtain rfl : rest = [] := by
        have hlength := congrArg List.length hupdates
        have hle : (naming id event.1.updates).length ≤ event.1.updates.length :=
          List.length_filter_le _ _
        have hone : event.1.updates.length ≤ 1 := by
          unfold Effect.updates
          cases event.1.call <;> simp
        exact List.length_eq_zero_iff.mp (by simp at hlength; omega)
      obtain hopening | hcloses := hnext
      · refine ⟨none, ⟨naming id (sent trace) ++ [u], (List.append_nil _).symm, fun v hv => ?_⟩,
          fun _ hu => by cases hu⟩
        obtain hv | hv := List.mem_append.mp hv
        · exact hopened v hv
        · rwa [List.mem_singleton.mp hv]
      · refine ⟨some u, ⟨naming id (sent trace), rfl, hopened⟩, ?_⟩
        rintro _ ⟨⟩
        exact ⟨trace, List.suffix_refl _, hcloses⟩

/-- What the service has acknowledged is a session too. -/
theorem State.Noted.session (hnoted : s.Noted loaded id)
    (h : Permitted (OpensThen id closes) s.trace)
    (hnext : ∀ e k, s.program = .act e k → OpensThen id closes s.trace e) :
    ∃ closing, Session (s.acks id) closing ∧
      ∀ v ∈ closing, ∃ u earlier, earlier <:+ s.trace ∧ closes earlier u ∧ kept v = kept u := by
  have hrequested : ∃ closing, Session (naming id s.askedFor) closing ∧
      ∀ u ∈ closing, ∃ earlier, earlier <:+ s.trace ∧ closes earlier u := by
    have hsent : ∃ closing, Session (naming id (sent s.trace)) closing ∧
        ∀ u ∈ closing, ∃ earlier, earlier <:+ s.trace ∧ closes earlier u := by
      obtain ⟨closing, hsession, hclosing⟩ := opened_of_permitted h
      refine ⟨closing, hsession, fun u hu => ?_⟩
      obtain ⟨earlier, hsuffix, hcloses⟩ := hclosing u hu
      exact ⟨earlier, hsuffix.trans (List.tail_suffix _), hcloses⟩
    unfold State.askedFor
    cases hprogram : s.program with
    | ret a =>
      simp only [Prog.next, Option.map_none, Option.getD_none, List.append_nil]
      exact hsent
    | act e k =>
      simp only [Prog.next, Option.map_some, Option.getD_some]
      cases hcall : e.call with
      | none =>
        have hnone : e.updates = [] := by simp [Effect.updates, hcall]
        rw [hnone, List.append_nil]
        exact hsent
      | some c =>
        obtain ⟨a⟩ : Nonempty (Answer e) := by
          cases e with
          | checkpoint _ _ | checkpointQueued _ _ => exact ⟨.ok ()⟩
          | _ => cases hcall
        have hextended : Permitted (OpensThen id closes) (⟨e, a⟩ :: s.trace) := ⟨hnext e k hprogram, h⟩
        exact opened_of_permitted hextended
  obtain ⟨closing, hsession, hclosing⟩ := hrequested
  obtain ⟨closing', hsession', hsame⟩ := hsession.sublist hnoted.sublist
  obtain ⟨acked, hacked, hkept⟩ := hsession'.merges hnoted.merges
  refine ⟨acked, hacked, ?_⟩
  rintro v ⟨⟩
  obtain rfl | rfl := hsame
  · cases hkept
  · obtain ⟨u, hu, huv⟩ := Option.map_eq_some_iff.mp hkept.symm
    obtain ⟨earlier, hsuffix, hcloses⟩ := hclosing u hu
    exact ⟨u, earlier, hsuffix, hcloses, huv.symm⟩

/-- The updates of a step: it sends none if its record is final. -/
structure StepWise (loaded : Table) (id : String) (closes : List (Event V) → OperationUpdate → Prop)
    (trace : List (Event V)) (e : Effect V) : Prop where
  opens : OpensThen id closes trace e
  operationType : ∀ u ∈ e.updates, u.id = id → u.operationType = .step
  unfinished : ∀ u ∈ e.updates, u.id = id → loaded.terminal id = false

theorem StepWise.of_quiet {e : Effect V} (h : e.updates = []) : StepWise loaded id closes trace e where
  opens u hu := by
    rw [h] at hu
    cases hu
  operationType u hu := by
    rw [h] at hu
    cases hu
  unfinished u hu := by
    rw [h] at hu
    cases hu

theorem mem_sent {u : OperationUpdate} (h : u ∈ sent trace) : ∃ later event earlier,
    trace = later ++ event :: earlier ∧ u ∈ event.1.updates := by
  induction trace with
  | nil => cases h
  | cons event trace ih =>
    obtain h | h := List.mem_append.mp h
    · obtain ⟨later, event', earlier, rfl, hu⟩ := ih h
      exact ⟨event :: later, event', earlier, rfl, hu⟩
    · exact ⟨[], event, trace, rfl, h⟩

/-- Every update asked for was allowed at some moment. -/
theorem allowed_of_askedFor {allows : List (Event V) → Effect V → Prop}
    (h : Permitted allows s.trace) (hnext : ∀ e, s.program.next = some e → allows s.trace e)
    {u : OperationUpdate} (hu : u ∈ s.askedFor) :
    ∃ e trace, allows trace e ∧ u ∈ e.updates := by
  obtain hu | hu := List.mem_append.mp hu
  · obtain ⟨later, event, earlier, htrace, hu⟩ := mem_sent hu
    exact ⟨event.1, earlier, permitted_event (htrace ▸ h), hu⟩
  · cases hprogram : s.program.next with
    | none =>
      rw [hprogram] at hu
      cases hu
    | some e =>
      rw [hprogram] at hu
      exact ⟨e, s.trace, hnext e hprogram, hu⟩

theorem Permitted.mono {allows allows' : List (Event V) → Effect V → Prop}
    (hsub : ∀ trace e, allows trace e → allows' trace e) (h : Permitted allows trace) :
    Permitted allows' trace := by
  induction trace with
  | nil => trivial
  | cons event trace ih => exact ⟨hsub _ _ h.1, ih h.2⟩

theorem State.Noted.asked (hnoted : s.Noted loaded id) {v : OperationUpdate} (hv : v ∈ s.acks id) :
    ∃ u ∈ naming id s.askedFor, u.operationType = v.operationType := by
  obtain ⟨u, hu, htype⟩ := hnoted.merges.mem hv
  exact ⟨u, hnoted.sublist.subset hu, htype⟩

/-- What is acknowledged of a step is of its type, and its record was open. -/
theorem State.Noted.stepLike (hnoted : s.Noted loaded id)
    (h : Permitted (StepWise loaded id closes) s.trace)
    (hnext : ∀ e, s.program.next = some e → StepWise loaded id closes s.trace e)
    {v : OperationUpdate} (hv : v ∈ s.acks id) :
    v.operationType = .step ∧ loaded.terminal id = false := by
  obtain ⟨u, hu, htype⟩ := hnoted.asked hv
  obtain ⟨e, trace, he, hmem⟩ := allowed_of_askedFor h hnext (List.mem_filter.mp hu).1
  rw [← htype]
  exact ⟨he.operationType u hmem (naming_id hu), he.unfinished u hmem (naming_id hu)⟩

theorem State.Noted.standing (hnoted : s.Noted loaded id)
    (h : Permitted (StepWise loaded id closes) s.trace)
    (hnext : ∀ e, s.program.next = some e → StepWise loaded id closes s.trace e)
    (hold : OfType .step (loaded id)) :
    ∃ closing, Session (s.acks id) closing ∧ OfType .step (s.backend id) ∧
      Backend.standing (s.backend id) =
        closing.elim (Backend.standing (loaded id)) (Backend.standing (loaded id)).after ∧
      ∀ v ∈ closing, (Backend.standing (loaded id)).verdict = none ∧
        ∃ u earlier, earlier <:+ s.trace ∧ closes earlier u ∧ kept v = kept u := by
  have htypes : ∀ v ∈ s.acks id, v.operationType = .step := fun v hv =>
    (hnoted.stepLike h hnext hv).1
  obtain ⟨closing, hsession, hclosing⟩ := hnoted.session (h.mono fun _ _ he => he.opens)
    fun e k hprogram => (hnext e (by rw [hprogram]; rfl)).opens
  refine ⟨closing, hsession, hnoted.record.ofType hold rfl htypes, ?_, fun v hv => ⟨?_, hclosing v hv⟩⟩
  · rw [hnoted.record.standing hold htypes, hsession.foldl Standing.after_start]
  · obtain ⟨starts, hacks, -⟩ := hsession
    have hmem : v ∈ s.acks id := by
      rw [hacks]
      exact List.mem_append_right _ (Option.mem_toList.mpr hv)
    exact verdict_of_open (hnoted.stepLike h hnext hmem).2

/-- An invocation counts one attempt at most. -/
theorem State.Noted.attempts_le (hnoted : s.Noted loaded id)
    (h : Permitted (StepWise loaded id closes) s.trace)
    (hnext : ∀ e, s.program.next = some e → StepWise loaded id closes s.trace e)
    (hold : OfType .step (loaded id)) :
    (Backend.standing (s.backend id)).attempts ≤ (Backend.standing (loaded id)).attempts + 1 := by
  obtain ⟨closing, -, -, hstanding, -⟩ := hnoted.standing h hnext hold
  rw [hstanding]
  cases closing with
  | none => exact Nat.le_succ _
  | some v => exact Standing.after_attempts_le _ v

/-- The updates of a child context. -/
structure ContextWise (id : String) (closes : List (Event V) → OperationUpdate → Prop)
    (trace : List (Event V)) (e : Effect V) : Prop where
  opens : OpensThen id closes trace e
  operationType : ∀ u ∈ e.updates, u.id = id → u.operationType = .context

theorem ContextWise.of_quiet {e : Effect V} (h : e.updates = []) : ContextWise id closes trace e where
  opens u hu := by
    rw [h] at hu
    cases hu
  operationType u hu := by
    rw [h] at hu
    cases hu

theorem State.Noted.contextView {S : Type} {view : Option Operation → S}
    {after : S → OperationUpdate → S}
    (hafter : ∀ {r v}, v.operationType = .context → view (applied r v) = after (view r) v)
    (hadvances : ∀ {r r'}, OfType .context r → Advances r r' → view r' = view r)
    (hstart : ∀ {st u}, u.action = .start → after st u = st) (hnoted : s.Noted loaded id)
    (h : Permitted (ContextWise id closes) s.trace)
    (hnext : ∀ e, s.program.next = some e → ContextWise id closes s.trace e)
    (hold : OfType .context (loaded id)) :
    ∃ closing, Session (s.acks id) closing ∧ OfType .context (s.backend id) ∧
      view (s.backend id) = closing.elim (view (loaded id)) (after (view (loaded id))) ∧
      ∀ v ∈ closing, ∃ u earlier, earlier <:+ s.trace ∧ closes earlier u ∧ kept v = kept u := by
  have htypes : ∀ v ∈ s.acks id, v.operationType = .context := by
    intro v hv
    obtain ⟨u, hu, htype⟩ := hnoted.asked hv
    obtain ⟨e, trace, he, hmem⟩ := allowed_of_askedFor h hnext (List.mem_filter.mp hu).1
    rw [← htype]
    exact he.operationType u hmem (naming_id hu)
  obtain ⟨closing, hsession, hclosing⟩ := hnoted.session (h.mono fun _ _ he => he.opens)
    fun e k hprogram => (hnext e (by rw [hprogram]; rfl)).opens
  refine ⟨closing, hsession, hnoted.record.ofType hold rfl htypes, ?_, hclosing⟩
  rw [hnoted.record.foldl hafter hadvances rfl hold htypes, hsession.foldl hstart]

theorem State.Noted.contextStanding (hnoted : s.Noted loaded id)
    (h : Permitted (ContextWise id closes) s.trace)
    (hnext : ∀ e, s.program.next = some e → ContextWise id closes s.trace e)
    (hold : OfType .context (loaded id)) :
    ∃ closing, Session (s.acks id) closing ∧ OfType .context (s.backend id) ∧
      Backend.contextStanding (s.backend id) =
        closing.elim (Backend.contextStanding (loaded id)) (Backend.contextStanding (loaded id)).after ∧
      ∀ v ∈ closing, ∃ u earlier, earlier <:+ s.trace ∧ closes earlier u ∧ kept v = kept u :=
  hnoted.contextView contextStanding_applied contextStanding_advances ContextStanding.after_start h
    hnext hold

end Call

/-! ## What a program does in every invocation -/

/-- Effects answered by user code and by other tasks. -/
def Effect.chosen : Effect V → Bool
  | .newCounter | .fetchAdd _ | .stepFn _ _ | .submitter _ _ | .shouldRetry _ _ | .checkFn _ _
  | .waitStrategy _ _ | .contextFn _ _ | .spawn _ _ _ _ | .joinNext | .abortAll => true
  | _ => false

namespace Call

/-- The environment answers as it may, and no other task sends an update of the operation. -/
structure Plays (chooses : (e : Effect V) → Answer e → Prop) (id : String) (s : State V α)
    (l : Label V) : Prop where
  alone : Alone id s l
  answered : ∀ choose e k a, l = .perform choose → s.program = .act e k → choose e = some a →
    chooses e a

variable {chooses : (e : Effect V) → Answer e → Prop} {loaded : Table} {id : String}

theorem respects_plays (hfree : ∀ e a, e.chosen = false → chooses e a) :
    Respects (α := α) loaded (Plays chooses id) fun _ e a => Answers loaded e a ∧ chooses e a := by
  intro s l s' hl hmove e a htrace hanswers
  refine ⟨hanswers, ?_⟩
  cases hmove with
  | manager _ | setMode | service _ | request _ _ _ _ =>
    have hlength := congrArg List.length htrace
    simp [State.manage] at hlength
  | @perform choose e' _ a' _ hprogram ha =>
    rw [State.answer_trace, State.touch_trace] at htrace
    cases (List.cons.inj htrace).1
    cases hchosen : e.chosen with
    | false => exact hfree e a hchosen
    | true =>
      apply hl.answered choose e _ a rfl hprogram
      cases e with
      | newCounter | fetchAdd _ | stepFn _ _ | submitter _ _ | shouldRetry _ _ | checkFn _ _
      | waitStrategy _ _ | contextFn _ _ | spawn _ _ _ _ | joinNext | abortAll => exact ha
      | _ => cases hchosen
  | @resume _ e' _ a' _ _ ha =>
    cases (List.cons.inj htrace).1
    cases hchosen : e.chosen with
    | false => exact hfree e a hchosen
    | true =>
      cases e with
      | newCounter | fetchAdd _ | stepFn _ _ | submitter _ _ | shouldRetry _ _ | checkFn _ _
      | waitStrategy _ _ | contextFn _ _ | spawn _ _ _ _ | joinNext | abortAll => cases ha
      | _ => cases hchosen

/-- All effects of the program are allowed, and its result is as promised. -/
def Obeys (loaded : Table) (chooses : (e : Effect V) → Answer e → Prop)
    (allows : List (Event V) → Effect V → Prop) (post : List (Event V) → α → Prop) (p : Act V α)
    (trace : List (Event V)) : Prop :=
  p.Meets (traced (fun _ e a => Answers loaded e a ∧ chooses e a) allows) post trace

section

variable {T S : Type} {allows : List (Event V) → Effect V → Prop} {post : List (Event V) → α → Prop}
  {trace : List (Event V)}

theorem obeys_act {e : Effect V} {k : Answer e → Act V α} (he : allows trace e)
    (hk : ∀ a, Answers loaded e a → chooses e a →
      Obeys loaded chooses allows post (k a) (⟨e, a⟩ :: trace)) :
    Obeys loaded chooses allows post (.act e k) trace :=
  ⟨he, fun a ha => hk a ha.1 ha.2⟩

theorem obeys_suspend {result : TerminationResult} (h : allows trace (.terminate result))
    (hpending : allows (⟨.terminate result, ()⟩ :: trace) .pending) :
    Obeys loaded chooses allows post (suspend result) trace :=
  obeys_act h fun _ _ _ => obeys_act hpending fun a => a.elim

theorem obeys_checkpoint {stepId what : String} {u : OperationUpdate} (hbuild : u.Buildable)
    {f : Unit → Act V (DurableResult T)} {post : List (Event V) → DurableResult T → Prop}
    (hu : allows trace (.checkpoint stepId u))
    (hf : Obeys loaded chooses allows post (f ()) (⟨.checkpoint stepId u, .ok ()⟩ :: trace)) :
    Obeys loaded chooses allows post ((checkpoint stepId what u).andThen f) trace := by
  rw [checkpoint_of_build hbuild]
  refine obeys_act hu fun a ha _ => ?_
  obtain rfl : a = .ok () := ha
  exact hf

theorem obeys_checkpointQueued {stepId what : String} {u : OperationUpdate} (hbuild : u.Buildable)
    {f : Unit → Act V (DurableResult T)} {post : List (Event V) → DurableResult T → Prop}
    (hu : allows trace (.checkpointQueued stepId u))
    (hf : Obeys loaded chooses allows post (f ()) (⟨.checkpointQueued stepId u, .ok ()⟩ :: trace)) :
    Obeys loaded chooses allows post ((checkpointQueued stepId what u).andThen f) trace := by
  rw [checkpointQueued_of_build hbuild]
  refine obeys_act hu fun a ha _ => ?_
  obtain rfl : a = .ok () := ha
  exact hf

theorem obeys_safeSerialize {codec : Codec S} {value : Option S} {site : SerdesSite}
    {f : Option String → Act V α} (hquit : ∀ result, allows trace (.terminate result) ∧
      allows (⟨.terminate result, ()⟩ :: trace) .pending)
    (hf : ∀ payload, codec.serialize value site.context = .ok payload →
      Obeys loaded chooses allows post (f payload) trace) :
    Obeys loaded chooses allows post (safeSerialize codec value site >>= f) trace := by
  unfold safeSerialize
  split
  · exact hf _ (by assumption)
  · rw [terminateForSerdesFailure, suspend_bind]
    exact obeys_suspend (hquit _).1 (hquit _).2

theorem obeys_safeDeserialize {codec : Codec S} {data : Option String} {site : SerdesSite}
    {f : Option S → Act V α} (hquit : ∀ result, allows trace (.terminate result) ∧
      allows (⟨.terminate result, ()⟩ :: trace) .pending)
    (hf : ∀ value, codec.deserialize data site.context = .ok value →
      Obeys loaded chooses allows post (f value) trace) :
    Obeys loaded chooses allows post (safeDeserialize codec data site >>= f) trace := by
  unfold safeDeserialize
  split
  · exact hf _ (by assumption)
  · rw [terminateForSerdesFailure, suspend_bind]
    exact obeys_suspend (hquit _).1 (hquit _).2

variable {token : String} {program : Act V α} {s : State V α}

/-- In every state of every invocation, all effects so far were allowed, and so are the rest. -/
theorem obeys_of_reachable (hfree : ∀ e a, e.chosen = false → chooses e a)
    (hobeys : Obeys loaded chooses allows post program [])
    (h : (machine token loaded program).ReachableBy (Plays chooses id) s) :
    Permitted allows s.trace ∧ (∀ e, s.program.next = some e → allows s.trace e) ∧
      ∀ a, s.program = .ret a → post s.trace a := by
  have hmeets := meets_of_reachableBy (respects_plays hfree) hobeys h
  refine ⟨permitted_of_reachableBy (respects_plays hfree) hobeys h, fun e he => ?_, fun a ha => ?_⟩
  · cases hprogram : s.program with
    | ret a =>
      rw [hprogram] at he
      cases he
    | act e' k =>
      rw [hprogram] at he hmeets
      obtain rfl : e' = e := Option.some.inj he
      exact hmeets.1
  · rw [ha] at hmeets
    exact hmeets

/-- The call performs an effect, or has performed it. -/
def Performs (s : State V α) (e : Effect V) : Prop :=
  s.program.next = some e ∨ ∃ a, ⟨e, a⟩ ∈ s.trace

theorem permitted_of_performs {e : Effect V} (hpermitted : Permitted allows s.trace)
    (hnext : ∀ e, s.program.next = some e → allows s.trace e) (h : Performs s e) :
    ∃ earlier, earlier <:+ s.trace ∧ allows earlier e := by
  obtain h | ⟨a, hmem⟩ := h
  · exact ⟨s.trace, List.suffix_refl _, hnext e h⟩
  · obtain ⟨later, earlier, htrace⟩ := List.append_of_mem hmem
    refine ⟨earlier, ⟨later ++ [⟨e, a⟩], by simp [htrace]⟩, ?_⟩
    exact permitted_event (htrace ▸ hpermitted)

end

end Call

/-! ## Executions -/

namespace Execution

structure State (V α : Type) where
  /-- the table the invocation has loaded -/
  loaded : Table
  call : Call.State V α
  /-- the earlier invocations as they were when cut off, newest first -/
  past : List (Call.State V α) := []

inductive Label (V : Type)
  | call (l : Call.Label V)
  -- the end of an invocation, at any moment, and the start of the next
  | invoke (token : String) (mode : ExecutionMode)

def step (program : Act V α) (s : State V α) : Label V → Option (State V α)
  | .call l => (Call.step s.loaded s.call l).map fun call => { s with call }
  | .invoke token mode => some {
      loaded := s.call.backend
      call := .new token s.call.backend mode program
      past := s.call :: s.past }

/-- The executions of a call that starts with the given table. -/
def machine (token : String) (table : Table) (program : Act V α) :
    Transition.Machine (State V α) (Label V) where
  init s := ∃ mode, s = { loaded := table, call := .new token table mode program }
  step := step program

/-- The acknowledged updates of an operation, of the invocations that are over. -/
def settled (id : String) (past : List (Call.State V α)) : List OperationUpdate :=
  past.reverse.flatMap (Call.State.acks id)

theorem settled_cons (id : String) (call : Call.State V α) (past : List (Call.State V α)) :
    settled id (call :: past) = settled id past ++ call.acks id := by
  simp [settled]

/-- The acknowledged updates of an operation, of all invocations. -/
def State.acks (id : String) (s : State V α) : List OperationUpdate :=
  settled id s.past ++ s.call.acks id

/-- A condition on the steps of every invocation. -/
def Within (allow : Call.State V α → Call.Label V → Prop) (s : State V α) : Label V → Prop
  | .call l => allow s.call l
  | .invoke _ _ => True

variable {token : String} {table : Table} {program : Act V α} {s : State V α}
  {allow : Call.State V α → Call.Label V → Prop}

theorem call_reachable (h : (machine token table program).ReachableBy (Within allow) s) :
    ∃ token, (Call.machine token s.loaded program).ReachableBy allow s.call := by
  refine h.invariant (I := fun s => ∃ token,
    (Call.machine token s.loaded program).ReachableBy allow s.call) ?_ ?_
  · rintro _ ⟨mode, rfl⟩
    exact ⟨token, .init ⟨mode, rfl⟩⟩
  · intro s l s' _ hs hl hstep
    cases l with
    | call l =>
      obtain ⟨call, hcall, rfl⟩ := Option.map_eq_some_iff.mp hstep
      obtain ⟨token', hs⟩ := hs
      exact ⟨token', hs.step hl hcall⟩
    | invoke token' mode =>
      obtain rfl := Option.some.inj hstep
      exact ⟨token', .init ⟨mode, rfl⟩⟩

/-- A property of the loaded table that every invocation hands on. -/
theorem loaded_invariant {I : List (Call.State V α) → Table → Prop} (hinit : I [] table)
    (hnext : ∀ token loaded call past, (Call.machine token loaded program).ReachableBy allow call →
      I past loaded → I (call :: past) call.backend)
    (h : (machine token table program).ReachableBy (Within allow) s) : I s.past s.loaded := by
  refine h.invariant (I := fun s => I s.past s.loaded) ?_ ?_
  · rintro _ ⟨mode, rfl⟩
    exact hinit
  · intro s l s' hr hs _ hstep
    cases l with
    | call l =>
      obtain ⟨call, -, rfl⟩ := Option.map_eq_some_iff.mp hstep
      exact hs
    | invoke token' mode =>
      obtain rfl := Option.some.inj hstep
      obtain ⟨token'', hcall⟩ := call_reachable hr
      exact hnext _ _ _ _ hcall hs

/-- An invocation has settled the operation: the service acknowledged its SUCCEED or FAIL. -/
structure Settles (token : String) (loaded : Table) (program : Act V α)
    (allow : Call.State V α → Call.Label V → Prop) (id : String)
    (closes : List (Event V) → OperationUpdate → Prop) (c : Call.State V α) (v : OperationUpdate) :
    Prop where
  reachable : (Call.machine token loaded program).ReachableBy allow c
  unfinished : (standing (loaded id)).verdict = none
  sent : ∃ u earlier, earlier <:+ c.trace ∧ closes earlier u ∧ kept v = kept u

theorem settled_of_past {id : String} (closes : Table → List (Event V) → OperationUpdate → Prop)
    (hcall : ∀ token loaded c, (Call.machine token loaded program).ReachableBy allow c →
      c.Noted loaded id ∧ Call.Permitted (Call.StepWise loaded id (closes loaded)) c.trace ∧
        ∀ e, c.program.next = some e → Call.StepWise loaded id (closes loaded) c.trace e)
    (htable : OfType .step (table id)) (h : (machine token table program).ReachableBy (Within allow) s) :
    OfType .step (s.loaded id) ∧ ∀ c ∈ s.past, ∀ v ∈ c.acks id, ∀ status,
      verdictOf v.action = some status →
        (standing (s.loaded id)).verdict = some status ∧
        (standing (s.loaded id)).result = v.payload ∧ (standing (s.loaded id)).error = v.error ∧
        ∃ token loaded, Settles token loaded program allow id (closes loaded) c v := by
  refine loaded_invariant (I := fun past loaded => OfType .step (loaded id) ∧
    ∀ c ∈ past, ∀ v ∈ c.acks id, ∀ status, verdictOf v.action = some status →
      (standing (loaded id)).verdict = some status ∧ (standing (loaded id)).result = v.payload ∧
      (standing (loaded id)).error = v.error ∧
      ∃ token loaded, Settles token loaded program allow id (closes loaded) c v)
    ⟨htable, fun _ hc => by cases hc⟩ ?_ h
  intro token loaded call past hreach ⟨hold, hpast⟩
  obtain ⟨hnoted, hpermitted, hnext⟩ := hcall token loaded call hreach
  obtain ⟨closing, ⟨starts, hacks, hstarts⟩, htype, hstanding, hclosing⟩ :=
    hnoted.standing hpermitted hnext hold
  refine ⟨htype, fun c hc v hv status hstatus => ?_⟩
  obtain rfl | hc := List.mem_cons.mp hc
  · rw [hacks] at hv
    obtain hv | hv := List.mem_append.mp hv
    · rw [(hstarts v hv).action] at hstatus
      cases hstatus
    · obtain rfl : closing = some v := Option.mem_toList.mp hv
      obtain ⟨hopen, hsent⟩ := hclosing v rfl
      have hafter : standing (c.backend id) = (standing (loaded id)).after v := hstanding
      rw [hafter, Standing.after_final hopen hstatus]
      exact ⟨rfl, rfl, rfl, token, loaded, hreach, hopen, hsent⟩
  · obtain ⟨hverdict, hrest⟩ := hpast c hc v hv status hstatus
    obtain rfl : closing = none := by
      by_contra hsome
      obtain ⟨w, hw⟩ := Option.ne_none_iff_exists'.mp hsome
      rw [(hclosing w hw).1] at hverdict
      cases hverdict
    have hsame : standing (call.backend id) = standing (loaded id) := hstanding
    rw [hsame]
    exact ⟨hverdict, hrest⟩

/-- The attempts that the record counts are at most the invocations before. -/
theorem attempts_le_past {id : String} (closes : Table → List (Event V) → OperationUpdate → Prop)
    (hcall : ∀ token loaded c, (Call.machine token loaded program).ReachableBy allow c →
      c.Noted loaded id ∧ Call.Permitted (Call.StepWise loaded id (closes loaded)) c.trace ∧
        ∀ e, c.program.next = some e → Call.StepWise loaded id (closes loaded) c.trace e)
    (htable : table id = none) (h : (machine token table program).ReachableBy (Within allow) s) :
    OfType .step (s.loaded id) ∧ (standing (s.loaded id)).attempts ≤ s.past.length := by
  refine loaded_invariant (I := fun past loaded => OfType .step (loaded id) ∧
    (standing (loaded id)).attempts ≤ past.length) ?_ ?_ h
  · rw [htable]
    refine ⟨?_, Nat.le_refl 0⟩
    rintro _ ⟨⟩
  · intro token loaded call past hreach ⟨hold, hle⟩
    obtain ⟨hnoted, hpermitted, hnext⟩ := hcall token loaded call hreach
    obtain ⟨-, -, htype, -⟩ := hnoted.standing hpermitted hnext hold
    refine ⟨htype, ?_⟩
    calc (standing (call.backend id)).attempts
      _ ≤ (standing (loaded id)).attempts + 1 := hnoted.attempts_le hpermitted hnext hold
      _ ≤ (call :: past).length := Nat.succ_le_succ hle

end Execution

end LambdaDurable
