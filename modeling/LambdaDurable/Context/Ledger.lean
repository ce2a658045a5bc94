import LambdaDurable.Checkpoint.Record
import LambdaDurable.Checkpoint.Stream
import LambdaDurable.Context.Call

/-!
# What the service has of a call's updates

While no other task names the operation, the service has applied some of the call's own
updates of it, in the order sent; while no batch fails, all of them up to the last one at
least whose checkpoint has returned.
-/

namespace LambdaDurable

open Effects CheckpointManager

variable {V α : Type}

/-- The arguments of a `checkpoint` or `checkpoint_queued`. -/
def Effect.call : Effect V → Option (CallKind × String × OperationUpdate)
  | .checkpoint stepId u => some (.checkpoint, stepId, u)
  | .checkpointQueued stepId u => some (.checkpointQueued, stepId, u)
  | _ => none

def Effect.updates (e : Effect V) : List OperationUpdate := (e.call.map (·.2.2)).toList

/-- The updates a program has sent, oldest first. -/
def sent : List (Event V) → List OperationUpdate
  | [] => []
  | event :: trace => sent trace ++ event.1.updates

theorem sent_cons_quiet {e : Effect V} {a : Answer e} {trace : List (Event V)}
    (h : e.updates = []) : sent (⟨e, a⟩ :: trace) = sent trace := by
  rw [sent, h, List.append_nil]

namespace Call

theorem manager_reachable {token : String} {loaded : Table} {program : Act V α}
    {allow : State V α → Label V → Prop}
    (hallow : ∀ s l, allow s (.manager l) → rejects s.manager l = false) {s : State V α}
    (h : (machine token loaded program).ReachableBy allow s) :
    (CheckpointManager.machine token loaded).ReachableBy NoneRejected s.manager := by
  refine h.invariant (I := fun s =>
    (CheckpointManager.machine token loaded).ReachableBy NoneRejected s.manager) ?_ ?_
  · rintro _ ⟨mode, rfl⟩
    exact .init rfl
  · intro s l s' _ hs hl hstep
    cases move_of_step hstep with
    | manager hm => exact hs.step (hallow _ _ hl) hm
    | setMode | service _ | resume _ _ _ => exact hs
    | @request n e _ l' _ _ _ hrequest hm =>
      refine hs.step (l := l') ?_ hm
      cases e <;> first | (cases hrequest; rfl) | cases hrequest
    | @perform _ e _ _ _ _ _ =>
      cases e with
      | markAwaited hashedId => exact hs.step (l := .markAwaited hashedId) rfl rfl
      | _ => exact hs

namespace State

def names (id : String) (e : QueuedCheckpoint) : Bool := e.update.id == id

/-- The program's own checkpoint of the operation that is pushed and has not returned. -/
def inflight (id : String) (s : State V α) : List QueuedCheckpoint :=
  match s.ticket, s.program with
  | some n, .act e _ =>
    if e.call.isSome then
      (((s.manager.callers n).filter (·.phase.hasPushed)).map (·.queued n)).toList.filter (names id)
    else []
  | _, _ => []

/-- The program waits for the call with this number. -/
def AwaitsCall (s : State V α) (n : Nat) (kind : CallKind) (stepId : String) (u : OperationUpdate) :
    Prop :=
  s.ticket = some n ∧ ∃ e k, s.program = .act e k ∧ e.call = some (kind, stepId, u)

def accepted (s : State V α) : List QueuedCheckpoint := acceptedEntries s.manager.log

/-- The pushed checkpoints of an operation are the program's own. -/
structure Books (F : CheckpointManager.State → List QueuedCheckpoint → Prop) (id : String)
    (s : State V α) : Prop where
  stream : ∃ pushed returned, F s.manager pushed ∧
    pushed.filter (names id) = returned ++ s.inflight id ∧
    returned.map (·.update) = Backend.naming id (sent s.trace)
  mine : ∀ c k, s.manager.callers c = some k → k.update.id = id → k.phase.mayPush = true →
    ∃ kind stepId u, s.AwaitsCall c kind stepId u
  ticket : ∀ n kind stepId u, s.AwaitsCall n kind stepId u →
    ∃ phase, s.manager.callers n = some ⟨kind, stepId, u, phase⟩

/-- The books on one operation, and what the service has of them. -/
structure Kept (loaded : Table) (id : String) (s : State V α) : Prop
    extends s.Books CheckpointManager.State.Stream id where
  record : Backend.Evolves (loaded id) (Backend.naming id (s.accepted.map (·.update))) (s.backend id)
  delivered : ∀ later earlier stepId u r, s.trace = later ++ ⟨.checkpoint stepId u, r⟩ :: earlier →
    u.id = id → Backend.naming id (sent earlier ++ [u]) <+: Backend.naming id (s.accepted.map (·.update))

variable {loaded : Table} {id : String} {s : State V α}
  {F : CheckpointManager.State → List QueuedCheckpoint → Prop}

theorem inflight_of_awaits {n : Nat} {kind : CallKind} {stepId : String} {u : OperationUpdate}
    (h : s.AwaitsCall n kind stepId u) {k : Caller} (hk : s.manager.callers n = some k) :
    s.inflight id = if k.phase.hasPushed then [k.queued n].filter (names id) else [] := by
  obtain ⟨hticket, e, cont, hprogram, hcall⟩ := h
  unfold inflight
  simp only [hticket, hprogram, hcall, Option.isSome_some, if_true, hk]
  by_cases hp : k.phase.hasPushed = true
  · simp [hp, Option.filter]
  · simp [hp, Option.filter]

theorem inflight_of_not_awaits (h : ∀ n kind stepId u, ¬ s.AwaitsCall n kind stepId u) :
    s.inflight id = [] := by
  unfold inflight
  split
  · rename_i n e cont hticket hprogram
    cases hcall : e.call with
    | none => rfl
    | some c =>
      obtain ⟨kind, stepId, u⟩ := c
      exact absurd ⟨hticket, e, cont, hprogram, hcall⟩ (h n kind stepId u)
  · rfl

theorem not_awaits_of_ticket (h : s.ticket = none) (n : Nat) (kind : CallKind) (stepId : String)
    (u : OperationUpdate) : ¬ s.AwaitsCall n kind stepId u := by
  rintro ⟨hticket, -⟩
  rw [h] at hticket
  cases hticket

theorem names_queued (id : String) (k : Caller) (c : Nat) :
    names id (k.queued c) = (k.update.id == id) := rfl

/-- The checkpoint the program waits for joins the pushed ones when it is pushed. -/
theorem Books.inflight_manage (h : s.Books F id) {l : CheckpointManager.Label}
    {m : CheckpointManager.State} (hm : CheckpointManager.Move s.manager l m) :
    (s.manage l m).inflight id = s.inflight id ++ (pushes s.manager l).filter (names id) := by
  have hsame : ∀ n kind stepId u, (s.manage l m).AwaitsCall n kind stepId u ↔
      s.AwaitsCall n kind stepId u := fun _ _ _ _ => Iff.rfl
  have hpushes : ∀ c k, s.manager.callers c = some k → l = .push c → pushes s.manager l = [k.queued c] := by
    rintro c k hk rfl
    simp [pushes, hk]
  have hnot : ∀ c k, s.manager.callers c = some k → l = .push c →
      (∀ kind stepId u, ¬ s.AwaitsCall c kind stepId u) →
      (pushes s.manager l).filter (names id) = [] := by
    intro c k hk hl hawaits
    rw [hpushes c k hk hl]
    have hid : (k.update.id == id) = false := by
      by_contra hid
      subst hl
      cases hm with
      | @push _ j hj hp =>
        obtain rfl : k = j := Option.some.inj (hk.symm.trans hj)
        obtain ⟨kind, stepId, u, hc⟩ := h.mine c k hk (by simpa using hid) (by rw [hp]; rfl)
        exact hawaits kind stepId u hc
    simp [names_queued, hid]
  by_cases hawaits : ∃ n kind stepId u, s.AwaitsCall n kind stepId u
  · obtain ⟨n, kind, stepId, u, hn⟩ := hawaits
    obtain ⟨phase, hk⟩ := h.ticket n kind stepId u hn
    obtain ⟨k', hk', -, hqueued, hphase⟩ := hm.caller_stays hk
    have honly : ∀ c, c ≠ n → ∀ kind stepId u, ¬ s.AwaitsCall c kind stepId u := by
      intro c hc _ _ _ hawaits
      exact hc (Option.some.inj (hawaits.1.symm.trans hn.1))
    rw [inflight_of_awaits hn hk, inflight_of_awaits ((hsame ..).mpr hn) hk', hqueued]
    by_cases hl : l = .push n
    · subst hl
      cases hm with
      | @push _ j hj hp =>
        obtain rfl := Option.some.inj (hk.symm.trans hj)
        obtain rfl : phase = .tracked := hp
        obtain rfl := Option.some.inj (hk'.symm.trans (Function.update_self ..))
        simp [pushes, hk, CallerPhase.hasPushed]
    · rw [hphase.resolve_right hl]
      have hnone : (pushes s.manager l).filter (names id) = [] := by
        cases hl' : l with
        | push c =>
          cases hc : s.manager.callers c with
          | none => simp [pushes, hc]
          | some j =>
            rw [← hl']
            exact hnot c j hc hl' (honly c (by rintro rfl; exact hl hl'))
        | _ => rfl
      rw [hnone, List.append_nil]
  · have hnever : ∀ n kind stepId u, ¬ s.AwaitsCall n kind stepId u := by
      intro n kind stepId u hn
      exact hawaits ⟨n, kind, stepId, u, hn⟩
    rw [inflight_of_not_awaits hnever,
      inflight_of_not_awaits fun n kind stepId u hn => hnever n kind stepId u ((hsame ..).mp hn)]
    cases hl : l with
    | push c =>
      cases hc : s.manager.callers c with
      | none => simp [pushes, hc]
      | some j =>
        rw [← hl]
        exact (hnot c j hc hl (hnever c)).symm
    | _ => rfl

/-- A step of the manager, on behalf of anyone who does not name the operation. -/
theorem Books.manage (h : s.Books F id) {l : CheckpointManager.Label} {m : CheckpointManager.State}
    (hF : ∀ pushed, F s.manager pushed → F m (pushed ++ pushes s.manager l))
    (hother : ∀ c kind stepId u, l = .call c kind stepId u → u.id ≠ id)
    (hm : CheckpointManager.Move s.manager l m) : (s.manage l m).Books F id := by
  obtain ⟨pushed, returned, hstream, hpushed, hreturned⟩ := h.stream
  refine ⟨⟨pushed ++ pushes s.manager l, returned, hF _ hstream, ?_, hreturned⟩,
    fun c k hk hid hmay => ?_, fun n kind stepId u hawaits => ?_⟩
  · rw [List.filter_append, hpushed, h.inflight_manage hm, List.append_assoc]
  · obtain ⟨j, hj, -, hqueued, -, hbefore⟩ | ⟨-, kind, stepId, u, hcall, rfl⟩ := hm.callers_cases hk
    · exact h.mine c j hj (by rw [← Caller.update_eq_of_queued hqueued, hid]) (hbefore hmay)
    · exact absurd hid (hother c kind stepId u hcall)
  · obtain ⟨phase, hk⟩ := h.ticket n kind stepId u hawaits
    obtain ⟨k', hk', hkind, hqueued, -⟩ := hm.caller_stays hk
    exact ⟨k'.phase, hk'.trans (congrArg some (Caller.eq_of_queued hkind hqueued))⟩

theorem Kept.manage (h : s.Kept loaded id) {token : String}
    (hmanager : (CheckpointManager.machine token loaded).ReachableBy NoneRejected s.manager)
    {l : CheckpointManager.Label} {m : CheckpointManager.State} (hl : rejects s.manager l = false)
    (hother : ∀ c kind stepId u, l = .call c kind stepId u → u.id ≠ id)
    (hm : CheckpointManager.Move s.manager l m) : (s.manage l m).Kept loaded id := by
  have hbooks := h.toBooks.manage (fun _ hstream => hstream.of_reachable hmanager hl hm) hother hm
  refine ⟨hbooks, ?_, fun later earlier stepId u r htrace hid => ?_⟩
  · have hrecord := h.record
    rcases hm.acceptedEntries with ⟨hsame, hl⟩ | ⟨o, batch, token', updates, response, rfl, hcall, haccepted⟩
    · have hnone : acknowledged s.manager l = [] := by
        unfold acknowledged
        split
        · exact absurd rfl (hl _ _)
        · rfl
      simp only [State.manage, accepted, hnone, hsame]
      exact hrecord
    · have hcoalesced := coalesced_of_inFlight hmanager hcall
      have hacknowledged : acknowledged s.manager (.respond o (.ok response)) = updates := by
        simp only [acknowledged, hcall]
      simp only [State.manage, accepted, haccepted, hacknowledged, List.map_append,
        Backend.naming_append]
      exact hrecord.applyAll hcoalesced
  · refine (h.delivered later earlier stepId u r htrace hid).trans ?_
    obtain ⟨hsame, -⟩ | ⟨_, batch, _, _, _, _, _, haccepted⟩ := hm.acceptedEntries
    · simp only [State.manage, accepted, hsame]
      exact List.prefix_rfl
    · simp only [State.manage, accepted, haccepted, List.map_append, Backend.naming_append]
      exact List.prefix_append ..

theorem call_of_requestLabel {n : Nat} {e : Effect V} {kind : CallKind} {stepId : String}
    {u : OperationUpdate} (h : e.call = some (kind, stepId, u)) :
    requestLabel n e = some (.call n kind stepId u) := by
  cases e <;> first | (cases h; rfl) | cases h

theorem requestLabel_cases {n : Nat} {e : Effect V} {l : CheckpointManager.Label}
    (h : requestLabel n e = some l) :
    (∃ kind stepId u, e.call = some (kind, stepId, u) ∧ l = .call n kind stepId u) ∨
      e.call = none ∧ ((∃ m, l = .force m) ∨ ∃ m result, l = .terminate m result) := by
  cases e with
  | checkpoint stepId u => exact Or.inl ⟨_, _, _, rfl, (Option.some.inj h).symm⟩
  | checkpointQueued stepId u => exact Or.inl ⟨_, _, _, rfl, (Option.some.inj h).symm⟩
  | forceCheckpoint => exact Or.inr ⟨rfl, Or.inl ⟨n, (Option.some.inj h).symm⟩⟩
  | terminate result => exact Or.inr ⟨rfl, Or.inr ⟨n, result, (Option.some.inj h).symm⟩⟩
  | _ => cases h

theorem Books.idle (h : s.Books F id) (hticket : s.ticket = none) :
    (∀ c k, s.manager.callers c = some k → k.update.id = id → k.phase.mayPush = false) ∧
      s.inflight id = [] := by
  constructor
  · intro c k hk hid
    by_contra hmay
    obtain ⟨kind, stepId, u, hawaits⟩ := h.mine c k hk hid (by simpa using hmay)
    exact not_awaits_of_ticket hticket _ _ _ _ hawaits
  · exact inflight_of_not_awaits (not_awaits_of_ticket hticket)

/-- A call of a manager pushes nothing yet and is no answer. -/
theorem quiet_of_requestLabel {n : Nat} {e : Effect V} {l : CheckpointManager.Label}
    {m : CheckpointManager.State} (hl : requestLabel n e = some l)
    (hm : CheckpointManager.Move s.manager l m) :
    rejects s.manager l = false ∧ pushes s.manager l = [] ∧
      acceptedEntries m.log = acceptedEntries s.manager.log := by
  have hquiet : rejects s.manager l = false ∧ pushes s.manager l = [] ∧
      ∀ o response, l ≠ .respond o (.ok response) := by
    rcases requestLabel_cases hl with ⟨_, _, _, -, rfl⟩ | ⟨-, ⟨_, rfl⟩ | ⟨_, _, rfl⟩⟩ <;>
      exact ⟨rfl, rfl, nofun⟩
  refine ⟨hquiet.1, hquiet.2.1, ?_⟩
  obtain ⟨hsame, -⟩ | ⟨o, _, _, _, response, hrespond, -⟩ := hm.acceptedEntries
  · exact hsame
  · exact absurd hrespond (hquiet.2.2 o response)

theorem Books.request (h : s.Books F id) (hticket : s.ticket = none) {n : Nat} {e : Effect V}
    {k : Answer e → Act V α} (hprogram : s.program = .act e k) {l : CheckpointManager.Label}
    {m : CheckpointManager.State} (hl : requestLabel n e = some l)
    (hm : CheckpointManager.Move s.manager l m)
    (hF : ∀ pushed, F s.manager pushed → F m (pushed ++ pushes s.manager l)) :
    ({ s with manager := m, ticket := some n } : State V α).Books F id := by
  obtain ⟨pushed, returned, hstream, hpushed, hreturned⟩ := h.stream
  obtain ⟨hidle, hnone⟩ := h.idle hticket
  have hstream' := hF _ hstream
  rw [(quiet_of_requestLabel hl hm).2.1, List.append_nil] at hstream'
  have hentered : ∀ c kind stepId u,
      ({ s with manager := m, ticket := some n } : State V α).AwaitsCall c kind stepId u →
      m.callers c = some ⟨kind, stepId, u, .entered⟩ := by
    rintro c kind stepId u ⟨hc, e', k', hprogram', hcall⟩
    obtain rfl : n = c := Option.some.inj hc
    obtain ⟨rfl, -⟩ := Prog.act.inj (hprogram.symm.trans hprogram')
    obtain rfl := Option.some.inj (hl.symm.trans (call_of_requestLabel hcall))
    cases hm with
    | call _ => exact Function.update_self ..
  refine ⟨⟨pushed, returned, hstream', ?_, hreturned⟩, fun c j hj hid hmay => ?_,
    fun c kind stepId u hawaits => ?_⟩
  · have hstill : ({ s with manager := m, ticket := some n } : State V α).inflight id = [] := by
      by_cases hawaits : ∃ c kind stepId u,
          ({ s with manager := m, ticket := some n } : State V α).AwaitsCall c kind stepId u
      · obtain ⟨c, kind, stepId, u, hc⟩ := hawaits
        rw [inflight_of_awaits hc (hentered c kind stepId u hc)]
        rfl
      · refine inflight_of_not_awaits fun c kind stepId u hc => hawaits ⟨c, kind, stepId, u, hc⟩
    rw [hpushed, hnone, hstill]
  · rcases hm.callers_cases hj with ⟨j', hj', -, hqueued, -, hbefore⟩ | ⟨-, kind, stepId, u, hcall, rfl⟩
    · have hstop := hidle c j' hj' (by rw [← Caller.update_eq_of_queued hqueued, hid])
      rw [hbefore hmay] at hstop
      cases hstop
    · obtain ⟨_, _, _, he, rfl⟩ | ⟨-, ⟨_, rfl⟩ | ⟨_, _, rfl⟩⟩ := requestLabel_cases hl
      · cases hcall
        exact ⟨kind, stepId, u, rfl, e, k, hprogram, he⟩
      · cases hcall
      · cases hcall
  · exact ⟨.entered, hentered c kind stepId u hawaits⟩

theorem Kept.request (h : s.Kept loaded id) {token : String}
    (hmanager : (CheckpointManager.machine token loaded).ReachableBy NoneRejected s.manager)
    (hticket : s.ticket = none) {n : Nat} {e : Effect V} {k : Answer e → Act V α}
    (hprogram : s.program = .act e k) {l : CheckpointManager.Label} {m : CheckpointManager.State}
    (hl : requestLabel n e = some l) (hm : CheckpointManager.Move s.manager l m) :
    ({ s with manager := m, ticket := some n } : State V α).Kept loaded id := by
  obtain ⟨hrejects, -, haccepted⟩ := quiet_of_requestLabel hl hm
  have hbooks := h.toBooks.request hticket hprogram hl hm
    fun _ hstream => hstream.of_reachable hmanager hrejects hm
  refine ⟨hbooks, ?_, fun later earlier stepId u r htrace hid => ?_⟩
  · simp only [accepted, haccepted]
    exact h.record
  · simp only [accepted, haccepted]
    exact h.delivered later earlier stepId u r htrace hid

theorem updates_of_call {e : Effect V} {kind : CallKind} {stepId : String} {u : OperationUpdate}
    (h : e.call = some (kind, stepId, u)) : e.updates = [u] := by
  simp [Effect.updates, h]

/-- The newest event decides, or an older one is looked for. -/
theorem delivered_cons {trace later earlier : List (Event V)} {event : Event V} {stepId : String}
    {u : OperationUpdate} {r : Answer (.checkpoint stepId u : Effect V)}
    (h : event :: trace = later ++ ⟨.checkpoint stepId u, r⟩ :: earlier) :
    (event = ⟨.checkpoint stepId u, r⟩ ∧ trace = earlier) ∨
      ∃ later', trace = later' ++ ⟨.checkpoint stepId u, r⟩ :: earlier := by
  cases later with
  | nil => exact Or.inl (List.cons.inj h)
  | cons _ later => exact Or.inr ⟨later, (List.cons.inj h).2⟩

theorem touch_markAwaited (s : State V α) (hashedId : String) :
    s.manage (.markAwaited hashedId) { s.manager with
      operations := CheckpointManager.markAwaited s.manager.operations hashedId } =
      s.touch (.markAwaited hashedId) := rfl

theorem Books.perform (h : s.Books F id) (hticket : s.ticket = none) {e : Effect V}
    {k : Answer e → Act V α} {a : Answer e} (hcall : e.call = none)
    (hF : ∀ l m pushed, CheckpointManager.Move s.manager l m → rejects s.manager l = false →
      F s.manager pushed → F m (pushed ++ pushes s.manager l)) :
    ((s.touch e).answer e a k).Books F id := by
  have hupdates : e.updates = [] := by simp [Effect.updates, hcall]
  have hbooks : (s.touch e).Books F id := by
    cases e with
    | markAwaited hashedId =>
      have hm : CheckpointManager.Move s.manager (.markAwaited hashedId) _ := .markAwaited
      have hother : ∀ c kind stepId u, CheckpointManager.Label.markAwaited hashedId =
          .call c kind stepId u → u.id ≠ id := by
        intro c kind stepId u hcall
        cases hcall
      rw [← touch_markAwaited]
      exact h.manage (fun pushed hpushed => hF _ _ pushed hm rfl hpushed) hother hm
    | setMode mode => exact ⟨h.stream, h.mine, h.ticket⟩
    | _ => exact h
  have hticket' : (s.touch e).ticket = none := by cases e <;> exact hticket
  obtain ⟨pushed, returned, hstream, hpushed, hreturned⟩ := hbooks.stream
  obtain ⟨hidle, hnone⟩ := hbooks.idle hticket'
  have hfree : ∀ c kind stepId u, ¬ ((s.touch e).answer e a k).AwaitsCall c kind stepId u :=
    not_awaits_of_ticket rfl
  refine ⟨⟨pushed, returned, hstream, ?_, ?_⟩, fun c j hj hid hmay => ?_,
    fun n kind stepId u hn => absurd hn (hfree _ _ _ _)⟩
  · rw [hpushed, hnone, inflight_of_not_awaits hfree]
  · rw [hreturned, answer_trace, sent, hupdates, List.append_nil]
  · have hstop := hidle c j hj hid
    rw [hmay] at hstop
    cases hstop

theorem touch_log (s : State V α) (e : Effect V) : (s.touch e).manager.log = s.manager.log := by
  cases e <;> rfl

theorem Kept.perform (h : s.Kept loaded id) {token : String}
    (hmanager : (CheckpointManager.machine token loaded).ReachableBy NoneRejected s.manager)
    (hticket : s.ticket = none) {e : Effect V} {k : Answer e → Act V α} {a : Answer e}
    (hcall : e.call = none) : ((s.touch e).answer e a k).Kept loaded id := by
  have hbooks := h.toBooks.perform (k := k) (a := a) hticket hcall
    fun l m pushed hm hrejects hstream => hstream.of_reachable hmanager hrejects hm
  have haccepted : ((s.touch e).answer e a k).accepted = s.accepted :=
    congrArg acceptedEntries (touch_log s e)
  refine ⟨hbooks, ?_, fun later earlier stepId u r htrace hid => ?_⟩
  · rw [haccepted, answer_backend, touch_backend]
    exact h.record
  · rw [answer_trace, touch_trace] at htrace
    rw [haccepted]
    obtain ⟨heq, -⟩ | ⟨later', hbefore⟩ := delivered_cons htrace
    · obtain rfl : e = .checkpoint stepId u := congrArg Sigma.fst heq
      cases hcall
    · exact h.delivered later' earlier stepId u r hbefore hid

theorem call_eq_none_of_instant {mode : ExecutionMode} {choose : (e : Effect V) → Option (Answer e)}
    {e : Effect V} {a : Answer e} (h : instant loaded mode choose e = some a) : e.call = none := by
  cases e <;> first | rfl | cases h

theorem eq_nil_of_last_mem {β : Type} {xs ys init : List β} {e : β} (h : xs ++ ys = init ++ [e])
    (he : e ∈ xs) (hnodup : (xs ++ ys).Nodup) : ys = [] := by
  obtain rfl | ⟨ys, y, rfl⟩ := List.eq_nil_or_concat' ys
  · rfl
  · rw [← List.append_assoc] at h
    obtain ⟨-, hlast⟩ := List.append_inj' h rfl
    obtain rfl : y = e := by simpa using hlast
    exact absurd rfl ((List.nodup_append.mp hnodup).2.2 y he y (by simp))

/-- When a `checkpoint` returns, the service has its update and all those sent before it. -/
theorem Kept.accepted_of_returned (h : s.Kept loaded id) {token : String}
    (hmanager : (CheckpointManager.machine token loaded).ReachableBy NoneRejected s.manager)
    {n : Nat} {stepId : String} {u : OperationUpdate} (hawaits : s.AwaitsCall n .checkpoint stepId u)
    (hback : s.manager.callers n = some ⟨.checkpoint, stepId, u, .returned⟩) (hid : u.id = id) :
    Backend.naming id (sent s.trace ++ [u]) <+: Backend.naming id (s.accepted.map (·.update)) := by
  obtain ⟨pushed, returned, hstream, hpushed, hreturned⟩ := h.stream
  obtain ⟨w, -, horder⟩ := hstream.order
  have hinflight : s.inflight id = [⟨stepId, u, n⟩] := by
    rw [inflight_of_awaits hawaits hback]
    simp [CallerPhase.hasPushed, names, Caller.queued, hid]
  have hmem : (⟨stepId, u, n⟩ : QueuedCheckpoint) ∈ s.accepted := by
    obtain ⟨batch, ⟨o, token', updates, response, hlog, -⟩, he⟩ :=
      (sound_of_noneRejected hmanager).durable n _ hback rfl rfl
    exact mem_acceptedEntries hlog he
  have hnames : names id ⟨stepId, u, n⟩ = true := by simp [names, hid]
  rw [hinflight, ← horder, List.append_assoc, List.filter_append] at hpushed
  have hrest := eq_nil_of_last_mem hpushed (List.mem_filter.mpr ⟨hmem, hnames⟩) (by
    rw [← List.filter_append, ← List.append_assoc, horder]
    exact hstream.nodup.of_map _ |>.filter _)
  rw [hrest, List.append_nil] at hpushed
  have hupdates := congrArg (List.map (·.update)) hpushed
  rw [List.map_append, hreturned] at hupdates
  have hall : Backend.naming id (s.accepted.map (·.update)) =
      (s.accepted.filter (names id)).map (·.update) := List.filter_map ..
  rw [hall, accepted, hupdates, Backend.naming_append]
  simp [Backend.naming, hid]

theorem Books.returned (h : s.Books F id) {n : Nat} (hticket : s.ticket = some n) {e : Effect V}
    {k : Answer e → Act V α} (hprogram : s.program = .act e k) {a : Answer e}
    (ha : outcome s.manager n e = some a) {kind : CallKind} {stepId : String} {u : OperationUpdate}
    (hcall : e.call = some (kind, stepId, u)) :
    s.manager.callers n = some ⟨kind, stepId, u, .returned⟩ := by
  obtain ⟨phase, hn⟩ := h.ticket n kind stepId u ⟨hticket, e, k, hprogram, hcall⟩
  cases e with
  | checkpoint _ _ | checkpointQueued _ _ =>
    simp only [outcome, hn, Option.any_some, Option.ite_none_right_eq_some,
      decide_eq_true_eq] at ha
    rw [hn, ha.1]
  | _ => cases hcall

theorem Books.resume (h : s.Books F id) {n : Nat} (hticket : s.ticket = some n) {e : Effect V}
    {k : Answer e → Act V α} (hprogram : s.program = .act e k) {a : Answer e}
    (ha : outcome s.manager n e = some a) : (s.answer e a k).Books F id := by
  obtain ⟨pushed, returned, hstream, hpushed, hreturned⟩ := h.stream
  have hawaits : ∀ c kind stepId u, s.AwaitsCall c kind stepId u →
      c = n ∧ e.call = some (kind, stepId, u) := by
    rintro c kind stepId u ⟨hc, e', k', hprogram', hcall⟩
    obtain ⟨rfl, -⟩ := Prog.act.inj (hprogram.symm.trans hprogram')
    exact ⟨Option.some.inj (hc.symm.trans hticket), hcall⟩
  have hinflight : (s.inflight id).map (·.update) = Backend.naming id e.updates := by
    cases hcall : e.call with
    | none =>
      rw [inflight_of_not_awaits fun c kind stepId u hc => ?_]
      · simp [Effect.updates, hcall, Backend.naming]
      · have := (hawaits c kind stepId u hc).2
        rw [hcall] at this
        cases this
    | some c =>
      obtain ⟨kind, stepId, u⟩ := c
      rw [inflight_of_awaits ⟨hticket, e, k, hprogram, hcall⟩ (h.returned hticket hprogram ha hcall),
        updates_of_call hcall]
      by_cases hid : u.id = id <;> simp [CallerPhase.hasPushed, names, Caller.queued, Backend.naming, hid]
  have hfree : ∀ c kind stepId u, ¬ (s.answer e a k).AwaitsCall c kind stepId u :=
    not_awaits_of_ticket rfl
  refine ⟨⟨pushed, returned ++ s.inflight id, hstream, ?_, ?_⟩, fun c j hj hid hmay => ?_,
    fun n kind stepId u hn => absurd hn (hfree _ _ _ _)⟩
  · rw [hpushed, inflight_of_not_awaits hfree, List.append_nil]
  · rw [List.map_append, hreturned, hinflight, answer_trace, sent, Backend.naming_append]
  · obtain ⟨kind, stepId, u, hc⟩ := h.mine c j hj hid hmay
    obtain ⟨rfl, hcall⟩ := hawaits c kind stepId u hc
    obtain rfl := Option.some.inj (hj.symm.trans (h.returned hticket hprogram ha hcall))
    cases hmay

theorem Kept.resume (h : s.Kept loaded id) {token : String}
    (hmanager : (CheckpointManager.machine token loaded).ReachableBy NoneRejected s.manager)
    {n : Nat} (hticket : s.ticket = some n) {e : Effect V} {k : Answer e → Act V α}
    (hprogram : s.program = .act e k) {a : Answer e} (ha : outcome s.manager n e = some a) :
    (s.answer e a k).Kept loaded id := by
  have hbooks := h.toBooks.resume hticket hprogram ha
  refine ⟨hbooks, h.record, fun later earlier stepId u r htrace hid => ?_⟩
  obtain ⟨heq, rfl⟩ | ⟨later', hbefore⟩ := delivered_cons htrace
  · obtain rfl : e = .checkpoint stepId u := congrArg Sigma.fst heq
    have hback : s.manager.callers n = some ⟨.checkpoint, stepId, u, .returned⟩ :=
      h.toBooks.returned hticket hprogram ha rfl
    exact h.accepted_of_returned hmanager ⟨hticket, _, k, hprogram, rfl⟩ hback hid
  · exact h.delivered later' earlier stepId u r hbefore hid

/-- While nothing is on its way, the service has no more than what was sent. -/
theorem Kept.accepted_prefix (h : s.Kept loaded id) (hticket : s.ticket = none) :
    Backend.naming id (s.accepted.map (·.update)) <+: Backend.naming id (sent s.trace) := by
  obtain ⟨pushed, returned, hstream, hpushed, hreturned⟩ := h.stream
  obtain ⟨w, -, horder⟩ := hstream.order
  rw [(h.toBooks.idle hticket).2, List.append_nil, ← horder, List.append_assoc, List.filter_append] at hpushed
  rw [← hreturned, ← hpushed, List.map_append]
  have hall : Backend.naming id (s.accepted.map (·.update)) =
      (s.accepted.filter (names id)).map (·.update) := List.filter_map ..
  rw [hall]
  exact List.prefix_append ..

theorem kept_new (token : String) (loaded : Table) (id : String) (mode : ExecutionMode)
    (program : Act V α) : (State.new token loaded mode program).Kept loaded id where
  stream := ⟨[], [], stream_new token loaded, rfl, rfl⟩
  mine _ _ hk := by cases hk
  ticket _ _ _ _ hawaits := absurd hawaits (not_awaits_of_ticket rfl _ _ _ _)
  record := .refl
  delivered later _ _ _ _ htrace := by cases later <;> cases htrace

end State

/-- No batch fails, and no other task sends an update of the operation. -/
def Undisturbed (id : String) (s : State V α) (l : Label V) : Prop :=
  ∀ l', l = .manager l' → rejects s.manager l' = false ∧
    ∀ c kind stepId u, l' = .call c kind stepId u → u.id ≠ id

theorem kept_of_reachableBy {token : String} {loaded : Table} {program : Act V α} {id : String}
    {allow : State V α → Label V → Prop} (hallow : ∀ s l, allow s l → Undisturbed id s l)
    {s : State V α} (h : (machine token loaded program).ReachableBy allow s) : s.Kept loaded id := by
  refine h.invariant (I := fun s => s.Kept loaded id) ?_ ?_
  · rintro _ ⟨mode, rfl⟩
    exact State.kept_new ..
  · intro r l r' hr hkept hl hstep
    have hmanager := manager_reachable (fun s l hsl => (hallow s _ hsl l rfl).1) hr
    cases move_of_step hstep with
    | manager hm =>
      obtain ⟨hrejects, hother⟩ := hallow _ _ hl _ rfl
      exact hkept.manage hmanager hrejects hother (CheckpointManager.move_of_step hm)
    | setMode => exact ⟨⟨hkept.stream, hkept.mine, hkept.ticket⟩, hkept.record, hkept.delivered⟩
    | service hb =>
      exact ⟨⟨hkept.stream, hkept.mine, hkept.ticket⟩, hkept.record.advance hb, hkept.delivered⟩
    | perform hticket hprogram ha =>
      exact hkept.perform hmanager hticket (State.call_eq_none_of_instant ha)
    | request hticket hprogram hrequest hm =>
      exact hkept.request hmanager hticket hprogram hrequest (CheckpointManager.move_of_step hm)
    | resume hticket hprogram ha => exact hkept.resume hmanager hticket hprogram ha

theorem ticket_of_ret {token : String} {loaded : Table} {program : Act V α}
    {allow : State V α → Label V → Prop} {s : State V α}
    (h : (machine token loaded program).ReachableBy allow s) {a : α} (ha : s.program = .ret a) :
    s.ticket = none := by
  have hinv : s.ticket = none ∨ ∃ e k, s.program = .act e k := by
    refine h.invariant (I := fun s => s.ticket = none ∨ ∃ e k, s.program = .act e k) ?_ ?_
    · rintro _ ⟨mode, rfl⟩
      exact Or.inl rfl
    · intro s l s' _ hs _ hstep
      cases move_of_step hstep with
      | manager _ | setMode | service _ => exact hs
      | perform _ _ _ | resume _ _ _ => exact Or.inl rfl
      | request _ hprogram _ _ => exact Or.inr ⟨_, _, hprogram⟩
  obtain hnone | ⟨e, k, hprogram⟩ := hinv
  · exact hnone
  · rw [ha] at hprogram
    cases hprogram

end Call

end LambdaDurable
