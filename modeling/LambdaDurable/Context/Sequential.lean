import LambdaDurable.Context.Agreement
import LambdaDurable.Context.Leaf
import LambdaDurable.Context.Outcome

/-!
# One operation after another

A handler that opens no context and awaits each operation before it calls the next one has the
numbers of its calls from their order, so no two of them have one record. What such a call has
returned is in its record, and every record of the service was there before or is of such a call.
-/

namespace LambdaDurable

open Effects Call Backend

variable {V I T S α : Type}

/-! ## What the service has of a call -/

section

variable {loaded : Table} {id stepId : String} {s : Call.State V α}
  {closes : List (Event V) → OperationUpdate → Prop} {u : OperationUpdate}

theorem Session.closing_eq {us : List OperationUpdate} {closing : Option OperationUpdate}
    (h : Session us closing) (hu : u ∈ us) (haction : u.action ≠ .start) : closing = some u := by
  obtain ⟨starts, rfl, hstarts⟩ := h
  obtain hu | hu := List.mem_append.mp hu
  · exact absurd (hstarts u hu).action haction
  · exact Option.mem_toList.mp hu

theorem succeeded_of_verdict {r : Option Operation} (h : (standing r).verdict = some .succeeded) :
    ∃ op, r = some op ∧ op.status = .succeeded ∧ stepPayload op = (standing r).result := by
  obtain ⟨op, rfl, hop⟩ := Option.bind_eq_some_iff.mp h
  simp only [Option.ite_none_right_eq_some, Option.some.injEq] at hop
  exact ⟨op, rfl, hop.2, rfl⟩

/-- A SUCCEED that a returned checkpoint has sent has become the record. -/
theorem record_of_acknowledged {a : α} (hnoted : s.Noted loaded id) (hkept : s.Kept loaded id)
    (hpermitted : Permitted (StepWise loaded id closes) s.trace) (hret : s.program = .ret a)
    (hold : OfType .step (loaded id)) {r : Answer (.checkpoint stepId u : Effect V)}
    (hmem : ⟨.checkpoint stepId u, r⟩ ∈ s.trace) (hid : u.id = id) (haction : u.action = .succeed) :
    ∃ op, s.backend id = some op ∧ op.status = .succeeded ∧ stepPayload op = u.payload := by
  have hnot : u.action ≠ .start := by simp [haction]
  have hnext : ∀ e, s.program.next = some e → StepWise loaded id closes s.trace e := by
    rw [hret]
    rintro e ⟨⟩
  have hsublist := hnoted.sublist
  rw [State.askedFor, hret] at hsublist
  simp only [Prog.next, Option.map_none, Option.getD_none, List.append_nil] at hsublist
  obtain ⟨closing, hsession, -⟩ := opened_of_permitted (hpermitted.mono fun _ _ he => he.opens)
  obtain ⟨closing', hsession', -⟩ := hsession.sublist hsublist
  obtain rfl := Session.closing_eq hsession' (accepted_of_acknowledged hkept hmem hid) hnot
  obtain ⟨acked, hacked, hsame⟩ := hsession'.merges hnoted.merges
  obtain ⟨v, rfl, hv⟩ := Option.map_eq_some_iff.mp hsame
  have hmem : v ∈ s.acks id := by
    obtain ⟨starts, hacks, -⟩ := hacked
    rw [hacks]
    exact List.mem_append_right _ List.mem_cons_self
  have hlike := fun w hw => hnoted.stepLike hpermitted hnext (v := w) hw
  have hstanding := hnoted.record.standing hold fun w hw => (hlike w hw).1
  rw [hacked.foldl Standing.after_start] at hstanding
  have hverdict : verdictOf v.action = some .succeeded := by
    rw [show v.action = u.action from congrArg Prod.fst hv, haction]
    rfl
  have hfinal := Standing.after_final (verdict_of_open (hlike v hmem).2) hverdict
  obtain ⟨op, hop, hstatus, hpayload⟩ := succeeded_of_verdict (r := s.backend id) (by
    rw [hstanding]
    exact congrArg Standing.verdict hfinal)
  refine ⟨op, hop, hstatus, hpayload.trans ?_⟩
  rw [hstanding]
  exact (congrArg Standing.result hfinal).trans (congrArg (·.2.1) hv)

theorem nothing_of_follows {r : Option Operation} {us : List OperationUpdate}
    (h : Backend.Follows none us r) (hus : us = []) : r = none := by
  induction h with
  | refl => rfl
  | ack _ _ => simp at hus
  | event _ hadvances ih =>
    rw [ih hus] at hadvances
    cases hadvances

theorem final_of_follows {old r : Option Operation} {us : List OperationUpdate}
    (h : Backend.Follows old us r) (hold : old.any (·.status.isTerminal) = true) : r = old := by
  induction h with
  | refl => rfl
  | ack _ ih => rw [ih, applied_of_terminal _ hold]
  | event _ hadvances ih =>
    have hterm := not_terminal_of_advances hadvances
    rw [ih, hold] at hterm
    cases hterm

/-- A record that was of a step still is. -/
theorem step_of_follows {old r : Option Operation} {us : List OperationUpdate} {op : Operation}
    (h : Backend.Follows old us r) (hold : old = some op) (hop : op.operationType = .step) :
    ∃ op', r = some op' ∧ op'.operationType = .step := by
  induction h with
  | refl => exact ⟨op, hold, hop⟩
  | @ack vs r v _ ih =>
    obtain ⟨op', rfl, htype⟩ := ih
    unfold applied
    split
    · exact ⟨op', rfl, htype⟩
    · cases hrecord : record (some op') v with
      | none => unfold record at hrecord; cases hu : v.action <;> simp [hu] at hrecord
      | some op'' => exact ⟨op'', rfl, (record_operationType hrecord).trans htype⟩
  | event _ hadvances ih =>
    obtain ⟨op', rfl, htype⟩ := ih
    cases hadvances with
    | elapsed _ => exact ⟨_, rfl, htype⟩
    | completed _ hexternal _ =>
      rw [htype] at hexternal
      cases hexternal

end

/-- The codec of a call that reports its value to the record of a step. -/
def DurableCall.stepCodec : DurableCall V I → Option (Codec V)
  | .step config => some config.codec
  | .waitForCondition config => some config.codec
  | _ => none

/-- What the call encodes can be decoded. -/
def DurableCall.Faithful (call : DurableCall V I) : Prop :=
  ∀ codec ∈ call.stepCodec, codec.Undoes ∧ codec.AlwaysEncodes

section

variable {loaded : Table} {token : String} {ctx : ExecutionContext} {name : Option String} {n : Nat}
  {call : DurableCall V I} {trace : List (Event V)} {out : Output V}

theorem DurableCall.Sends.reported (h : call.Sends ctx name n trace out) :
    ∃ codec ∈ call.stepCodec, call.operationType = .step ∧ ∃ value, out = .value value ∧
      Reported codec (ctx.site (callId ctx name n) name) (callId ctx name n) trace value := by
  cases call with
  | step config => exact ⟨config.codec, rfl, rfl, h⟩
  | waitForCondition config => exact ⟨config.codec, rfl, rfl, h⟩
  | _ => exact h.elim

theorem DurableCall.Says.of_step {codec : Codec V} {record : Option Operation} {value : V}
    (hcodec : codec ∈ call.stepCodec)
    (h : Yields codec (ctx.site (callId ctx name n) name) stepPayload record value) :
    call.Says ctx name n record (.value value) := by
  cases call with
  | step config =>
    obtain rfl := Option.some.inj hcodec
    exact ⟨value, rfl, h⟩
  | waitForCondition config =>
    obtain rfl := Option.some.inj hcodec
    exact ⟨value, rfl, h⟩
  | _ => cases hcodec

theorem DurableCall.Says.unique {record : Option Operation} {out' : Output V}
    (h : call.Says ctx name n record out) (h' : call.Says ctx name n record out') : out = out' := by
  cases call with
  | step _ | waitForCondition _ | callback _ _ | invoke _ _ _ =>
    obtain ⟨value, rfl, hvalue⟩ := h
    obtain ⟨value', rfl, hvalue'⟩ := h'
    rw [hvalue.unique hvalue']
  | wait duration => exact h.1.trans h'.1.symm
  | callbackRaw _ _ =>
    obtain ⟨payload, rfl, hholds⟩ := h
    obtain ⟨payload', rfl, hholds'⟩ := h'
    rw [hholds.unique hholds']
  | _ => exact h.elim

/-- Another table in which the record is the same if it was final. -/
theorem DurableCall.Says.kept {t t' : Table} {id : String} (h : call.Says ctx name n (t id) out)
    (hkept : t.terminal id = true → t' id = t id) : call.Says ctx name n (t' id) out := by
  obtain ⟨duration, rfl, hzero⟩ | ⟨op, hop, hstatus⟩ := h.succeeded
  · exact ⟨h.1, Or.inl hzero⟩
  · rw [hkept (by simp [Table.terminal, hop, hstatus, OperationStatus.isTerminal])]
    exact h

theorem obeys_returning {chooses : (e : Effect V) → Answer e → Prop}
    {allows : List (Event V) → Effect V → Prop} {post : List (Event V) → DurableResult T → Prop}
    {f : T → S} {p : Act V (DurableResult T)} (h : Obeys loaded chooses allows post p trace) :
    Obeys loaded chooses allows (fun _ _ => True) (returning f p) trace :=
  Prog.Meets.andThen h (fun _ _ _ => trivial) fun _ _ _ => trivial

/-- Nobody else sends updates of the call, which draws `n`, and no batch fails. -/
structure Unshared (n : Nat) (id : String) (s : Call.State V α) (l : Call.Label V) : Prop where
  plays : Plays (Numbered n) id s l
  undisturbed : Undisturbed id s l

section

variable {v : Call.State V (DurableResult (Output V))}

/-- What a call that reports to the record of a step may do. -/
structure Reporting (loaded : Table) (id : String) (closes : List (Event V) → OperationUpdate → Prop)
    (trace : List (Event V)) (e : Effect V) : Prop where
  stepWise : StepWise loaded id closes trace e
  closure : e.runsClosure = true → loaded.terminal id = false

theorem reporting_of_reachable (htype : call.operationType = .step)
    (h : (Call.machine token loaded (call.run ctx name)).ReachableBy
      (Plays (Numbered n) (callId ctx name n)) v) :
    ∃ closes, Permitted (Reporting loaded (callId ctx name n) closes) v.trace ∧
      ∀ e, v.program.next = some e → Reporting loaded (callId ctx name n) closes v.trace e := by
  cases call with
  | step config =>
    obtain ⟨hpermitted, hnext, -⟩ :=
      obeys_of_reachable numbered_of_not_chosen (obeys_returning remembers_step) h
    exact ⟨_, hpermitted.mono fun _ _ he => ⟨he.stepWise, he.closure⟩,
      fun e he => ⟨(hnext e he).stepWise, (hnext e he).closure⟩⟩
  | waitForCondition config =>
    obtain ⟨hpermitted, hnext, -⟩ := obeys_of_reachable numbered_of_not_chosen
      (obeys_returning WaitCondition.threads_waitForCondition) h
    exact ⟨_, hpermitted.mono fun _ _ he => ⟨he.stepWise, he.closure⟩,
      fun e he => ⟨(hnext e he).stepWise, (hnext e he).closure⟩⟩
  | _ => cases htype

theorem stepWise_of_reachable (htype : call.operationType = .step)
    (h : (Call.machine token loaded (call.run ctx name)).ReachableBy
      (Plays (Numbered n) (callId ctx name n)) v) :
    ∃ closes, Permitted (StepWise loaded (callId ctx name n) closes) v.trace ∧
      ∀ e, v.program.next = some e → StepWise loaded (callId ctx name n) closes v.trace e := by
  obtain ⟨closes, hpermitted, hnext⟩ := reporting_of_reachable htype h
  exact ⟨closes, hpermitted.mono fun _ _ he => he.stepWise, fun e he => (hnext e he).stepWise⟩

/-- What a call has returned is in its record. -/
theorem told_of_returned (hfaithful : call.Faithful)
    (hold : call.operationType = .step → OfType .step (loaded (callId ctx name n)))
    (h : (Call.machine token loaded (call.run ctx name)).ReachableBy
      (Unshared n (callId ctx name n)) v)
    (hsettled : Settled (call.Says ctx name n (loaded (callId ctx name n)))
      (call.Sends ctx name n) v.trace (.ok out)) (hout : v.program = .ret (.ok out)) :
    call.Says ctx name n (v.backend (callId ctx name n)) out := by
  have hkept := kept_of_reachableBy (fun _ _ hl => hl.undisturbed) h
  obtain htold | hsends := hsettled.recorded out rfl
  · exact htold.kept fun hterminal => hkept.record.eq_of_terminal hterminal
  · obtain ⟨codec, hcodec, htype, value, rfl, stepId, u, r, hmem, hid, haction, hpayload⟩ :=
      hsends.reported
    have hplays := h.mono fun _ _ hl => hl.plays
    obtain ⟨closes, hpermitted, -⟩ := stepWise_of_reachable htype hplays
    have hnoted := noted_of_reachableBy (fun _ _ hl => hl.alone) hplays
    obtain ⟨op, hop, hstatus, hrecorded⟩ :=
      record_of_acknowledged hnoted hkept hpermitted hout (hold htype) hmem hid haction
    obtain ⟨hundoes, hencodes⟩ := hfaithful codec hcodec
    obtain ⟨payload, hsome⟩ := Option.isSome_iff_exists.mp (hencodes _ _ _ hpayload)
    have hdecoded := hundoes _ _ _ hpayload
    rw [hsome] at hrecorded hdecoded
    exact .of_step hcodec ⟨payload, ⟨op, hop, hstatus, hrecorded⟩, hdecoded⟩

end

end

/-! ## The numbers of the calls -/

/-- A leaf operation draws its number first, and keeps to the operation of that number. -/
def LeafEffect (ctx : ExecutionContext) (name : Option String) (trace : List (Event V))
    (e : Effect V) : Prop :=
  trace = [] ∧ e = .fetchAdd ctx.operationCounter ∨
    ∃ n, drawn trace = some n ∧ Solitary (callId ctx name n) e

def LeafResult (loaded : Table) (ctx : ExecutionContext) (name : Option String)
    (call : DurableCall V I) (trace : List (Event V)) (r : DurableResult (Output V)) : Prop :=
  ∃ n, drawn trace = some n ∧
    Settled (call.Says ctx name n (loaded (callId ctx name n))) (call.Sends ctx name n) trace r

section

variable {loaded : Table} {ctx : ExecutionContext} {name : Option String} {n : Nat}
  {call : DurableCall V I} {trace : List (Event V)}

theorem leafEffect_of_solo {post : List (Event V) → S → Prop} {p : Act V S}
    (h : Solo loaded (callId ctx name n) post p trace) (hn : drawn trace = some n) :
    p.Meets (traced (fun _ => Answers loaded) (LeafEffect ctx name))
      (fun trace a => drawn trace = some n ∧ post trace a) trace := by
  induction p generalizing trace with
  | ret a => exact ⟨hn, h⟩
  | act e k ih =>
    constructor
    · exact Or.inr ⟨n, hn, h.1⟩
    · intro a ha
      apply ih a (h.2 a ha)
      change (drawn trace).or _ = some n
      rw [hn]
      rfl

theorem leaf_meets (hleaf : call.isLeaf = true) :
    (call.run ctx name).Meets (traced (fun _ => Answers loaded) (LeafEffect ctx name))
      (LeafResult loaded ctx name call) [] := by
  obtain ⟨k, hk, hsolo⟩ := solo_leaf loaded ctx name hleaf
  rw [hk]
  constructor
  · exact Or.inl ⟨rfl, rfl⟩
  · intro n _
    exact Prog.Meets.mono (fun trace r hr => ⟨n, hr⟩) (leafEffect_of_solo (hsolo n _) rfl)

end

namespace Tasks

variable {token : String} {loaded : Table} {root : ExecutionContext} {s s' : State V I}
  {l : Label V I} {j : Nat} {task : Task V I} {name : Option String} {call : DurableCall V I}

/-- An operation is called when all those before it have returned, and no batch fails. -/
structure Sequential (s : State V I) (l : Label V I) : Prop where
  begins : ∀ c name call, l = .begin c name call →
    call.isLeaf = true ∧ ∀ task ∈ s.tasks, ∃ r, task.program = .ret r
  accepted : ∀ m, l = .manager m → CheckpointManager.rejects s.manager m = false

/-- The call number `n` draws the number `n`; the last one may be about to. -/
structure Ordered (root : ExecutionContext) (s : State V I) : Prop where
  contexts : s.contexts = [root]
  leaves : ∀ task ∈ s.tasks, task.ctx = root ∧
    ∃ name call, task.origin = .call name call ∧ call.isLeaf = true
  numbers : ∀ t < s.counters root.operationCounter, drawn (s.traceOf t) = some t
  waiting : ∀ t, s.counters root.operationCounter ≤ t → s.traceOf t = []
  begun : s.counters root.operationCounter ≤ s.tasks.length
  last : s.tasks.length ≤ s.counters root.operationCounter + 1

theorem leaf_of_reachableBy {allow : State V I → Label V I → Prop}
    (h : (machine token loaded root).ReachableBy allow s) (hj : s.tasks[j]? = some task)
    (horigin : task.origin = .call name call) (hleaf : call.isLeaf = true) :
    task.program.Meets (traced (fun _ => Answers loaded) (LeafEffect task.ctx name))
      (LeafResult loaded task.ctx name call) task.trace := by
  have hview : (Call.machine token loaded task.start).ReachableBy (fun _ _ => True) (s.view task) :=
    view_reachableBy (fun _ _ _ _ _ _ => trivial) h hj
  apply meets_of_reachableBy (respects_answers _ _) _ hview
  rw [start_of_origin h (List.mem_of_getElem? hj) horigin]
  exact leaf_meets hleaf

namespace Ordered

variable {allow : State V I → Label V I → Prop}

theorem next (h : Ordered root s) (hreach : (machine token loaded root).ReachableBy allow s)
    (hj : s.tasks[j]? = some task) {e : Effect V} (he : nextEffect task.program = some e) :
    LeafEffect root task.origin.name task.trace e := by
  obtain ⟨rfl, name, call, horigin, hleaf⟩ := h.leaves task (List.mem_of_getElem? hj)
  have hmeets := leaf_of_reachableBy hreach hj horigin hleaf
  cases hprogram : task.program with
  | ret r =>
    rw [hprogram] at he
    cases he
  | act e' k =>
    rw [hprogram] at he hmeets
    obtain rfl : e' = e := Option.some.inj he
    rw [horigin]
    exact hmeets.1

theorem result (h : Ordered root s) (hreach : (machine token loaded root).ReachableBy allow s)
    (hj : s.tasks[j]? = some task) (horigin : task.origin = .call name call)
    {r : DurableResult (Output V)} (hr : task.program = .ret r) :
    LeafResult loaded root name call task.trace r := by
  obtain ⟨rfl, name', call', horigin', hleaf⟩ := h.leaves task (List.mem_of_getElem? hj)
  obtain ⟨rfl, rfl⟩ : name' = name ∧ call' = call := by
    simpa [horigin'] using horigin
  have hmeets := leaf_of_reachableBy hreach hj horigin' hleaf
  rw [hr] at hmeets
  exact hmeets

/-- What a call has drawn is its place among the calls. -/
theorem number_eq (h : Ordered root s) (hj : s.tasks[j]? = some task) {n : Nat}
    (hn : drawn task.trace = some n) : n = j := by
  rw [← traceOf_of_mem hj] at hn
  by_cases hlt : j < s.counters root.operationCounter
  · exact (Option.some.inj ((h.numbers j hlt).symm.trans hn)).symm
  · rw [h.waiting j (by omega)] at hn
    cases hn

/-- No task but the calls of user code is started. -/
theorem started_eq_nil (h : Ordered root s) (hreach : (machine token loaded root).ReachableBy allow s)
    (hbegin : ∀ c name call, l ≠ .begin c name call) : started s l = [] := by
  apply List.eq_nil_iff_forall_not_mem.mpr
  intro new hnew
  obtain ⟨c, name, call, _, hl, -, -⟩ | ⟨t, task, e, ht, he, hspawned⟩ := mem_started hnew
  · exact hbegin c name call hl
  · obtain ⟨_, _, _, _, _, _, _, rfl, -, -⟩ := mem_spawned hspawned
    obtain ⟨-, ⟨⟩⟩ | ⟨_, -, hsolitary⟩ := h.next hreach ht he
    exact hsolitary

/-- A call sees nothing new, or draws the next number, or has drawn its own before. -/
theorem traces (h : Ordered root s) (hreach : (machine token loaded root).ReachableBy allow s)
    (hm : Move loaded s l s') (t : Nat) : s'.traceOf t = s.traceOf t ∨
      ∃ event, s'.traceOf t = event :: s.traceOf t ∧ (drawn (s.traceOf t) ≠ none ∨
        s.performed l = some (.fetchAdd root.operationCounter) ∧ ∃ choose, l = .perform t choose) := by
  obtain ⟨hsame, -⟩ | ⟨task, e, k, a, ht, hprogram, htrace, hanswered⟩ := hm.traceOf_cases t
  · exact Or.inl hsame
  · refine Or.inr ⟨⟨e, a⟩, htrace, ?_⟩
    have he : nextEffect task.program = some e := by rw [hprogram]; rfl
    rw [traceOf_of_mem ht]
    obtain ⟨-, rfl⟩ | ⟨n, hn, -⟩ := h.next hreach ht he
    · obtain ⟨-, choose, rfl⟩ := hanswered.fetchAdd
      exact Or.inr ⟨by simp [State.performed, ht, he], choose, rfl⟩
    · exact Or.inl (by simp [hn])

/-- The call that draws is the last one, and has seen nothing. -/
theorem drawing (h : Ordered root s) (hreach : (machine token loaded root).ReachableBy allow s)
    (hm : Move loaded s l s') (hdraws : s.performed l = some (.fetchAdd root.operationCounter)) :
    (∃ choose, l = .perform (s.counters root.operationCounter) choose) ∧
      s'.traceOf (s.counters root.operationCounter) =
        [⟨.fetchAdd root.operationCounter, s.counters root.operationCounter⟩] := by
  obtain ⟨t, choose, task, rfl, ht, he⟩ := performed_eq_some hdraws
  obtain ⟨hempty, -⟩ | ⟨_, -, hsolitary⟩ := h.next hreach ht he
  · have hlast : t = s.counters root.operationCounter := by
      have hlt := (List.getElem?_eq_some_iff.mp ht).1
      have hle := h.last
      by_contra hne
      have hbefore := h.numbers t (by omega)
      rw [traceOf_of_mem ht, hempty] at hbefore
      cases hbefore
    subst hlast
    obtain ⟨-, hnone⟩ | ⟨task', e, k, a, ht', hprogram, htrace, hanswered⟩ := hm.traceOf_cases _
    · rw [hnone choose rfl] at ht
      cases ht
    · obtain rfl : task' = task := Option.some.inj (ht'.symm.trans ht)
      rw [hprogram] at he
      obtain rfl : e = .fetchAdd root.operationCounter := Option.some.inj he
      obtain ⟨rfl, -⟩ := hanswered.fetchAdd
      rw [htrace, traceOf_of_mem ht, hempty]
      exact ⟨⟨choose, rfl⟩, rfl⟩
  · exact hsolitary.elim

theorem counter_cases (h : Ordered root s) (hreach : (machine token loaded root).ReachableBy allow s)
    (hm : Move loaded s l s') :
    s.performed l = some (.fetchAdd root.operationCounter) ∧
        s'.counters root.operationCounter = s.counters root.operationCounter + 1 ∨
      s.performed l ≠ some (.fetchAdd root.operationCounter) ∧
        s'.counters root.operationCounter = s.counters root.operationCounter := by
  have hcounters : s'.counters root.operationCounter =
      (s.countersAfter l).1 root.operationCounter := by
    rw [← hm.counters_eq]
  rw [hcounters, State.countersAfter]
  cases hp : s.performed l with
  | none => exact Or.inr ⟨by simp, rfl⟩
  | some e =>
    obtain ⟨t, choose, task, rfl, ht, he⟩ := performed_eq_some hp
    obtain ⟨-, rfl⟩ | ⟨n, -, hsolitary⟩ := h.next hreach ht he
    · exact Or.inl ⟨rfl, Function.update_self ..⟩
    · right
      cases e with
      | newCounter | fetchAdd _ => exact hsolitary.elim
      | _ => exact ⟨by simp, rfl⟩

/-- Nothing has been called since the last call drew its number, if all have returned. -/
theorem length_eq (h : Ordered root s) (hreach : (machine token loaded root).ReachableBy allow s)
    (hreturned : ∀ task ∈ s.tasks, ∃ r, task.program = .ret r) :
    s.tasks.length = s.counters root.operationCounter := by
  have hbegun := h.begun
  by_contra hne
  have ht := List.getElem?_eq_getElem (show s.counters root.operationCounter < s.tasks.length by omega)
  obtain ⟨r, hr⟩ := hreturned _ (List.mem_of_getElem? ht)
  obtain ⟨-, name, call, horigin, -⟩ := h.leaves _ (List.mem_of_getElem? ht)
  obtain ⟨n, hn, -⟩ := h.result hreach ht horigin hr
  have hwaiting := h.waiting _ le_rfl
  rw [traceOf_of_mem ht] at hwaiting
  rw [hwaiting] at hn
  cases hn

theorem leaves_step (h : Ordered root s) (hreach : (machine token loaded root).ReachableBy allow s)
    (hl : Sequential s l) (hm : Move loaded s l s') : ∀ task ∈ s'.tasks, task.ctx = root ∧
      ∃ name call, task.origin = .call name call ∧ call.isLeaf = true := by
  intro task' hmem
  obtain ⟨task, htask, hsame⟩ | hnew := hm.grows.mem hmem
  · rw [hsame.ctx, hsame.origin]
    exact h.leaves task htask
  · obtain ⟨c, name, call, ctx, rfl, hctx, rfl⟩ | ⟨t, task, e, ht, he, hspawned⟩ := mem_started hnew
    · rw [h.contexts] at hctx
      obtain rfl := List.mem_singleton.mp (List.mem_of_getElem? hctx)
      exact ⟨rfl, name, call, rfl, (hl.begins c name call rfl).1⟩
    · obtain ⟨_, _, _, _, _, _, _, rfl, -, -⟩ := mem_spawned hspawned
      obtain ⟨-, ⟨⟩⟩ | ⟨_, -, hsolitary⟩ := h.next hreach ht he
      exact hsolitary.elim

theorem contexts_step (h : Ordered root s) (hreach : (machine token loaded root).ReachableBy allow s)
    (hm : Move loaded s l s') : s'.contexts = [root] := by
  obtain hsame | ⟨t, task, hashedId, counter, ht, he, -⟩ := hm.contexts_cases
  · exact hsame.trans h.contexts
  · obtain ⟨-, ⟨⟩⟩ | ⟨_, -, hsolitary⟩ := h.next hreach ht he
    exact hsolitary.elim

/-- A call is made once the last one has drawn its number. -/
theorem length_step (h : Ordered root s) (hreach : (machine token loaded root).ReachableBy allow s)
    (hl : Sequential s l) (hm : Move loaded s l s') :
    s'.tasks.length = s.tasks.length ∨ s'.tasks.length = s.tasks.length + 1 ∧
      s.tasks.length = s.counters root.operationCounter := by
  have hlength := hm.grows.length
  by_cases hbegin : ∃ c name call, l = .begin c name call
  · obtain ⟨c, name, call, rfl⟩ := hbegin
    have hle : (started s (.begin c name call)).length ≤ 1 := by
      rw [started]
      cases s.contexts[c]?.map fun ctx => Task.new ctx (.call name call) (call.run ctx name) <;> simp
    have hlast := h.length_eq hreach (hl.begins c name call rfl).2
    omega
  · have hnil := h.started_eq_nil (l := l) hreach fun c name call hl => hbegin ⟨c, name, call, hl⟩
    rw [hnil] at hlength
    exact Or.inl hlength

theorem step (h : Ordered root s) (hreach : (machine token loaded root).ReachableBy allow s)
    (hl : Sequential s l) (hm : Move loaded s l s') : Ordered root s' := by
  have hlength := h.length_step hreach hl hm
  have hbegun := h.begun
  have hlast := h.last
  have hkept : ∀ t < s.counters root.operationCounter, drawn (s'.traceOf t) = some t := by
    intro t ht
    obtain hsame | ⟨event, htrace, -⟩ := h.traces hreach hm t
    · rw [hsame]
      exact h.numbers t ht
    · rw [htrace, drawn, h.numbers t ht]
      rfl
  have hempty : ∀ t, s.counters root.operationCounter ≤ t → s'.traceOf t = [] ∨
      s.performed l = some (.fetchAdd root.operationCounter) ∧ ∃ choose, l = .perform t choose := by
    intro t ht
    obtain hsame | ⟨event, -, hdrawn | hdraws⟩ := h.traces hreach hm t
    · exact Or.inl (hsame.trans (h.waiting t ht))
    · rw [h.waiting t ht] at hdrawn
      exact absurd rfl hdrawn
    · exact Or.inr hdraws
  obtain ⟨hdraws, hcounter⟩ | ⟨hquiet, hcounter⟩ := h.counter_cases hreach hm
  · obtain ⟨⟨choose, rfl⟩, hdrawn⟩ := h.drawing hreach hm hdraws
    have hgrown := hm.grows.length
    rw [h.started_eq_nil hreach (by rintro _ _ _ ⟨⟩), List.length_nil] at hgrown
    obtain ⟨t, _, task, hsame, ht, -⟩ := performed_eq_some hdraws
    cases hsame
    have hlt := (List.getElem?_eq_some_iff.mp ht).1
    constructor
    · exact h.contexts_step hreach hm
    · exact h.leaves_step hreach hl hm
    · intro t ht
      obtain hlt | rfl : t < s.counters root.operationCounter ∨ t = s.counters root.operationCounter := by
        omega
      · exact hkept t hlt
      · rw [hdrawn]
        rfl
    · intro t ht
      obtain hnil | ⟨-, _, hsame⟩ := hempty t (by omega)
      · exact hnil
      · cases hsame
        omega
    · omega
    · omega
  · constructor
    · exact h.contexts_step hreach hm
    · exact h.leaves_step hreach hl hm
    · rw [hcounter]
      exact hkept
    · rw [hcounter]
      intro t ht
      exact (hempty t ht).resolve_right fun hdraws => hquiet hdraws.1
    · omega
    · omega

end Ordered

theorem ordered_of_reachableBy (h : (machine token loaded root).ReachableBy Sequential s) :
    Ordered root s := by
  refine h.invariant (I := Ordered root) ?_ fun s l s' hr hs hl hstep => hs.step hr hl (move_of_step hstep)
  rintro _ ⟨-, mode, rfl⟩
  constructor
  · rfl
  · rintro task ⟨⟩
  · rintro t ⟨⟩
  · intro t _
    rfl
  · exact le_rfl
  · exact Nat.zero_le _

/-! ## What each call sees of the others -/

/-- No call but the one at the place `j` has the hashed ID. -/
def Reserved (root : ExecutionContext) (j : Nat) (id : String) (s : State V I) : Prop :=
  ∀ t other, s.tasks[t]? = some other → t ≠ j → callId root other.origin.name t ≠ id

theorem Reserved.before {id : String} (hm : Move loaded s l s') (h : Reserved root j id s') :
    Reserved root j id s := by
  intro t other ht hne
  obtain ⟨other', ht', hsame⟩ := hm.grows.kept t other ht
  rw [← hsame.origin]
  exact h t other' ht' hne

section

variable {id : String} {cl : Call.Label V}

theorem Ordered.alone (h : Ordered root s)
    {allow : State V I → Label V I → Prop} (hreach : (machine token loaded root).ReachableBy allow s)
    (hreserved : Reserved root j id s) (hseen : Seen s j l cl)
    (v : Call.State V (DurableResult (Output V))) : Call.Alone id v cl := by
  rintro c kind stepId u rfl
  cases hseen with
  | manager hcall => cases hcall
  | @others t n task e k m hne ht hprogram hrequest =>
    have he : nextEffect task.program = some e := by rw [hprogram]; rfl
    have hsolitary : ∀ n, drawn task.trace = some n → Solitary (callId root task.origin.name n) e →
        u.id = callId root task.origin.name t := by
      intro n hn hsolitary
      rw [h.number_eq ht hn] at hsolitary
      cases e with
      | checkpoint _ _ | checkpointQueued _ _ =>
        cases hrequest
        exact hsolitary
      | _ => cases hrequest
    obtain ⟨-, rfl⟩ | ⟨n, hn, hown⟩ := h.next hreach ht he
    · cases hrequest
    · rw [hsolitary n hn hown]
      exact hreserved t task ht hne

theorem Ordered.numbered (h : Ordered root s)
    {allow : State V I → Label V I → Prop} (hreach : (machine token loaded root).ReachableBy allow s)
    (hstep : Tasks.step loaded s l = some s') (hseen : Seen s j l cl)
    {p : Act V (DurableResult (Output V))} {choose : (e : Effect V) → Option (Answer e)}
    (hcl : cl = .perform choose) {e : Effect V} {k : Answer e → Act V (DurableResult (Output V))}
    {a : Answer e} (hprogram : (s.look j p).program = .act e k) (ha : choose e = some a) :
    LambdaDurable.Numbered j e a := by
  cases e with
  | fetchAdd c =>
    cases hseen with
    | perform choose' =>
      cases hcl
      cases move_of_step hstep with
      | @perform _ _ task _ _ _ hacts =>
        have hj := hacts.mem
        rw [look_of_mem hj] at hprogram
        have hnext : nextEffect task.program = some (.fetchAdd c) := by
          rw [show task.program = .act (.fetchAdd c) k from hprogram]
          rfl
        obtain ⟨hempty, hfetch⟩ | ⟨_, -, hsolitary⟩ := h.next hreach hj hnext
        · cases hfetch
          obtain rfl : s.counters root.operationCounter = a := Option.some.inj ha
          have hlt := (List.getElem?_eq_some_iff.mp hj).1
          have hlast := h.last
          change s.counters root.operationCounter = j
          by_contra hne
          have hbefore := h.numbers j (by omega)
          rw [traceOf_of_mem hj, hempty] at hbefore
          cases hbefore
        · exact hsolitary.elim
    | _ => cases hcl <;> cases ha
  | _ => trivial

/-- What is seen from the place of a call, or of one that is not made yet. -/
theorem look_unshared (h : (machine token loaded root).ReachableBy Sequential s)
    (hreserved : Reserved root j id s)
    (hsame : ∀ task', s.tasks[j]? = some task' → task'.Same task) :
    (Call.machine token loaded task.start).ReachableBy (Unshared j id) (s.look j task.start) := by
  refine look_reachableBy (P := Reserved root j id) (fun s l s' hm => Reserved.before hm) ?_
    h.along.taken hreserved hsame
  rintro s l cl ⟨⟨hr, hl⟩, s', hstep⟩ hreserved - hseen
  have hordered := ordered_of_reachableBy hr
  constructor
  · constructor
    · exact hordered.alone hr hreserved hseen _
    · exact fun choose e k a hcl hprogram ha => hordered.numbered hr hstep hseen hcl hprogram ha
  · rintro m rfl
    constructor
    · rw [(look_fields s j task.start).1]
      cases hseen with
      | manager _ => exact hl.accepted m rfl
      | markAwaited hashedId _ => rfl
      | @others t n _ e _ _ _ _ _ hrequest =>
        cases e <;> first | (cases hrequest; rfl) | cases hrequest
    · intro c kind stepId u hm
      exact hordered.alone hr hreserved hseen (s.look j task.start) c kind stepId u (by rw [hm])

end

/-- The hashed IDs of the calls are different. -/
def Apart (root : ExecutionContext) (s : State V I) : Prop :=
  ∀ j task, s.tasks[j]? = some task → Reserved root j (callId root task.origin.name j) s

/-- The call that a record is of. -/
structure RecordOf (root : ExecutionContext) (s : State V I) (id : String) (op : Operation) (j : Nat)
    (task : Task V I) (name : Option String) (call : DurableCall V I) : Prop where
  mem : s.tasks[j]? = some task
  origin : task.origin = .call name call
  id : callId root name j = id
  operationType : call.operationType = .step → op.operationType = .step

theorem view_unshared (h : (machine token loaded root).ReachableBy Sequential s)
    (hapart : Apart root s) (hj : s.tasks[j]? = some task) (horigin : task.origin = .call name call) :
    (Call.machine token loaded (call.run root name)).ReachableBy
      (Unshared j (callId root name j)) (s.view task) := by
  obtain ⟨hctx, -⟩ := (ordered_of_reachableBy h).leaves task (List.mem_of_getElem? hj)
  have hstart := start_of_origin h (List.mem_of_getElem? hj) horigin
  have hreserved := hapart j task hj
  rw [hctx] at hstart
  rw [horigin] at hreserved
  rw [← hstart, ← look_of_mem hj]
  apply look_unshared h hreserved
  intro task' hj'
  obtain rfl := Option.some.inj (hj.symm.trans hj')
  exact .refl task

/-- A task that never takes a step. -/
def Task.idle (root : ExecutionContext) : Task V I :=
  .new root (.child 0 0) (suspend (.new .retryScheduled))

/-- Of an operation that no call has the service is told nothing. -/
theorem untold (h : (machine token loaded root).ReachableBy Sequential s) {id : String}
    (hnone : ∀ j task, s.tasks[j]? = some task → callId root task.origin.name j ≠ id) :
    Backend.Follows (loaded id) [] (s.backend id) := by
  have hreserved : Reserved root s.tasks.length id s := fun t other ht _ => hnone t other ht
  have hlook : (Call.machine token loaded (Task.idle (V := V) (I := I) root).start).ReachableBy
      (Unshared s.tasks.length id) (s.look s.tasks.length (Task.idle (V := V) (I := I) root).start) :=
    look_unshared h hreserved (by simp)
  have hnoted := noted_of_reachableBy (fun _ _ hl => hl.plays.alone) hlook
  have hrecord := hnoted.record
  have hnothing : (s.look s.tasks.length (Task.idle (V := V) (I := I) root).start).acks id = [] := by
    apply List.eq_nil_iff_forall_not_mem.mpr
    intro v hv
    obtain ⟨u, hu, -⟩ := hnoted.asked hv
    simp [State.look, State.around, State.askedFor, sent, Prog.next, Task.idle, Task.new, suspend,
      Effect.updates, Effect.call, naming] at hu
  rw [hnothing, (look_fields s _ _).2.1] at hrecord
  exact hrecord

section

variable {id : String} {op : Operation}

/-- What the service has of a call. -/
theorem told (h : (machine token loaded root).ReachableBy Sequential s) (hapart : Apart root s)
    (hj : s.tasks[j]? = some task) (horigin : task.origin = .call name call) :
    Backend.Follows (loaded (callId root name j))
      (naming (callId root name j) (CheckpointManager.acceptedUpdates s.manager.log))
      (s.backend (callId root name j)) :=
  (noted_of_reachableBy (fun _ _ hl => hl.plays.alone) (view_unshared h hapart hj horigin)).record

theorem follows_backend (h : (machine token loaded root).ReachableBy Sequential s)
    (hapart : Apart root s) (id : String) : ∃ us, Backend.Follows (loaded id) us (s.backend id) := by
  by_cases hmine : ∃ j task, s.tasks[j]? = some task ∧ callId root task.origin.name j = id
  · obtain ⟨j, task, hj, hid⟩ := hmine
    obtain ⟨-, name, call, horigin, -⟩ :=
      (ordered_of_reachableBy h).leaves task (List.mem_of_getElem? hj)
    rw [horigin] at hid
    obtain rfl : callId root name j = id := hid
    exact ⟨_, told h hapart hj horigin⟩
  · exact ⟨[], untold h fun j task hj hid => hmine ⟨j, task, hj, hid⟩⟩

/-- A record that was not loaded is of a call, and the service was told of it. -/
theorem recorded_new (h : (machine token loaded root).ReachableBy Sequential s)
    (hapart : Apart root s) (hnew : loaded id = none) (hop : s.backend id = some op) :
    (∃ u ∈ CheckpointManager.acceptedUpdates s.manager.log, u.id = id) ∧
      ∃ j task name call, RecordOf root s id op j task name call := by
  by_cases hmine : ∃ j task, s.tasks[j]? = some task ∧ callId root task.origin.name j = id
  · obtain ⟨j, task, hj, hid⟩ := hmine
    obtain ⟨-, name, call, horigin, -⟩ :=
      (ordered_of_reachableBy h).leaves task (List.mem_of_getElem? hj)
    rw [horigin] at hid
    obtain rfl : callId root name j = id := hid
    have hrecord := told h hapart hj horigin
    constructor
    · by_contra hnone
      have hnil : naming (callId root name j)
          (CheckpointManager.acceptedUpdates s.manager.log) = [] := by
        apply List.filter_eq_nil_iff.mpr
        intro u hu hid
        exact hnone ⟨u, hu, by simpa using hid⟩
      rw [hnew, hop] at hrecord
      cases nothing_of_follows hrecord hnil
    · refine ⟨j, task, name, call, hj, horigin, rfl, fun htype => ?_⟩
      have hplays := (view_unshared h hapart hj horigin).mono fun _ _ hl => hl.plays
      have hnoted := noted_of_reachableBy (fun _ _ hl => hl.alone) hplays
      obtain ⟨closes, hpermitted, hnext⟩ := stepWise_of_reachable htype hplays
      have hnone : OfType .step (loaded (callId root name j)) := by
        rw [hnew]
        rintro old ⟨⟩
      have htypes : ∀ v ∈ naming (callId root name j)
          (CheckpointManager.acceptedUpdates s.manager.log), v.operationType = .step :=
        fun v hv => (hnoted.stepLike hpermitted hnext hv).1
      exact hrecord.ofType hnone rfl htypes op hop
  · have hrecord := untold h fun j task hj hid => hmine ⟨j, task, hj, hid⟩
    rw [hnew, hop] at hrecord
    cases nothing_of_follows hrecord rfl

/-- A record of a step that was loaded is one still. -/
theorem recorded_step (h : (machine token loaded root).ReachableBy Sequential s)
    (hapart : Apart root s) {old : Operation} (hold : loaded id = some old)
    (htype : old.operationType = .step) (hop : s.backend id = some op) :
    op.operationType = .step := by
  obtain ⟨us, hfollows⟩ := follows_backend h hapart id
  obtain ⟨op', hop', htype'⟩ := step_of_follows hfollows hold htype
  obtain rfl := Option.some.inj (hop.symm.trans hop')
  exact htype'

/-- Final records stay as they are. -/
theorem recorded_final (h : (machine token loaded root).ReachableBy Sequential s)
    (hapart : Apart root s) (hterminal : loaded.terminal id = true) : s.backend id = loaded id := by
  obtain ⟨us, hfollows⟩ := follows_backend h hapart id
  exact final_of_follows hfollows hterminal

end

/-- Where the record is final no closure is run. -/
theorem closures_rest (h : (machine token loaded root).ReachableBy Sequential s)
    (hapart : Apart root s) (hj : s.tasks[j]? = some task) (horigin : task.origin = .call name call)
    (htype : call.operationType = .step) (hterminal : loaded.terminal (callId root name j) = true) :
    ∀ event ∈ task.trace, event.1.runsClosure = false := by
  intro event hmem
  have hplays := (view_unshared h hapart hj horigin).mono fun _ _ hl => hl.plays
  obtain ⟨closes, hpermitted, -⟩ := reporting_of_reachable htype hplays
  obtain ⟨later, earlier, htrace⟩ := List.append_of_mem hmem
  have hview : (s.view task).trace = later ++ event :: earlier := htrace
  rw [hview] at hpermitted
  have hallowed := permitted_event hpermitted
  by_contra hruns
  rw [hallowed.closure (by simpa using hruns)] at hterminal
  cases hterminal

/-- Where the record of a call says what the call returns, the call returns it. -/
theorem value_returned (h : (machine token loaded root).ReachableBy Sequential s)
    (hj : s.tasks[j]? = some task) (horigin : task.origin = .call name call)
    {r : DurableResult (Output V)} (hr : task.program = .ret r) {out : Output V}
    (htold : call.Says root name j (loaded (callId root name j)) out) : r = .ok out := by
  obtain ⟨n, hn, hsettled⟩ := (ordered_of_reachableBy h).result h hj horigin hr
  obtain rfl := (ordered_of_reachableBy h).number_eq hj hn
  exact hsettled.replayed out htold

/-- All the task does is answered at once, and it returns `out` by steps of its own. -/
structure AtHand (loaded : Table) (s : State V I) (task : Task V I) (out : Output V) : Prop where
  immediate : ∀ e, nextEffect task.program = some e ∨ (∃ a, ⟨e, a⟩ ∈ task.trace) → Immediate e
  returns : Returns loaded (s.view task) (.ok out)

/-- Where the record of a call says what the call returns, the call waits for nothing. -/
theorem value_atHand (h : (machine token loaded root).ReachableBy Sequential s)
    (hj : s.tasks[j]? = some task) (horigin : task.origin = .call name call) {out : Output V}
    (htold : call.Says root name j (loaded (callId root name j)) out) :
    AtHand loaded s task out := by
  have hordered := ordered_of_reachableBy h
  obtain ⟨rfl, name', call', horigin', hleaf⟩ := hordered.leaves task (List.mem_of_getElem? hj)
  obtain ⟨rfl, rfl⟩ : name' = name ∧ call' = call := by
    simpa [horigin'] using horigin
  have hview : (Call.machine token loaded (call'.run task.ctx name')).Reachable (s.view task) := by
    rw [← start_of_origin h (List.mem_of_getElem? hj) horigin]
    exact view_reachableBy (fun _ _ _ _ _ _ => trivial) h hj
  have hdraws : DrawsOnly j (s.view task).trace := by
    change DrawsOnly j task.trace
    cases hn : drawn task.trace with
    | none => exact Or.inl hn
    | some n =>
      rw [hordered.number_eq hj hn] at hn
      exact Or.inr hn
  -- what the call does is immediate, and what it returns is what a leaf returns
  have hruns : (call'.run task.ctx name').Meets
      (traced (fun _ => Answers loaded) (LeafEffect task.ctx name'))
      (LeafResult loaded task.ctx name' call') [] := leaf_meets hleaf
  have hmeets := Prog.Meets.and htold.prompt hruns (fun _ _ _ ha => ha.1.1) rfl
  obtain ⟨himmediate, trace, r, hdrawn, ⟨-, n, hn, hsettled⟩, hreturns⟩ :=
    surfacing_of_meets (fun _ _ he => he.1) hmeets hview hdraws
  obtain rfl : n = j := by
    simpa [DrawsOnly, hn] using hdrawn
  rw [hsettled.replayed out htold] at hreturns
  refine ⟨fun e he => himmediate e (he.imp_left fun hnext => ?_), hreturns⟩
  exact (nextEffect_eq task.program).symm.trans hnext

/-- What a call has returned is what its record says now. -/
theorem value_recorded (h : (machine token loaded root).ReachableBy Sequential s) (hapart : Apart root s)
    (hj : s.tasks[j]? = some task) (horigin : task.origin = .call name call)
    (hfaithful : call.Faithful)
    (hold : call.operationType = .step → OfType .step (loaded (callId root name j)))
    {out : Output V} (hr : task.program = .ret (.ok out)) :
    call.Says root name j (s.backend (callId root name j)) out := by
  obtain ⟨n, hn, hsettled⟩ := (ordered_of_reachableBy h).result h hj horigin hr
  obtain rfl := (ordered_of_reachableBy h).number_eq hj hn
  exact told_of_returned hfaithful hold (view_unshared h hapart hj horigin) hsettled hr

end Tasks

end LambdaDurable
