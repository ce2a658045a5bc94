import LambdaDurable.Context.Executions

/-!
# The state and the failure of `wait_for_condition`

The state lives in the payload of the last acknowledged RETRY, the attempt in the number of
them. FAIL keeps the text of its error and no more.
-/

namespace LambdaDurable

open Effects Call Backend

variable {V : Type}

/-- A run of the closure of an operation. -/
def Effect.runsClosure : Effect V → Bool
  | .stepFn _ _ | .checkFn _ _ | .contextFn _ _ => true
  | _ => false

/-- What a closure has returned. -/
def Event.computed : Event V → Option V
  | ⟨.stepFn _ _, .ok value⟩ => some value
  | ⟨.checkFn _ _, .ok state⟩ => some state
  | ⟨.contextFn _ _, .ok value⟩ => some value
  | _ => none

/-- What the closure of a call has produced in an invocation, the oldest if there are several. -/
def produced (trace : List (Event V)) : Option V := (trace.filterMap Event.computed).getLast?

theorem produced_of_suffix {earlier trace : List (Event V)} {state : V} (h : earlier <:+ trace)
    (hstate : produced earlier = some state) : produced trace = some state := by
  obtain ⟨later, rfl⟩ := h
  unfold produced at *
  rw [List.filterMap_append, List.getLast?_append, hstate]
  rfl

theorem produced_cons {event : Event V} {trace : List (Event V)} (h : event.computed = none) :
    produced (event :: trace) = produced trace := by
  unfold produced
  rw [List.filterMap_cons_none h]

theorem produced_computed {event : Event V} {trace : List (Event V)} {value : V}
    (h : produced trace = none) (hvalue : event.computed = some value) :
    produced (event :: trace) = some value := by
  have hnil : trace.filterMap Event.computed = [] := List.getLast?_eq_none_iff.mp h
  unfold produced
  rw [List.filterMap_cons_some hvalue, hnil]
  rfl

/-- Nothing has been sent or computed. -/
def Untouched (id : String) (trace : List (Event V)) : Prop :=
  naming id (sent trace) = [] ∧ produced trace = none

theorem Untouched.cons {id : String} {trace : List (Event V)} (h : Untouched id trace) {e : Effect V}
    {a : Answer e} (he : e.updates = []) (ha : Event.computed ⟨e, a⟩ = none) :
    Untouched id (⟨e, a⟩ :: trace) := by
  refine ⟨?_, ?_⟩
  · rw [sent_cons_quiet he]
    exact h.1
  · rw [produced_cons ha]
    exact h.2

theorem Untouched.opening {id : String} {trace : List (Event V)} (h : Untouched id trace) :
    ∀ v ∈ naming id (sent trace), Opening v := by
  rw [h.1]
  exact fun _ hv => by cases hv

/-- The number drawn is fixed; user code answers as it likes. -/
def Numbered (n : Nat) : (e : Effect V) → Answer e → Prop
  | .fetchAdd _, counter => counter = n
  | _, _ => True

theorem numbered_of_not_chosen {n : Nat} (e : Effect V) (a : Answer e) (h : e.chosen = false) :
    Numbered n e a := by
  cases e with
  | fetchAdd _ => cases h
  | _ => trivial

/-- What is made of the payload of a Succeeded record. -/
def Recalls (codec : Codec V) (site : SerdesSite) (missing : String) (r : DurableResult V) :
    Option String → Prop
  | some payload => ∀ value, codec.deserialize (some payload) site.context = .ok (some value) →
      r = .ok value
  | none => r = .error (.internal missing)

namespace WaitCondition

/-- The attempt of an invocation. -/
def attemptOf (loaded : Table) (id : String) : Nat := (standing (loaded id)).attempts + 1

/-- The state an invocation starts from. -/
def StartsFrom (config : WaitConditionConfig V) (site : SerdesSite) (st : Standing) (state : V) :
    Prop :=
  match st.result with
  | none => state = config.initialState
  | some payload => ∃ value, config.codec.deserialize (some payload) site.context = .ok value ∧
      state = value.getD config.initialState

/-- RETRY and SUCCEED carry the state just produced, FAIL is sent past the last attempt. -/
def Concludes (config : WaitConditionConfig V) (site : SerdesSite) (name : Option String)
    (attempt : Nat) (trace : List (Event V)) (u : OperationUpdate) : Prop :=
  match u.action with
  | .retry | .succeed => ∃ state, produced trace = some state ∧
      config.codec.serialize (some state) site.context = .ok u.payload
  | .fail => config.maxAttempts.any (attempt > ·) ∧
      u.error = some (.fromDurableError (exceeded name attempt))
  | .start | .cancel => False

/-- What the call may do. -/
structure Threads (config : WaitConditionConfig V) (site : SerdesSite) (name : Option String)
    (loaded : Table) (id : String) (trace : List (Event V)) (e : Effect V) : Prop where
  stepWise : StepWise loaded id (Concludes config site name (attemptOf loaded id)) trace e
  closure : e.runsClosure = true → loaded.terminal id = false
  checks : ∀ state hashedId, e = .checkFn state hashedId →
    produced trace = none ∧ StartsFrom config site (standing (loaded id)) state ∧
    config.maxAttempts.any (attemptOf loaded id > ·) = false
  decides : ∀ state k, e = .waitStrategy state k →
    k = attemptOf loaded id ∧ produced trace = some state

/-- What the call returns. -/
structure Reports (config : WaitConditionConfig V) (site : SerdesSite) (name : Option String)
    (stepId : String) (loaded : Table) (id : String) (trace : List (Event V))
    (r : DurableResult V) : Prop where
  live : loaded.terminal id = false →
    (config.maxAttempts.any (attemptOf loaded id > ·) → r = .error (exceeded name (attemptOf loaded id))) ∧
      ∀ state, r = .ok state → produced trace = some state
  failed : (standing (loaded id)).verdict = some .failed → ∃ attempts,
    r = .error (.stepFailed stepId attempts
      (((standing (loaded id)).error.map (·.errorMessage)).getD "Wait for condition failed"))
  succeeded : (standing (loaded id)).verdict = some .succeeded →
    Recalls config.codec site "Missing wait-for-condition result in replay" r
      (standing (loaded id)).result

section

variable {config : WaitConditionConfig V} {ctx : ExecutionContext} {name : Option String} {n : Nat}
  {loaded : Table} {trace : List (Event V)} {T : Type}

/-- A part of the call that threads the state. -/
abbrev Threading (config : WaitConditionConfig V) (ctx : ExecutionContext) (name : Option String)
    (n : Nat) (loaded : Table) (post : List (Event V) → T → Prop) (p : Act V T)
    (trace : List (Event V)) : Prop :=
  Obeys loaded (Numbered n)
    (Threads config (ctx.site (callId ctx name n) name) name loaded (callId ctx name n)) post p trace

abbrev Reporting (config : WaitConditionConfig V) (ctx : ExecutionContext) (name : Option String)
    (n : Nat) (loaded : Table) : List (Event V) → DurableResult V → Prop :=
  Reports config (ctx.site (callId ctx name n) name) name (ctx.operationId name n) loaded
    (callId ctx name n)

theorem Threads.of_quiet {site : SerdesSite} {id : String} {e : Effect V} (hupdates : e.updates = [])
    (hclosure : e.runsClosure = false) (hstrategy : ∀ state k, e ≠ .waitStrategy state k) :
    Threads config site name loaded id trace e where
  stepWise := .of_quiet hupdates
  closure hruns := by
    rw [hclosure] at hruns
    cases hruns
  checks state hashedId he := by
    subst he
    cases hclosure
  decides _ _ he := absurd he (hstrategy _ _)

theorem Threads.of_update {site : SerdesSite} {id stepId : String} {u : OperationUpdate}
    (htype : u.operationType = .step) (hopen : loaded.terminal id = false)
    (hsent : ∀ v ∈ naming id (sent trace), Opening v)
    (hu : Opening u ∨ Concludes config site name (attemptOf loaded id) trace u) :
    Threads config site name loaded id trace (.checkpoint stepId u) := by
  have hmem : ∀ v ∈ (Effect.checkpoint stepId u : Effect V).updates, v = u :=
    fun v hv => List.mem_singleton.mp hv
  constructor
  · constructor
    · intro v hv _
      rw [hmem v hv]
      exact ⟨hsent, hu⟩
    · intro v hv _
      rw [hmem v hv, htype]
    · exact fun _ _ _ => hopen
  · intro hruns
    cases hruns
  · rintro _ _ ⟨⟩
  · rintro _ _ ⟨⟩

theorem threads_quit {site : SerdesSite} {id : String} (result : TerminationResult) :
    Threads config site name loaded id trace (.terminate result) ∧
      Threads config site name loaded id (⟨.terminate result, ()⟩ :: trace) .pending :=
  ⟨.of_quiet rfl rfl (by rintro _ _ ⟨⟩), .of_quiet rfl rfl (by rintro _ _ ⟨⟩)⟩

theorem Reports.of_open {site : SerdesSite} {stepId id : String} {r : DurableResult V}
    (hopen : loaded.terminal id = false)
    (hlast : config.maxAttempts.any (attemptOf loaded id > ·) →
      r = .error (exceeded name (attemptOf loaded id)))
    (hok : ∀ state, r = .ok state → produced trace = some state) :
    Reports config site name stepId loaded id trace r := by
  have hnone := verdict_of_open hopen
  constructor
  · exact fun _ => ⟨hlast, hok⟩
  · intro hfailed
    rw [hnone] at hfailed
    cases hfailed
  · intro hsucceeded
    rw [hnone] at hsucceeded
    cases hsucceeded

theorem threads_decide (hopen : loaded.terminal (callId ctx name n) = false)
    (hspare : config.maxAttempts.any (attemptOf loaded (callId ctx name n) > ·) = false) {state : V}
    (hproduced : produced trace = some state)
    (hsent : ∀ v ∈ naming (callId ctx name n) (sent trace), Opening v) :
    Threading config ctx name n loaded (Reporting config ctx name n loaded)
      (decide ctx name config (ctx.operationId name n) (callId ctx name n)
        (attemptOf loaded (callId ctx name n)) state) trace := by
  refine obeys_safeSerialize threads_quit fun payload hpayload => ?_
  apply obeys_act
  · constructor
    · exact .of_quiet rfl
    · intro hruns
      cases hruns
    · rintro _ _ ⟨⟩
    · rintro _ _ ⟨⟩
      exact ⟨rfl, hproduced⟩
  intro decision _ _
  have hproduced' : produced (⟨Effect.waitStrategy state (attemptOf loaded (callId ctx name n)),
      decision⟩ :: trace) = some state := by
    rwa [produced_cons rfl]
  have hsent' : ∀ v ∈ naming (callId ctx name n)
      (sent (⟨Effect.waitStrategy state (attemptOf loaded (callId ctx name n)), decision⟩ :: trace)),
      Opening v := by
    rwa [sent_cons_quiet rfl]
  cases decision with
  | stop =>
    apply obeys_checkpoint (succeedUpdate_buildable ..)
    · exact .of_update rfl hopen hsent' (Or.inr ⟨state, hproduced', hpayload⟩)
    · apply Reports.of_open hopen
      · rw [hspare]
        rintro ⟨⟩
      · rintro _ ⟨⟩
        rwa [produced_cons rfl]
  | «continue» delay =>
    apply obeys_checkpoint (retryUpdate_buildable ..)
    · exact .of_update rfl hopen hsent' (Or.inr ⟨state, hproduced', hpayload⟩)
    · exact obeys_suspend (threads_quit _).1 (threads_quit _).2

theorem threads_runCheck (hopen : loaded.terminal (callId ctx name n) = false)
    (hspare : config.maxAttempts.any (attemptOf loaded (callId ctx name n) > ·) = false) {state : V}
    (hstate : StartsFrom config (ctx.site (callId ctx name n) name)
      (standing (loaded (callId ctx name n))) state) (h : Untouched (callId ctx name n) trace) :
    Threading config ctx name n loaded (Reporting config ctx name n loaded)
      (runCheck ctx name config (ctx.operationId name n) (callId ctx name n)
        (attemptOf loaded (callId ctx name n)) state) trace := by
  simp only [runCheck, getStepData_bind]
  refine obeys_act (.of_quiet rfl rfl (by rintro _ _ ⟨⟩)) fun operation _ _ => ?_
  have h := h.cons (e := .getStepData (callId ctx name n)) (a := operation) rfl rfl
  refine Prog.Meets.andThen (m := fun trace r => r = .ok () ∧ produced trace = none ∧
    ∀ v ∈ naming (callId ctx name n) (sent trace), Opening v) ?_ ?_ ?_
  · cases operation with
    | none =>
      change Obeys _ _ _ _ (checkpoint _ _ _) _
      rw [checkpoint_of_build (startUpdate_buildable ..)]
      apply obeys_act
      · apply Threads.of_update rfl hopen
        · exact h.opening
        · exact Or.inl ⟨rfl, rfl, rfl, rfl⟩
      rintro _ rfl _
      refine ⟨rfl, ?_, fun v hv => ?_⟩
      · rw [produced_cons rfl]
        exact h.2
      · rw [sent, naming_append, h.1] at hv
        rw [List.mem_singleton.mp (List.mem_filter.mp hv).1]
        exact ⟨rfl, rfl, rfl, rfl⟩
    | some op => exact ⟨rfl, h.2, h.opening⟩
  · rintro _ trace ⟨-, hproduced, hsent⟩
    refine obeys_act (.of_quiet rfl rfl (by rintro _ _ ⟨⟩)) fun mode _ _ => ?_
    have hproduced : produced (⟨Effect.getMode, mode⟩ :: trace) = none := by
      rwa [produced_cons rfl]
    apply obeys_act
    · constructor
      · exact .of_quiet rfl
      · exact fun _ => hopen
      · rintro _ _ ⟨⟩
        exact ⟨hproduced, hstate, hspare⟩
      · rintro _ _ ⟨⟩
    intro outcome _ _
    cases outcome with
    | ok newState =>
      apply threads_decide hopen hspare (produced_computed hproduced rfl)
      rwa [sent_cons_quiet rfl, sent_cons_quiet rfl]
    | error e =>
      apply Reports.of_open hopen
      · rw [hspare]
        rintro ⟨⟩
      · rintro _ ⟨⟩
  · rintro _ _ ⟨⟨⟩, -⟩

theorem threads_runAttempt (hopen : loaded.terminal (callId ctx name n) = false) {state : V}
    (hstate : StartsFrom config (ctx.site (callId ctx name n) name)
      (standing (loaded (callId ctx name n))) state) (h : Untouched (callId ctx name n) trace) :
    Threading config ctx name n loaded (Reporting config ctx name n loaded)
      (runAttempt ctx name config (ctx.operationId name n) (callId ctx name n)
        (attemptOf loaded (callId ctx name n)) state) trace := by
  unfold runAttempt
  split
  · rename_i hlast
    apply obeys_checkpoint (failUpdate_buildable ..)
    · apply Threads.of_update rfl hopen
      · exact h.opening
      · exact Or.inr ⟨hlast, rfl⟩
    · apply Reports.of_open hopen
      · exact fun _ => rfl
      · rintro _ ⟨⟩
  · rename_i hspare
    exact threads_runCheck hopen (Bool.not_eq_true _ ▸ hspare) hstate h

theorem threads_runWaitCondition (hopen : loaded.terminal (callId ctx name n) = false)
    (h : Untouched (callId ctx name n) trace) :
    Threading config ctx name n loaded (Reporting config ctx name n loaded)
      (runWaitCondition ctx name config (ctx.operationId name n) (callId ctx name n)) trace := by
  simp only [runWaitCondition, getStepData_bind]
  refine obeys_act (.of_quiet rfl rfl (by rintro _ _ ⟨⟩)) fun operation hop _ => ?_
  obtain rfl : operation = loaded (callId ctx name n) := hop
  have h := h.cons (e := .getStepData (callId ctx name n)) (a := loaded (callId ctx name n)) rfl rfl
  have hrun : ∀ state, StartsFrom config (ctx.site (callId ctx name n) name)
      (standing (loaded (callId ctx name n))) state →
      Threading config ctx name n loaded (Reporting config ctx name n loaded)
        (.act (.getStepData (callId ctx name n)) fun stored => runAttempt ctx name config
          (ctx.operationId name n) (callId ctx name n) ((stored.map (·.attemptIdx)).getD 0 + 1) state)
        (⟨.getStepData (callId ctx name n), loaded (callId ctx name n)⟩ :: trace) := by
    intro state hstate
    refine obeys_act (.of_quiet rfl rfl (by rintro _ _ ⟨⟩)) fun stored hstored _ => ?_
    obtain rfl : stored = loaded (callId ctx name n) := hstored
    exact threads_runAttempt hopen hstate (h.cons rfl rfl)
  unfold currentState
  split
  · rename_i payload hpayload
    rw [Prog.bind_assoc]
    refine obeys_safeDeserialize threads_quit fun value hvalue => ?_
    apply hrun
    have hresult : (standing (loaded (callId ctx name n))).result = some payload := hpayload
    simp only [StartsFrom, hresult]
    exact ⟨value, hvalue, rfl⟩
  · rename_i hpayload
    apply hrun
    have hresult : (standing (loaded (callId ctx name n))).result = none := hpayload
    simp only [StartsFrom, hresult]

/-- What `handle_replay` leaves to do. -/
def Remains (config : WaitConditionConfig V) (ctx : ExecutionContext) (name : Option String)
    (n : Nat) (loaded : Table) (trace : List (Event V)) : DurableResult (Option V) → Prop
  | .ok none => loaded.terminal (callId ctx name n) = false ∧ Untouched (callId ctx name n) trace
  | .ok (some state) => Reporting config ctx name n loaded trace (.ok state)
  | .error e => Reporting config ctx name n loaded trace (.error e)

theorem threads_handleReplay (h : Untouched (callId ctx name n) trace) :
    Threading config ctx name n loaded (Remains config ctx name n loaded)
      (handleReplay ctx (loaded (callId ctx name n)) config.codec (callId ctx name n)
        (ctx.operationId name n) name) trace := by
  cases hop : loaded (callId ctx name n) with
  | none =>
    refine ⟨?_, h⟩
    simp [Table.terminal, hop]
  | some op =>
    have hterminal : loaded.terminal (callId ctx name n) = op.status.isTerminal := by
      simp [Table.terminal, hop]
    have hverdict : ∀ status, op.status = status → status.isTerminal = true →
        (standing (loaded (callId ctx name n))).verdict = some status := by
      rintro _ rfl hfinal
      simp [standing, hop, hfinal]
    have hresult : (standing (loaded (callId ctx name n))).result = op.stepDetails.bind (·.result) := by
      simp [standing, hop]
    simp only [handleReplay]
    cases hstatus : op.status with
    | succeeded =>
      have hreports : ∀ {trace r}, Recalls config.codec (ctx.site (callId ctx name n) name)
          "Missing wait-for-condition result in replay" r (op.stepDetails.bind (·.result)) →
          Reporting config ctx name n loaded trace r := by
        intro trace r hr
        constructor
        · rw [hterminal, hstatus]
          rintro ⟨⟩
        · rw [hverdict _ hstatus rfl]
          rintro ⟨⟩
        · intro _
          rwa [hresult]
      dsimp only
      split
      · rename_i payload hpayload
        rw [hpayload] at hreports
        refine obeys_safeDeserialize threads_quit fun value hvalue => ?_
        cases value with
        | some state =>
          apply hreports
          intro state' hstate'
          rw [hvalue] at hstate'
          cases hstate'
          rfl
        | none =>
          apply hreports
          intro state' hstate'
          rw [hvalue] at hstate'
          cases hstate'
      · rename_i hpayload
        rw [hpayload] at hreports
        exact hreports rfl
    | failed =>
      constructor
      · rw [hterminal, hstatus]
        rintro ⟨⟩
      · intro _
        refine ⟨(op.stepDetails.bind (·.attempt)).getD 1, ?_⟩
        simp [standing, hop]
      · rw [hverdict _ hstatus rfl]
        rintro ⟨⟩
    | pending | ready | started | unknown =>
      refine obeys_act (.of_quiet rfl rfl (by rintro _ _ ⟨⟩)) fun _ _ _ => ⟨?_, h.cons rfl rfl⟩
      rw [hterminal, hstatus]
      rfl

theorem threads_waitForCondition : Threading config ctx name n loaded
    (Reporting config ctx name n loaded) (ctx.waitForCondition name config) [] := by
  simp only [ExecutionContext.waitForCondition, nextOperationId_bind, getStepData_bind]
  refine obeys_act (.of_quiet rfl rfl (by rintro _ _ ⟨⟩)) fun counter _ hcounter => ?_
  obtain rfl : counter = n := hcounter
  refine obeys_act (.of_quiet rfl rfl (by rintro _ _ ⟨⟩)) fun operation hop _ => ?_
  obtain rfl : operation = loaded (callId ctx name counter) := hop
  have huntouched : Untouched (callId ctx name counter)
      [⟨Effect.getStepData (callId ctx name counter), loaded (callId ctx name counter)⟩,
        ⟨Effect.fetchAdd ctx.operationCounter, (counter : Nat)⟩] := ⟨rfl, rfl⟩
  refine Prog.Meets.andThen (threads_handleReplay huntouched) (fun result trace hr => ?_) fun e trace hr => hr
  cases result with
  | some state => exact hr
  | none => exact threads_runWaitCondition hr.1 hr.2

end

/-! ## The state over an execution -/

section

variable {config : WaitConditionConfig V} {ctx : ExecutionContext} {name : Option String} {n : Nat}
  {token : String} {loaded : Table} {c : Call.State V (DurableResult V)}
  {past : List (Call.State V (DurableResult V))}

/-- The invocation whose RETRY after attempt `k` the service acknowledged. -/
def Attempted (id : String) (past : List (Call.State V (DurableResult V))) (k : Nat)
    (c : Call.State V (DurableResult V)) : Prop :=
  ∃ later earlier, past = later ++ c :: earlier ∧ retries (c.acks id) = 1 ∧
    retries (Execution.settled id earlier) + 1 = k

theorem Attempted.cons {id : String} {k : Nat} {c' : Call.State V (DurableResult V)}
    (h : Attempted id past k c) : Attempted id (c' :: past) k c := by
  obtain ⟨later, earlier, rfl, hacks, hk⟩ := h
  exact ⟨c' :: later, earlier, rfl, hacks, hk⟩

/-- The record holds the state of the last acknowledged attempt. -/
structure Carries (config : WaitConditionConfig V) (site : SerdesSite) (id : String)
    (past : List (Call.State V (DurableResult V))) (loaded : Table) : Prop where
  operationType : OfType .step (loaded id)
  attempts : (standing (loaded id)).attempts = retries (Execution.settled id past)
  once : ∀ c ∈ past, retries (c.acks id) ≤ 1
  first : (standing (loaded id)).verdict = none → (standing (loaded id)).attempts = 0 →
    (standing (loaded id)).result = none
  later : (standing (loaded id)).verdict = none → (standing (loaded id)).attempts ≠ 0 →
    ∃ c state, Attempted id past (standing (loaded id)).attempts c ∧ produced c.trace = some state ∧
      config.codec.serialize (some state) site.context = .ok (standing (loaded id)).result

theorem retries_settled_cons (id : String) (c : Call.State V (DurableResult V))
    (past : List (Call.State V (DurableResult V))) :
    retries (Execution.settled id (c :: past)) =
      retries (Execution.settled id past) + retries (c.acks id) := by
  rw [Execution.settled_cons]
  exact List.countP_append

theorem threads_of_reachable
    (h : (Call.machine token loaded (ctx.waitForCondition name config)).ReachableBy
      (Plays (Numbered n) (callId ctx name n)) c) :
    c.Noted loaded (callId ctx name n) ∧
      Permitted (Threads config (ctx.site (callId ctx name n) name) name loaded (callId ctx name n))
        c.trace ∧
      (∀ e, c.program.next = some e →
        Threads config (ctx.site (callId ctx name n) name) name loaded (callId ctx name n) c.trace e) ∧
      ∀ r, c.program = .ret r → Reporting config ctx name n loaded c.trace r :=
  ⟨noted_of_reachableBy (fun _ _ hl => hl.alone) h,
    obeys_of_reachable numbered_of_not_chosen threads_waitForCondition h⟩

theorem Carries.next
    (h : Carries config (ctx.site (callId ctx name n) name) (callId ctx name n) past loaded)
    (hcall : (Call.machine token loaded (ctx.waitForCondition name config)).ReachableBy
      (Plays (Numbered n) (callId ctx name n)) c) :
    Carries config (ctx.site (callId ctx name n) name) (callId ctx name n) (c :: past) c.backend := by
  obtain ⟨hnoted, hpermitted, hnext, -⟩ := threads_of_reachable hcall
  obtain ⟨closing, hsession, htype, hstanding, hclosing⟩ := hnoted.standing
    (hpermitted.mono fun _ _ he => he.stepWise) (fun e he => (hnext e he).stepWise) h.operationType
  have hretries := hsession.retries
  have honce : ∀ c' ∈ c :: past, retries (c'.acks (callId ctx name n)) ≤ 1 := by
    intro c' hc'
    obtain rfl | hc' := List.mem_cons.mp hc'
    · rw [hretries]
      split <;> omega
    · exact h.once c' hc'
  have hquiet : retries (c.acks (callId ctx name n)) = 0 →
      standing (c.backend (callId ctx name n)) = standing (loaded (callId ctx name n)) →
      Carries config (ctx.site (callId ctx name n) name) (callId ctx name n) (c :: past)
        c.backend := by
    intro hzero hsame
    constructor
    · exact htype
    · rw [retries_settled_cons, hzero, hsame]
      exact h.attempts
    · exact honce
    · rw [hsame]
      exact h.first
    · rw [hsame]
      intro hopen hlater
      obtain ⟨c', state, hattempted, hstate⟩ := h.later hopen hlater
      exact ⟨c', state, hattempted.cons, hstate⟩
  cases closing with
  | none => exact hquiet hretries hstanding
  | some v =>
    obtain ⟨hopen, u, earlier, hsuffix, hconcludes, hkept⟩ := hclosing v rfl
    have haction : v.action = u.action := congrArg Prod.fst hkept
    have hpayload : v.payload = u.payload := congrArg (·.2.1) hkept
    simp only [Option.any_some, Option.elim_some] at hretries hstanding
    cases hv : v.action with
    | start | cancel =>
      rw [haction] at hv
      simp only [Concludes, hv] at hconcludes
    | retry =>
      have hafter : standing (c.backend (callId ctx name n)) =
          ⟨(standing (loaded (callId ctx name n))).attempts + 1, v.payload, v.error, none⟩ := by
        rw [hstanding]
        simp [Standing.after, hopen, hv]
      have hone : retries (c.acks (callId ctx name n)) = 1 := by
        simp [hretries, hv]
      constructor
      · exact htype
      · rw [retries_settled_cons, hone, hafter, h.attempts]
      · exact honce
      · rw [hafter]
        exact fun _ hzero => absurd hzero (Nat.succ_ne_zero _)
      · rw [hafter]
        intro _ _
        rw [haction] at hv
        simp only [Concludes, hv] at hconcludes
        obtain ⟨state, hproduced, hserialize⟩ := hconcludes
        refine ⟨c, state, ⟨[], past, rfl, hone, ?_⟩, produced_of_suffix hsuffix hproduced, ?_⟩
        · rw [h.attempts]
        · rw [hserialize, hpayload]
    | succeed | fail =>
      have hzero : retries (c.acks (callId ctx name n)) = 0 := by
        simp [hretries, hv]
      have hafter := Standing.after_final hopen (congrArg verdictOf hv)
      rw [← hstanding] at hafter
      constructor
      · exact htype
      · rw [retries_settled_cons, hzero, hafter]
        exact h.attempts
      · exact honce
      · rw [hafter]
        rintro ⟨⟩
      · rw [hafter]
        rintro ⟨⟩

/-- The attempts an error counts. -/
def attemptsIn : DurableError → Option Nat
  | .stepFailed _ attempts _ | .waitConditionExceeded _ attempts => some attempts
  | _ => none

/-- Two errors of one variant, with one count and one text. -/
def SameFailure (e e' : DurableError) : Prop :=
  e.errorTypeName = e'.errorTypeName ∧ attemptsIn e = attemptsIn e' ∧ e.display = e'.display

/-- After the invocation that recorded FAIL, the call fails with another error: a failed step
whose message is the text of the first. -/
theorem failure_replayed {table : Table} (htable : OfType .step (table (callId ctx name n)))
    {s : Execution.State V (DurableResult V)}
    (h : (Execution.machine token table (ctx.waitForCondition name config)).ReachableBy
      (Execution.Within (Plays (Numbered n) (callId ctx name n))) s)
    {c : Call.State V (DurableResult V)} (hc : c ∈ s.past) {v : OperationUpdate}
    (hv : v ∈ c.acks (callId ctx name n)) (hfail : v.action = .fail) {e : DurableError}
    (he : c.program = .ret (.error e)) {r : DurableResult V} (hr : s.call.program = .ret r) :
    ∃ attempts, r = .error (.stepFailed (ctx.operationId name n) attempts e.display) ∧
      ¬ SameFailure e (.stepFailed (ctx.operationId name n) attempts e.display) := by
  obtain ⟨-, hsettled⟩ := Execution.settled_of_past (fun loaded =>
      Concludes config (ctx.site (callId ctx name n) name) name (attemptOf loaded (callId ctx name n)))
    (fun token loaded c hcall => by
      obtain ⟨hnoted, hpermitted, hnext, -⟩ := threads_of_reachable hcall
      exact ⟨hnoted, hpermitted.mono fun _ _ he => he.stepWise, fun e he => (hnext e he).stepWise⟩)
    htable h
  obtain ⟨hverdict, -, herror, token', loaded, hreach, hopen, u, earlier, -, hconcludes, hkept⟩ :=
    hsettled c hc v hv .failed (by rw [hfail]; rfl)
  have haction : v.action = u.action := congrArg Prod.fst hkept
  have hsame : v.error = u.error := congrArg (·.2.2.1) hkept
  rw [haction] at hfail
  simp only [Concludes, hfail] at hconcludes
  obtain ⟨hlast, hexceeded⟩ := hconcludes
  have hunfinished := open_of_verdict hopen
  obtain ⟨-, -, -, hreports⟩ := threads_of_reachable hreach
  have hreturned := ((hreports _ he).live hunfinished).1 hlast
  obtain rfl : e = exceeded name (attemptOf loaded (callId ctx name n)) := by
    cases hreturned
    rfl
  obtain ⟨token'', hcall⟩ := Execution.call_reachable h
  obtain ⟨-, -, -, hreports'⟩ := threads_of_reachable hcall
  obtain ⟨attempts, hr⟩ := (hreports' r hr).failed hverdict
  rw [herror, hsame, hexceeded] at hr
  refine ⟨attempts, hr, fun hequal => ?_⟩
  have hvariant : "WaitConditionExceeded" = "StepFailed" := hequal.1
  exact absurd hvariant (by decide)

end

/-! ## A condition that is not met -/

def verbatim : Codec String where
  json := ⟨.ok, .ok⟩

def twoChecks : WaitConditionConfig String :=
  { initialState := "queued", codec := verbatim, maxAttempts := some 2 }

/-- Each check finds the state it was given with one mark more. -/
def mark : (e : Effect String) → Option (Answer e)
  | .fetchAdd _ => some 0
  | .checkFn state _ => some (.ok (state ++ "!"))
  | .waitStrategy _ _ => some (.continue (.ofSeconds 1))
  | _ => none

def played (m : Nat) : List (Call.Label String) := List.replicate m (.perform mark)

def answered (c : Nat) : List (Call.Label String) :=
  .request c :: (served c).map .manager ++ [.resume]

/-- The first attempt, up to its RETRY. -/
def firstCheck : List (Call.Label String) :=
  played 5 ++ answered 0 ++ played 3 ++ answered 1

/-- The second attempt, up to the strategy. -/
def secondCheck : List (Call.Label String) := played 9

/-- The FAIL after two attempts. -/
def giveUp : List (Call.Label String) := played 5 ++ answered 0

def exceedingRun : List (Execution.Label String) :=
  firstCheck.map .call ++ [.invoke "t1" .replay] ++ secondCheck.map .call ++
    (answered 0).map .call ++ [.invoke "t2" .replay] ++ giveUp.map .call ++
    [.invoke "t3" .replay] ++ (played 2).map .call

def numbered (s : Execution.State String (DurableResult String)) : Execution.Label String → Bool
  | .call (.manager (.call _ _ _ _)) => false
  | .call (.perform choose) =>
    match s.call.program with
    | .act (.fetchAdd c) _ => (choose (.fetchAdd c)).all (· == 0)
    | _ => true
  | _ => true

theorem numbered_sound {s : Execution.State String (DurableResult String)}
    {l : Execution.Label String} (h : numbered s l = true) :
    Execution.Within (Plays (Numbered 0) "op_0") s l := by
  cases l with
  | invoke token mode => trivial
  | call l =>
    constructor
    · rintro c kind stepId u rfl
      cases h
    · rintro choose e k a rfl hprogram ha
      cases e with
      | fetchAdd c =>
        have hzero : a = 0 := by simpa [numbered, hprogram, ha] using h
        exact hzero
      | _ => trivial

def twoChecksExecution : Transition.Machine (Execution.State String (DurableResult String))
    (Execution.Label String) :=
  Execution.machine "t0" (fun _ => none) (rootContext.waitForCondition none twoChecks)

def beforeChecks : Execution.State String (DurableResult String) where
  loaded := fun _ => none
  call := .new "t0" (fun _ => none) .execution (rootContext.waitForCondition none twoChecks)

theorem reachable_of_numbered {ls : List (Execution.Label String)}
    {s : Execution.State String (DurableResult String)}
    (h : twoChecksExecution.checkedRun numbered beforeChecks ls = some s) :
    twoChecksExecution.ReachableBy (Execution.Within (Plays (Numbered 0) "op_0")) s :=
  Transition.Machine.checkedRun_reachableBy (fun _ _ _ hok => numbered_sound hok) _
    (.init ⟨_, rfl⟩) h

/-- FAIL after two attempts, and its replay. -/
theorem exceedingRun_end : ∃ s c v, twoChecksExecution.ReachableBy
      (Execution.Within (Plays (Numbered 0) "op_0")) s ∧ c ∈ s.past ∧ v ∈ c.acks "op_0" ∧
    v.action = .fail ∧
    c.program = .ret (.error (.waitConditionExceeded "wait_for_condition" 3)) ∧
    s.call.program = .ret (.error (.stepFailed "op_0" 2
      "Wait for condition 'wait_for_condition' exceeded maximum attempts (3)")) := by
  have hend : (twoChecksExecution.checkedRun numbered beforeChecks exceedingRun).map
      (fun s => (s.call.program.returned, s.past.head?.map fun c =>
        (c.program.returned, (c.acks "op_0").map (·.action)))) =
      some (some (.error (.stepFailed "op_0" 2
          "Wait for condition 'wait_for_condition' exceeded maximum attempts (3)")),
        some (some (.error (.waitConditionExceeded "wait_for_condition" 3)), [.fail])) := by
    decide +kernel
  obtain ⟨s, hrun, hs⟩ := Option.map_eq_some_iff.mp hend
  simp only [Prod.mk.injEq] at hs
  obtain ⟨hreplayed, hpast⟩ := hs
  obtain ⟨c, hc, hs⟩ := Option.map_eq_some_iff.mp hpast
  simp only [Prod.mk.injEq] at hs
  obtain ⟨hreturned, hacks⟩ := hs
  obtain ⟨v, hv, haction⟩ := List.map_eq_singleton_iff.mp hacks
  refine ⟨s, c, v, reachable_of_numbered hrun, List.mem_of_mem_head? hc, ?_, haction,
    Prog.eq_ret_of_returned hreturned, Prog.eq_ret_of_returned hreplayed⟩
  rw [hv]
  exact List.mem_singleton.mpr rfl

theorem exceeded_not_replayed : ∃ s c v e e', twoChecksExecution.ReachableBy
      (Execution.Within (Plays (Numbered 0) "op_0")) s ∧ c ∈ s.past ∧ v ∈ c.acks "op_0" ∧
    v.action = .fail ∧ c.program = .ret (.error e) ∧ s.call.program = .ret (.error e') ∧
    ¬ SameFailure e e' := by
  obtain ⟨s, c, v, hreach, hc, hv, haction, he, hr⟩ := exceedingRun_end
  exact ⟨s, c, v, _, _, hreach, hc, hv, haction, he, hr, fun hsame => absurd hsame.1 (by decide)⟩

theorem failure_replayed_exceedingRun : ∃ s : Execution.State String (DurableResult String),
    ∃ e, (∃ c ∈ s.past, c.program.returned = some (.error e)) ∧ ∃ attempts,
      s.call.program.returned = some (.error (.stepFailed "op_0" attempts e.display)) ∧
        ¬ SameFailure e (.stepFailed "op_0" attempts e.display) := by
  obtain ⟨s, c, v, hreach, hc, hv, haction, he, hr⟩ := exceedingRun_end
  obtain ⟨attempts, hreplayed, hdiffers⟩ := @failure_replayed String twoChecks rootContext none 0
    "t0" (fun _ => none) (fun _ hop => by cases hop) s hreach c hc v hv haction _ he _ hr
  refine ⟨s, _, ⟨c, hc, ?_⟩, attempts, ?_, hdiffers⟩
  · rw [he]
    rfl
  · rw [hr, hreplayed]
    rfl

end WaitCondition

end LambdaDurable
