import LambdaDurable.Context.Operations

/-! # Calls that find their operation Pending -/

namespace LambdaDurable

open Effects Call

variable {V I T : Type}

/-- Effects that neither run user code or wait for it, nor name the operation in an update,
nor end the invocation otherwise than by suspending it. -/
def Quiet (id : String) (trace : List (Event V)) : Effect V → Prop
  | .checkpoint _ update | .checkpointQueued _ update => update.id ≠ id
  | .stepFn _ _ | .submitter _ _ | .shouldRetry _ _ | .checkFn _ _ | .waitStrategy _ _ => False
  | .contextFn _ _ | .spawn _ _ _ _ | .joinNext | .panic _ => False
  | .terminate result => result.reason.isSuspension = true
  | .pending => ∃ result, ⟨.terminate result, ()⟩ ∈ trace ∧ result.reason.isSuspension = true
  | _ => True

/-- The call does not return, and all it still does is quiet: it suspends the invocation. -/
structure Suspending (id : String) (s : Call.State V (DurableResult Unit)) : Prop where
  unfinished : ∀ r, s.program ≠ .ret r
  quiet : ∀ e k, s.program = .act e k → Quiet id s.trace e

/-- Whatever happens around it, the call that draws the number `n` suspends the invocation. -/
def Suspends (loaded : Table) (ctx : ExecutionContext) (name : Option String)
    (call : DurableCall V I) (n : Nat) : Prop :=
  ∀ token s, (machine token loaded (call.program ctx name)).Reachable s → drawn s.trace = some n →
    Suspending (ctx.hashId (ctx.operationId name n)) s

/-- A program that suspends when the call draws the number `n`. -/
def Silent (loaded : Table) (id : String) (n : Nat) (trace : List (Event V)) (p : Act V T) : Prop :=
  p.Meets (traced (fun trace e a => Drawing loaded n trace e a ∧ True) (Quiet id))
    (fun _ _ => False) trace

section

variable {loaded : Table} {id : String} {n : Nat} {trace : List (Event V)}

theorem suspending_of_silent {call : DurableCall V I} {ctx : ExecutionContext}
    {name : Option String} (h : Silent loaded id n [] (call.program ctx name)) {token : String}
    {s : Call.State V (DurableResult Unit)}
    (hs : (machine token loaded (call.program ctx name)).Reachable s)
    (hn : drawn s.trace = some n) : Suspending id s := by
  have hmeets := meets_of_drawn (fun _ _ _ _ _ _ _ _ _ => trivial) h hs hn
  constructor
  · intro r hr
    rw [hr] at hmeets
    exact hmeets
  · intro e k hk
    rw [hk] at hmeets
    exact hmeets.1

theorem silent_act {e : Effect V} {k : Answer e → Act V T} (he : Quiet id trace e)
    (hk : ∀ a, Drawing loaded n trace e a → Silent loaded id n (⟨e, a⟩ :: trace) (k a)) :
    Silent loaded id n trace (.act e k) :=
  ⟨he, fun a ha => hk a ha.1⟩

theorem silent_suspend {result : TerminationResult} (h : result.reason.isSuspension = true) :
    Silent loaded id n trace (suspend result : Act V T) := by
  refine silent_act h fun _ _ => silent_act ?_ fun a _ => a.elim
  exact ⟨result, List.mem_cons_self, h⟩

theorem silent_setMode {mode : ExecutionMode} {p : Act V T} (h : ∀ trace, Silent loaded id n trace p) :
    Silent loaded id n trace (.act (.setMode mode) fun _ => p) :=
  silent_act trivial fun _ _ => h _

theorem silent_getStepData {hashedId : String} {k : Option Operation → Act V T}
    (h : ∀ trace, Silent loaded id n trace (k (loaded hashedId))) :
    Silent loaded id n trace (.act (.getStepData hashedId) k) := by
  refine silent_act trivial fun a ha => ?_
  obtain rfl : a = loaded hashedId := ha.1
  exact h _

theorem silent_fetchAdd {c : Nat} {k : Nat → Act V T} (h : ∀ trace, Silent loaded id n trace (k n)) :
    Silent loaded id n [] (.act (.fetchAdd c) k) := by
  refine silent_act trivial fun a ha => ?_
  obtain rfl : a = n := ha.2 rfl a rfl
  exact h _

end

section

variable {loaded : Table} {ctx : ExecutionContext} {name : Option String} {op : Operation} {n : Nat}

/-- The ID of a call that draws the number `n`. -/
abbrev callId (ctx : ExecutionContext) (name : Option String) (n : Nat) : String :=
  ctx.hashId (ctx.operationId name n)

theorem silent_step (hop : loaded (callId ctx name n) = some op) (hp : op.status = .pending)
    (config : StepConfig V) :
    Silent loaded (callId ctx name n) n [] (forget (ctx.step name userStep config)) := by
  refine silent_fetchAdd fun _ => silent_getStepData fun _ => ?_
  change Silent loaded _ n _ (forget (Step.body ctx name userStep config _ _))
  simp only [hop, Step.body, Step.handleReplay, hp, setMode_bind, Prog.act_andThen, suspend_andThen,
    forget_act, forget_suspend]
  exact silent_setMode fun _ => silent_suspend rfl

theorem silent_wait (hop : loaded (callId ctx name n) = some op) (hp : op.status = .pending)
    {duration : Duration} (hzero : duration.isZero = false) :
    Silent loaded (callId ctx name n) n [] (ctx.wait name duration : Act V (DurableResult Unit)) := by
  refine silent_fetchAdd fun _ => ?_
  change Silent loaded _ n _ (Wait.runWait ctx name duration _ _)
  simp only [Wait.runWait, hzero, getStepData_bind, Bool.false_eq_true, if_false]
  refine silent_getStepData fun _ => ?_
  simp only [hop, hp, setMode_bind]
  exact silent_setMode fun _ => silent_suspend rfl

theorem callback_outcome_pending (hp : op.status = .pending) (stepId : String)
    (read : String → Act V (Option T)) : Callback.outcome op stepId read = none := by
  simp only [Callback.outcome, hp]

/-- A callback is created without an update, and awaited in vain. -/
theorem silent_callback (hop : loaded (callId ctx name n) = some op) (hp : op.status = .pending)
    (config : Option (CallbackConfig V)) (codec : Codec V)
    (read : CallbackHandle V → String → Act V (Option T)) :
    Silent loaded (callId ctx name n) n []
      (forget ((ctx.createCallback name config codec).andThen fun handle =>
        Callback.await handle (read handle)) : Act V _) := by
  simp only [forget, ExecutionContext.createCallback, nextOperationId_bind, getStepData_bind,
    Prog.act_andThen]
  refine silent_fetchAdd fun _ => silent_getStepData fun _ => ?_
  simp only [hop, Prog.ret_ok_andThen, Prog.act_andThen]
  refine silent_getStepData fun _ => ?_
  simp only [Callback.await, getStepData_bind, Prog.act_andThen]
  refine silent_getStepData fun _ => ?_
  simp only [hop, Option.bind_some, callback_outcome_pending hp, Prog.act_andThen, suspend_andThen]
  exact silent_act trivial fun _ _ => silent_suspend rfl

theorem silent_waitForCallback (hop : loaded (callId ctx name n) = some op)
    (hp : op.status = .pending) (htype : op.operationType = .callback) (config : CallbackConfig V)
    (unitCodec : Codec Unit) (rawCodec : Codec String) :
    Silent loaded (callId ctx name n) n []
      (forget (ctx.waitForCallback name config unitCodec rawCodec) : Act V _) := by
  refine silent_fetchAdd fun _ => silent_getStepData fun _ => ?_
  change Silent loaded _ n _ (forget (Callback.body ctx name config unitCodec rawCodec _ _))
  simp only [hop, Callback.body, Callback.handleReplay, htype, callback_outcome_pending hp,
    setMode_bind, Prog.act_andThen, suspend_andThen, forget_act, forget_suspend, ne_eq,
    not_true_eq_false, if_false]
  exact silent_setMode fun _ => silent_suspend rfl

theorem invoke_outcome_pending (hp : op.status = .pending) (config : InvokeConfig I V)
    (hashedId functionId : String) :
    (Invoke.outcome ctx op config.resultCodec hashedId name functionId :
      Option (Act V (DurableResult (Option V)))) = none := by
  simp only [Invoke.outcome, hp]

theorem silent_invoke (hop : loaded (callId ctx name n) = some op) (hp : op.status = .pending)
    (functionId : String) (input : Option I) (config : InvokeConfig I V) :
    Silent loaded (callId ctx name n) n []
      (forget (ctx.invokeWithConfig name functionId input config) : Act V _) := by
  refine silent_fetchAdd fun _ => silent_getStepData fun _ => ?_
  change Silent loaded _ n _ (forget (Invoke.body ctx name functionId input config _ _))
  simp only [hop, Invoke.body, Invoke.handleReplay, invoke_outcome_pending hp, getStepData_bind,
    Prog.act_andThen, forget_act]
  refine silent_act trivial fun _ _ => silent_getStepData fun _ => ?_
  simp only [hop, Option.bind_some, invoke_outcome_pending hp, setMode_bind, Prog.act_andThen,
    suspend_andThen, forget_act, forget_suspend]
  exact silent_setMode fun _ => silent_suspend rfl

/-! ## The calls that do not suspend -/

theorem not_suspends_ret {call : DurableCall V I} {r : DurableResult Unit}
    (h : Arrives "" loaded (call.program ctx name) n (.ret r)) : ¬ Suspends loaded ctx name call n := by
  intro hsuspends
  obtain ⟨s, hs, -, hn, hprogram⟩ := h
  exact (hsuspends "" s hs hn).unfinished _ hprogram

theorem not_suspends_act {call : DurableCall V I} {e : Effect V}
    {k : Answer e → Act V (DurableResult Unit)}
    (h : Arrives "" loaded (call.program ctx name) n (.act e k))
    (he : ∀ trace, ¬ Quiet (callId ctx name n) trace e) : ¬ Suspends loaded ctx name call n := by
  intro hsuspends
  obtain ⟨s, hs, -, hn, hprogram⟩ := h
  exact he s.trace ((hsuspends "" s hs hn).quiet e k hprogram)

theorem not_suspends_zeroWait {duration : Duration} (hzero : duration.isZero = true) :
    ¬ Suspends loaded ctx name (.wait duration : DurableCall V I) n := by
  have h : Arrives "" loaded ((.wait duration : DurableCall V I).program ctx name) n
      (Wait.runWait ctx name duration (ctx.operationId name n) (callId ctx name n)) :=
    arrives_of_fetchAdd rfl "" loaded n
  simp only [Wait.runWait, hzero, if_true] at h
  exact not_suspends_ret h

/-- The ways an unfinished condition goes on: with a FAIL update past the last attempt, with
the next check, or not at all where its state cannot be read. -/
inductive ChecksOn (id : String) : Effect V → Prop
  | exceeded {stepId : String} {update : OperationUpdate} :
      update.id = id → ChecksOn id (.checkpoint stepId update)
  | check {state : V} : ChecksOn id (.checkFn state id)
  | unreadable {message : String} : ChecksOn id (.terminate (.withMessage .serdesFailed message))

/-- The replay branch lets a condition through that has not succeeded or failed. -/
theorem arrives_unfinishedCondition (hop : loaded (callId ctx name n) = some op)
    (hsucceeded : op.status ≠ .succeeded) (hfailed : op.status ≠ .failed)
    (config : WaitConditionConfig V) :
    ∃ e k, ChecksOn (callId ctx name n) e ∧
      Arrives "" loaded ((.waitForCondition config : DurableCall V I).program ctx name) n
        (.act e k) := by
  let stepId := ctx.operationId name n
  have hreplayed : Arrives "" loaded ((.waitForCondition config : DurableCall V I).program ctx name) n
      (.act (.getStepData (callId ctx name n)) fun operation =>
        forget (WaitCondition.body ctx name config stepId operation)) :=
    arrives_of_fetchAdd rfl "" loaded n
  have hmode := hreplayed.getStepData
  have hthrough : WaitCondition.handleReplay ctx (some op) config.codec (ctx.hashId stepId) stepId
      name = setMode .execution >>= fun _ => .ret (.ok none) := by
    unfold WaitCondition.handleReplay
    cases hstatus : op.status with
    | succeeded => exact absurd hstatus hsucceeded
    | failed => exact absurd hstatus hfailed
    | _ => simp only [hstatus]
  rw [hop, WaitCondition.body, hthrough, setMode_bind, Prog.act_andThen, forget_act] at hmode
  have hexecuted := hmode.setMode
  simp only [Prog.ret_ok_andThen, WaitCondition.runWaitCondition, getStepData_bind,
    forget_act] at hexecuted
  have hstate := hexecuted.getStepData
  have hattempt : ∀ attempt state, Arrives "" loaded
      ((.waitForCondition config : DurableCall V I).program ctx name) n
      (forget (WaitCondition.runAttempt ctx name config stepId (callId ctx name n) attempt state)) →
      ∃ e k, ChecksOn (callId ctx name n) e ∧ Arrives "" loaded
        ((.waitForCondition config : DurableCall V I).program ctx name) n (.act e k) := by
    intro attempt state h
    unfold WaitCondition.runAttempt at h
    split at h
    · rw [checkpoint_of_build (WaitCondition.failUpdate_buildable ..), Prog.act_andThen,
        forget_act] at h
      exact ⟨_, _, .exceeded rfl, h⟩
    · simp only [WaitCondition.runCheck, getStepData_bind, forget_act] at h
      have hstarted := h.getStepData
      simp only [hop, getMode_bind, Prog.ret_ok_andThen, forget_act] at hstarted
      exact ⟨_, _, .check, hstarted.getMode⟩
  unfold WaitCondition.currentState safeDeserialize at hstate
  split at hstate
  · split at hstate
    · exact hattempt _ _ (Arrives.getStepData hstate)
    · rw [terminateForSerdesFailure, suspend_bind, suspend_bind, forget_suspend] at hstate
      exact ⟨_, _, .unreadable, hstate⟩
  · exact hattempt _ _ (Arrives.getStepData hstate)

theorem not_suspends_waitForCondition (hop : loaded (callId ctx name n) = some op)
    (hp : op.status = .pending) (config : WaitConditionConfig V) :
    ¬ Suspends loaded ctx name (.waitForCondition config : DurableCall V I) n := by
  obtain ⟨e, k, hchecks, h⟩ := arrives_unfinishedCondition (I := I) hop (by simp [hp]) (by simp [hp])
    config
  refine not_suspends_act h fun trace hquiet => ?_
  cases hchecks with
  | exceeded hid => exact hquiet hid
  | check => exact hquiet
  | unreadable => cases hquiet

/-- Every kind of call but one recognises Pending; a wait of no duration has no record. -/
def DurableCall.RecognisesPending : DurableCall V I → Prop
  | .waitForCondition _ => False
  | .wait duration => duration.isZero = false
  | _ => True

theorem suspends_of_recognisesPending {call : DurableCall V I} (h : call.RecognisesPending)
    (hcontext : call.operationType ≠ .context) (hop : loaded (callId ctx name n) = some op)
    (htype : op.operationType = call.operationType) (hp : op.status = .pending) :
    Suspends loaded ctx name call n := by
  have hsilent : Silent loaded (callId ctx name n) n [] (call.program ctx name) := by
    cases call with
    | step config => exact silent_step hop hp config
    | wait duration => exact silent_wait hop hp h
    | waitForCondition config => exact h.elim
    | callback config codec => exact silent_callback hop hp config codec _
    | callbackRaw config codec =>
      exact silent_callback hop hp config codec fun _ payload => .ret (some payload)
    | waitForCallback config unitCodec rawCodec =>
      exact silent_waitForCallback hop hp htype config unitCodec rawCodec
    | invoke functionId input config => exact silent_invoke hop hp functionId input config
    | runInChildContext _ | map _ _ | parallel _ _ => exact absurd rfl hcontext
  intro token s hs hn
  exact suspending_of_silent hsilent hs hn

/-- A call, no context, whose record is Pending suspends the invocation exactly if it
recognises Pending. -/
theorem suspends_iff (call : DurableCall V I) (hcontext : call.operationType ≠ .context)
    (hop : loaded (callId ctx name n) = some op) (htype : op.operationType = call.operationType)
    (hp : op.status = .pending) :
    Suspends loaded ctx name call n ↔ call.RecognisesPending := by
  constructor
  · intro hsuspends
    cases call with
    | wait duration =>
      by_contra hzero
      exact not_suspends_zeroWait (by simpa [DurableCall.RecognisesPending] using hzero) hsuspends
    | waitForCondition config => exact not_suspends_waitForCondition hop hp config hsuspends
    | _ => trivial
  · intro h
    exact suspends_of_recognisesPending h hcontext hop htype hp

end

/-- A step whose retry delay is running, and the table that holds it. -/
def delayed (hashedId : String) : Operation :=
  { id := hashedId, operationType := .step, status := .pending, stepDetails := some { attempt := some 1 } }

def delayedTable (hashedId : String) : Table :=
  Function.update (fun _ => none) hashedId (some (delayed hashedId))

def rootContext : ExecutionContext := { durableExecutionArn := "arn", hashId := id }

theorem delayedTable_callId :
    delayedTable "op_0" (callId rootContext none 0) = some (delayed "op_0") :=
  Function.update_self ..

theorem suspends_iff_delayedStep :
    Suspends (delayedTable "op_0") rootContext none
      (.step { codec := .nat } : DurableCall Nat Nat) 0 ↔ True :=
  suspends_iff (.step { codec := .nat }) (by decide) delayedTable_callId rfl rfl

/-- A condition whose delay is running is checked again. -/
theorem delayedCondition_checked :
    ¬ ∀ (call : DurableCall Nat Nat) (loaded : Table) (ctx : ExecutionContext) (name : Option String)
      (n : Nat) (op : Operation), call.operationType ≠ .context →
      loaded (callId ctx name n) = some op → op.operationType = call.operationType →
      op.status = .pending → Suspends loaded ctx name call n := by
  intro h
  let config : WaitConditionConfig Nat := { initialState := 0, codec := .nat }
  have hsuspends := h (.waitForCondition config) (delayedTable "op_0") rootContext none 0
    (delayed "op_0") (by decide) delayedTable_callId rfl rfl
  exact not_suspends_waitForCondition delayedTable_callId rfl config hsuspends

end LambdaDurable
