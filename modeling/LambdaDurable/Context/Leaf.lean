import LambdaDurable.Context.Tasks
import LambdaDurable.Context.Values

/-!
# Operations that are one record

A step, a wait, a condition, a callback and an invoke open no context, and they send updates of
their own operation only. What such a call returns is what its record says: the record was final
when it was loaded, or the call has sent the value before it returned.
-/

namespace LambdaDurable

open Effects Call Backend

variable {V I T S : Type}

/-! ## What a record says -/

/-- The record of a finished operation, with this payload among its details. -/
def Holds (details : Operation → Option String) (record : Option Operation) (payload : String) : Prop :=
  ∃ op, record = some op ∧ op.status = .succeeded ∧ details op = some payload

def stepPayload (op : Operation) : Option String := op.stepDetails.bind (·.result)

def callbackPayload (op : Operation) : Option String := op.callbackDetails.bind (·.result)

def invokePayload (op : Operation) : Option String := op.chainedInvokeDetails.bind (·.result)

/-- The payload can be decoded, to this value. -/
def Yields (codec : Codec T) (site : SerdesSite) (details : Operation → Option String)
    (record : Option Operation) (value : T) : Prop :=
  ∃ payload, Holds details record payload ∧
    codec.deserialize (some payload) site.context = .ok (some value)

namespace DurableCall

/-- The operation opens no context. -/
def isLeaf : DurableCall V I → Bool
  | step _ | wait _ | waitForCondition _ | callback _ _ | callbackRaw _ _ | invoke _ _ _ => true
  | waitForCallback _ _ _ | runInChildContext _ | map _ _ | parallel _ _ => false

/-- What the record of the call says that it returns. -/
def Says (ctx : ExecutionContext) (name : Option String) (n : Nat) (record : Option Operation)
    (out : Output V) : DurableCall V I → Prop
  | step config => ∃ value, out = .value value ∧
      Yields config.codec (ctx.site (callId ctx name n) name) stepPayload record value
  | waitForCondition config => ∃ value, out = .value value ∧
      Yields config.codec (ctx.site (callId ctx name n) name) stepPayload record value
  | wait duration => out = .unit ∧
      (duration.isZero = true ∨ ∃ op, record = some op ∧ op.status = .succeeded)
  | callback _ codec => ∃ value, out = .value value ∧
      Yields codec (ctx.site (callId ctx name n) (some (ctx.operationId name n))) callbackPayload
        record value
  | callbackRaw _ _ => ∃ payload, out = .text payload ∧ Holds callbackPayload record payload
  | invoke _ _ config => ∃ value, out = .value value ∧
      Yields config.resultCodec (ctx.site (callId ctx name n) name) invokePayload record value
  | _ => False

end DurableCall

section

variable {details : Operation → Option String} {record : Option Operation} {payload payload' : String}
  {codec : Codec T} {site : SerdesSite} {value value' : T}

theorem Holds.unique (h : Holds details record payload) (h' : Holds details record payload') :
    payload = payload' := by
  obtain ⟨op, rfl, -, hpayload⟩ := h
  obtain ⟨op', hop, -, hpayload'⟩ := h'
  obtain rfl := Option.some.inj hop
  exact Option.some.inj (hpayload.symm.trans hpayload')

theorem Yields.unique (h : Yields codec site details record value)
    (h' : Yields codec site details record value') : value = value' := by
  obtain ⟨payload, hholds, hvalue⟩ := h
  obtain ⟨payload', hholds', hvalue'⟩ := h'
  obtain rfl := hholds.unique hholds'
  cases hvalue.symm.trans hvalue'
  rfl

theorem Holds.succeeded (h : Holds details record payload) :
    ∃ op, record = some op ∧ op.status = .succeeded := by
  obtain ⟨op, hop, hstatus, -⟩ := h
  exact ⟨op, hop, hstatus⟩

/-- A record that says something is final, but for a wait that has nothing to wait for. -/
theorem DurableCall.Says.succeeded {call : DurableCall V I} {ctx : ExecutionContext}
    {name : Option String} {n : Nat} {out : Output V} (h : call.Says ctx name n record out) :
    (∃ duration, call = .wait duration ∧ duration.isZero = true) ∨
      ∃ op, record = some op ∧ op.status = .succeeded := by
  cases call with
  | step _ | waitForCondition _ | callback _ _ | invoke _ _ _ =>
    obtain ⟨_, -, _, hholds, -⟩ := h
    exact Or.inr hholds.succeeded
  | wait duration => exact h.2.imp (fun hzero => ⟨duration, rfl, hzero⟩) id
  | callbackRaw _ _ =>
    obtain ⟨_, -, hholds⟩ := h
    exact Or.inr hholds.succeeded
  | _ => exact h.elim

end

/-- A value is what the record says, or has been sent; what the record says is returned. -/
structure Settled (told : T → Prop) (sends : List (Event V) → T → Prop) (trace : List (Event V))
    (r : DurableResult T) : Prop where
  replayed : ∀ a, told a → r = .ok a
  recorded : ∀ a, r = .ok a → told a ∨ sends trace a

section

variable {told : T → Prop} {sends : List (Event V) → T → Prop} {trace : List (Event V)}

theorem Settled.said {a : T} (h : told a) (hunique : ∀ b, told b → b = a) :
    Settled told sends trace (.ok a) where
  replayed b hb := by rw [hunique b hb]
  recorded b hb := by
    cases hb
    exact Or.inl h

theorem Settled.congr {told' : T → Prop} {sends' : List (Event V) → T → Prop} {r : DurableResult T}
    (h : Settled told sends trace r) (htold : ∀ a, told a ↔ told' a)
    (hsends : ∀ a, sends trace a → sends' trace a) : Settled told' sends' trace r where
  replayed a ha := h.replayed a ((htold a).mpr ha)
  recorded a ha := (h.recorded a ha).imp (htold a).mp (hsends a)

theorem Settled.error {e : DurableError} (h : ∀ a, ¬ told a) : Settled told sends trace (.error e) where
  replayed a ha := absurd ha (h a)
  recorded a ha := by cases ha

theorem Settled.sent {r : DurableResult T} (h : ∀ a, ¬ told a)
    (hsent : ∀ a, r = .ok a → sends trace a) : Settled told sends trace r where
  replayed a ha := absurd ha (h a)
  recorded a ha := Or.inr (hsent a ha)

end

/-! ## Programs that keep to one operation -/

/-- No number is drawn, no context and no task started, and updates are of this operation. -/
def Solitary (id : String) : Effect V → Prop
  | .newCounter | .fetchAdd _ | .submitter _ _ | .contextFn _ _ | .spawn _ _ _ _ | .joinNext
  | .abortAll => False
  | .checkpoint _ u | .checkpointQueued _ u => u.id = id
  | _ => True

abbrev Solo (loaded : Table) (id : String) (post : List (Event V) → S → Prop) (p : Act V S)
    (trace : List (Event V)) : Prop :=
  p.Meets (traced (fun _ => Answers loaded) fun _ => Solitary id) post trace

section

variable {loaded : Table} {id : String} {trace : List (Event V)}

theorem solo_suspend {post : List (Event V) → S → Prop} (result : TerminationResult) :
    Solo loaded id post (suspend result : Act V S) trace :=
  ⟨trivial, fun _ _ => ⟨trivial, fun a => a.elim⟩⟩

theorem solo_getStepData {post : List (Event V) → S → Prop} {hashedId : String}
    {f : Option Operation → Act V S} (hf : Solo loaded id post (f (loaded hashedId))
      (⟨.getStepData hashedId, loaded hashedId⟩ :: trace)) :
    Solo loaded id post (.act (.getStepData hashedId) f) trace := by
  refine ⟨trivial, fun operation hop => ?_⟩
  obtain rfl : operation = loaded hashedId := hop
  exact hf

/-- The update is acknowledged, or it cannot be built. -/
theorem solo_checkpoint {post : List (Event V) → DurableResult S → Prop} {stepId what : String}
    {u : OperationUpdate} {f : Unit → Act V (DurableResult S)} (hid : u.id = id)
    (herror : ∀ e, post trace (.error e))
    (hf : Solo loaded id post (f ()) (⟨.checkpoint stepId u, .ok ()⟩ :: trace)) :
    Solo loaded id post ((checkpoint stepId what u).andThen f) trace := by
  rcases checkpoint_cases (V := V) stepId what u with h | ⟨e, h⟩ <;> rw [h]
  · refine ⟨hid, fun a ha => ?_⟩
    obtain rfl : a = .ok () := ha
    exact hf
  · exact herror e

theorem solo_safeSerialize {post : List (Event V) → S → Prop} {codec : Codec T} {value : Option T}
    {site : SerdesSite} {f : Option String → Act V S}
    (hf : ∀ payload, codec.serialize value site.context = .ok payload →
      Solo loaded id post (f payload) trace) :
    Solo loaded id post (safeSerialize codec value site >>= f) trace := by
  unfold safeSerialize
  split
  · exact hf _ (by assumption)
  · rw [terminateForSerdesFailure, suspend_bind]
    exact solo_suspend _

theorem solo_safeDeserialize {post : List (Event V) → S → Prop} {codec : Codec T}
    {data : Option String} {site : SerdesSite} {f : Option T → Act V S}
    (hf : ∀ value, codec.deserialize data site.context = .ok value →
      Solo loaded id post (f value) trace) :
    Solo loaded id post (safeDeserialize codec data site >>= f) trace := by
  unfold safeDeserialize
  split
  · exact hf _ (by assumption)
  · rw [terminateForSerdesFailure, suspend_bind]
    exact solo_suspend _

/-- The record decides what is returned, or it leaves the call to run. -/
def Resolves (told : T → Prop) (sends : List (Event V) → T → Prop) (unfinished : Prop)
    (trace : List (Event V)) : DurableResult (Option T) → Prop
  | .ok (some value) => Settled told sends trace (.ok value)
  | .ok none => unfinished
  | .error e => Settled told sends trace (.error e)

theorem not_yields {codec : Codec T} {site : SerdesSite} {details : Operation → Option String}
    {record : Option Operation} (h : ∀ op, record = some op → op.status ≠ .succeeded) (value : T) :
    ¬ Yields codec site details record value := by
  rintro ⟨payload, hholds, -⟩
  obtain ⟨op, hop, hstatus⟩ := hholds.succeeded
  exact h op hop hstatus

theorem solo_replayed {codec : Codec T} {site : SerdesSite} {details : Operation → Option String}
    {sends : List (Event V) → T → Prop} {run : Act V (DurableResult T)}
    (replay : Option Operation → Act V (DurableResult (Option T))) (hnone : replay none = .ret (.ok none))
    (hsome : ∀ op, loaded id = some op → Solo loaded id
      (Resolves (Yields codec site details (some op)) sends (op.status ≠ .succeeded))
      (replay (some op)) trace)
    (hrun : (∀ op, loaded id = some op → op.status ≠ .succeeded) → ∀ trace,
      Solo loaded id (Settled (Yields codec site details (loaded id)) sends) run trace) :
    Solo loaded id (Settled (Yields codec site details (loaded id)) sends)
      ((replay (loaded id)).andThen fun
        | some result => .ret (.ok result)
        | none => run) trace := by
  have hreplay : Solo loaded id (Resolves (Yields codec site details (loaded id)) sends
      (∀ op, loaded id = some op → op.status ≠ .succeeded)) (replay (loaded id)) trace := by
    cases hop : loaded id with
    | none =>
      rw [hnone]
      rintro _ ⟨⟩
    | some op =>
      refine Prog.Meets.mono (fun trace r hr => ?_) (hsome op hop)
      cases r with
      | error e => exact hr
      | ok result =>
        cases result with
        | some value => exact hr
        | none =>
          rintro _ ⟨⟩
          exact hr
  refine Prog.Meets.andThen hreplay (fun result trace hresult => ?_) fun e trace herror => herror
  cases result with
  | some value => exact hresult
  | none => exact hrun hresult trace

/-- The payload of a finished record is decoded. -/
theorem solo_decode {post : List (Event V) → S → Prop} {codec : Codec T}
    {details : Operation → Option String} {site : SerdesSite} {record : Option Operation}
    {payload : String} {f : Option T → Act V S} (hholds : Holds details record payload)
    (hsome : ∀ value, Yields codec site details record value →
      Solo loaded id post (f (some value)) trace)
    (hnone : (∀ value, ¬ Yields codec site details record value) → Solo loaded id post (f none) trace) :
    Solo loaded id post (safeDeserialize codec (some payload) site >>= f) trace := by
  refine solo_safeDeserialize fun value hdecode => ?_
  cases value with
  | some value => exact hsome value ⟨payload, hholds, hdecode⟩
  | none =>
    refine hnone fun value ⟨payload', hholds', hdecode'⟩ => ?_
    obtain rfl := hholds.unique hholds'
    cases hdecode.symm.trans hdecode'

theorem not_holds {details : Operation → Option String} {op : Operation} (h : details op = none)
    (payload : String) : ¬ Holds details (some op) payload := by
  rintro ⟨op', hop, -, hsome⟩
  obtain rfl := Option.some.inj hop
  cases h.symm.trans hsome

/-- The record is finished, and has a payload that is read or has none. -/
theorem solo_payload (details : Operation → Option String) {sends : List (Event V) → T → Prop}
    {codec : Codec T} {site : SerdesSite} {op : Operation}
    {missing : DurableError} (hstatus : op.status = .succeeded) {unfinished : Prop} :
    Solo loaded id (Resolves (Yields codec site details (some op)) sends unfinished)
      (match details op with
        | some payload => do
          match ← safeDeserialize codec (some payload) site with
          | some value => .ret (.ok (some value))
          | none => .ret (.error missing)
        | none => .ret (.error missing)) trace := by
  split
  · rename_i payload hpayload
    refine solo_decode ⟨op, rfl, hstatus, hpayload⟩ (fun value hvalue => ?_) fun hnever => .error hnever
    exact .said hvalue fun other hother => hother.unique hvalue
  · exact .error fun value ⟨payload, hholds, _⟩ => not_holds ‹_› payload hholds

end

/-! ## Steps and conditions -/

/-- SUCCEED with the encoding of the value has been acknowledged to the call. -/
def Reported (codec : Codec T) (site : SerdesSite) (id : String) (trace : List (Event V))
    (value : T) : Prop :=
  ∃ stepId u r, (⟨.checkpoint stepId u, r⟩ : Event V) ∈ trace ∧ u.id = id ∧ u.action = .succeed ∧
    codec.serialize (some value) site.context = .ok u.payload

/-- A value that is returned has been reported. -/
def Reports (codec : Codec T) (site : SerdesSite) (id : String) (trace : List (Event V))
    (r : DurableResult T) : Prop :=
  ∀ value, r = .ok value → Reported codec site id trace value

section

variable {loaded : Table} {ctx : ExecutionContext} {name : Option String} {n : Nat}
  {trace : List (Event V)} {stepId : String}

/-- The calls whose record is that of a step. -/
abbrev SettledStep (codec : Codec V) (ctx : ExecutionContext) (name : Option String) (n : Nat)
    (loaded : Table) : List (Event V) → DurableResult V → Prop :=
  Settled (Yields codec (ctx.site (callId ctx name n) name) stepPayload (loaded (callId ctx name n)))
    (Reported codec (ctx.site (callId ctx name n) name) (callId ctx name n))

theorem solo_finishStep {id : String} {attempt : Nat} {codec : Codec V} (outcome : Except BoxError V) :
    Solo loaded id (Reports codec (ctx.site id name) id)
      (Step.finishStep ctx name stepId id attempt codec outcome) trace := by
  cases outcome with
  | ok result =>
    refine solo_safeSerialize fun payload hpayload => ?_
    refine solo_checkpoint rfl (by rintro e value ⟨⟩) ?_
    rintro value ⟨⟩
    exact ⟨stepId, _, _, List.mem_cons_self, rfl, rfl, hpayload⟩
  | error e =>
    refine ⟨trivial, fun decision _ => ?_⟩
    dsimp only
    split
    · exact solo_checkpoint rfl (by rintro e value ⟨⟩) (solo_suspend _)
    · exact solo_checkpoint rfl (by rintro e value ⟨⟩) (by rintro value ⟨⟩)

theorem solo_runStepExecution {config : StepConfig V} :
    Solo loaded (callId ctx name n)
      (Reports config.codec (ctx.site (callId ctx name n) name) (callId ctx name n))
      (Step.runStepExecution ctx name userStep stepId (callId ctx name n) (loaded (callId ctx name n))
        config.semantics config.codec) trace := by
  simp only [Step.runStepExecution, setMode_bind]
  refine ⟨trivial, fun _ _ => ?_⟩
  have hrun : ∀ trace : List (Event V), Solo loaded (callId ctx name n)
      (Reports config.codec (ctx.site (callId ctx name n) name) (callId ctx name n))
      (getMode >>= fun _ => userStep (callId ctx name n)
        (((loaded (callId ctx name n)).map (·.attemptIdx)).getD 0 + 1) >>= fun outcome =>
          Step.finishStep ctx name stepId (callId ctx name n)
            (((loaded (callId ctx name n)).map (·.attemptIdx)).getD 0 + 1) config.codec outcome) trace :=
    fun trace => ⟨trivial, fun _ _ => ⟨trivial, fun outcome _ => solo_finishStep outcome⟩⟩
  split
  · exact hrun _
  · unfold Step.startStep
    split
    · exact solo_checkpoint rfl (by rintro e value ⟨⟩) (hrun _)
    · rw [checkpointQueued_of_build (Step.update_buildable ..)]
      refine ⟨rfl, fun a ha => ?_⟩
      obtain rfl : a = .ok () := ha
      exact hrun _

theorem solo_stepReplay (config : StepConfig V) (op : Operation) (hashedId : String) :
    Solo loaded hashedId
      (Resolves (Yields config.codec (ctx.site hashedId name) stepPayload (some op))
        (Reported config.codec (ctx.site hashedId name) hashedId) (op.status ≠ .succeeded))
      (Step.handleReplay ctx (some op) stepId hashedId name config.semantics config.codec) trace := by
  have hrun : op.status ≠ .succeeded → ∀ e (trace : List (Event V)),
      Settled (Yields config.codec (ctx.site hashedId name) stepPayload (some op))
        (Reported config.codec (ctx.site hashedId name) hashedId) trace (.error e) := by
    intro hstatus e trace
    refine .error (not_yields ?_)
    rintro _ ⟨⟩
    exact hstatus
  dsimp only [Step.handleReplay]
  split
  · exact solo_payload stepPayload ‹_›
  · exact hrun (by simp [*]) _ _
  · exact ⟨trivial, fun _ _ => solo_suspend _⟩
  · rename_i hstatus
    have hstatus : op.status ≠ .succeeded := by simp [hstatus]
    split
    · simp only [Step.handleInterrupted, setMode_bind]
      refine ⟨trivial, fun _ _ => ⟨trivial, fun decision _ => ?_⟩⟩
      dsimp only
      split
      · exact solo_checkpoint rfl (fun e => hrun hstatus e _) (solo_suspend _)
      · exact solo_checkpoint rfl (fun e => hrun hstatus e _) (hrun hstatus _ _)
    · exact hstatus
  · rename_i hsucceeded _ _ _
    exact hsucceeded

theorem solo_step (config : StepConfig V) :
    Solo loaded (callId ctx name n) (SettledStep config.codec ctx name n loaded)
      (Step.body ctx name userStep config (ctx.operationId name n) (loaded (callId ctx name n)))
      trace := by
  refine solo_replayed (fun record => Step.handleReplay ctx record (ctx.operationId name n)
    (callId ctx name n) name config.semantics config.codec) rfl
    (fun op _ => solo_stepReplay config op (callId ctx name n)) fun h trace => ?_
  exact Prog.Meets.mono (fun _ _ hr => .sent (not_yields h) hr) solo_runStepExecution

theorem solo_decide {config : WaitConditionConfig V} {id : String} {attempt : Nat} (state : V) :
    Solo loaded id (Reports config.codec (ctx.site id name) id)
      (WaitCondition.decide ctx name config stepId id attempt state) trace := by
  refine solo_safeSerialize fun payload hpayload => ⟨trivial, fun decision _ => ?_⟩
  cases decision with
  | stop =>
    refine solo_checkpoint rfl (by rintro e value ⟨⟩) ?_
    rintro value ⟨⟩
    exact ⟨stepId, _, _, List.mem_cons_self, rfl, rfl, hpayload⟩
  | «continue» delay => exact solo_checkpoint rfl (by rintro e value ⟨⟩) (solo_suspend _)

theorem solo_runAttempt {config : WaitConditionConfig V} {id : String} {attempt : Nat} (state : V) :
    Solo loaded id (Reports config.codec (ctx.site id name) id)
      (WaitCondition.runAttempt ctx name config stepId id attempt state) trace := by
  have hcheck : ∀ {k : Except DurableError V → Act V (DurableResult V)} (trace : List (Event V)),
      (∀ newState, k (.ok newState) =
        WaitCondition.decide ctx name config stepId id attempt newState) →
      (∀ e, k (.error e) = .ret (.error e)) →
        Solo loaded id (Reports config.codec (ctx.site id name) id)
          (getMode >>= fun _ => .act (.checkFn state id) k) trace := by
    intro k trace hok herror
    refine ⟨trivial, fun _ _ => ⟨trivial, fun outcome _ => ?_⟩⟩
    cases outcome with
    | ok newState =>
      rw [hok]
      exact solo_decide newState
    | error e =>
      rw [herror]
      rintro value ⟨⟩
  unfold WaitCondition.runAttempt
  split
  · exact solo_checkpoint rfl (by rintro e value ⟨⟩) (by rintro value ⟨⟩)
  · simp only [WaitCondition.runCheck, getStepData_bind]
    refine solo_getStepData ?_
    cases loaded id with
    | none => exact solo_checkpoint rfl (by rintro e value ⟨⟩) (hcheck _ (fun _ => rfl) fun _ => rfl)
    | some op => exact hcheck _ (fun _ => rfl) fun _ => rfl

theorem solo_runWaitCondition {config : WaitConditionConfig V} {id : String} :
    Solo loaded id (Reports config.codec (ctx.site id name) id)
      (WaitCondition.runWaitCondition ctx name config stepId id) trace := by
  simp only [WaitCondition.runWaitCondition, getStepData_bind]
  refine solo_getStepData ?_
  have hrun : ∀ (state : V) (trace : List (Event V)),
      Solo loaded id (Reports config.codec (ctx.site id name) id)
        (.act (.getStepData id) fun stored => WaitCondition.runAttempt ctx name config stepId id
          ((stored.map (·.attemptIdx)).getD 0 + 1) state) trace :=
    fun state trace => solo_getStepData (solo_runAttempt state)
  unfold WaitCondition.currentState
  split
  · rw [Prog.bind_assoc]
    exact solo_safeDeserialize fun value _ => hrun _ _
  · exact hrun _ _

theorem solo_conditionReplay (config : WaitConditionConfig V) (op : Operation) (hashedId : String) :
    Solo loaded hashedId
      (Resolves (Yields config.codec (ctx.site hashedId name) stepPayload (some op))
        (Reported config.codec (ctx.site hashedId name) hashedId) (op.status ≠ .succeeded))
      (WaitCondition.handleReplay ctx (some op) config.codec hashedId stepId name) trace := by
  dsimp only [WaitCondition.handleReplay]
  split
  · exact solo_payload stepPayload ‹_›
  · refine .error (not_yields ?_)
    rintro _ ⟨⟩
    simp [*]
  · rename_i hsucceeded _
    exact ⟨trivial, fun _ _ => hsucceeded⟩

theorem solo_waitForCondition (config : WaitConditionConfig V) :
    Solo loaded (callId ctx name n) (SettledStep config.codec ctx name n loaded)
      (WaitCondition.body ctx name config (ctx.operationId name n) (loaded (callId ctx name n)))
      trace := by
  refine solo_replayed (fun record => WaitCondition.handleReplay ctx record config.codec
    (callId ctx name n) (ctx.operationId name n) name) rfl
    (fun op _ => solo_conditionReplay config op (callId ctx name n)) fun h trace => ?_
  exact Prog.Meets.mono (fun _ _ hr => .sent (not_yields h) hr) solo_runWaitCondition

end

/-! ## Waits, callbacks and invokes -/

section

variable {loaded : Table} {ctx : ExecutionContext} {name : Option String} {n : Nat}
  {trace : List (Event V)}

theorem solo_wait (duration : Duration) :
    Solo loaded (callId ctx name n)
      (Settled (fun _ => duration.isZero = true ∨
        ∃ op, loaded (callId ctx name n) = some op ∧ op.status = .succeeded) fun _ _ => False)
      (Wait.runWait ctx name duration (ctx.operationId name n) (callId ctx name n)) trace := by
  unfold Wait.runWait
  split
  · exact .said (Or.inl ‹_›) fun _ _ => rfl
  rename_i hzero
  have herror : (∀ op, loaded (callId ctx name n) = some op → op.status ≠ .succeeded) →
      ∀ e (trace : List (Event V)), Settled (fun _ : Unit => duration.isZero = true ∨
        ∃ op, loaded (callId ctx name n) = some op ∧ op.status = .succeeded) (fun _ _ => False) trace
        (.error e) := by
    intro hopen e trace
    refine .error fun _ hsaid => ?_
    obtain hsaid | ⟨op, hop, hstatus⟩ := hsaid
    · exact hzero hsaid
    · exact hopen op hop hstatus
  simp only [getStepData_bind]
  refine solo_getStepData ?_
  cases hop : loaded (callId ctx name n) with
  | some op =>
    dsimp only
    rw [hop] at herror
    split
    · exact .said (Or.inr ⟨op, rfl, ‹_›⟩) fun _ _ => rfl
    · refine herror ?_ _ _
      rintro _ ⟨⟩
      simp [*]
    · exact ⟨trivial, fun _ _ => solo_suspend _⟩
  | none =>
    rw [hop] at herror
    refine solo_checkpoint rfl (fun e => herror (by rintro _ ⟨⟩) e _) ?_
    refine solo_getStepData ?_
    rw [hop]
    exact ⟨trivial, fun _ _ => solo_suspend _⟩

/-- A callback is awaited: its record is finished, or the invocation suspends. -/
theorem solo_await {told : T → Prop} {handle : CallbackHandle V} {id : String}
    {read : String → Act V (Option T)} (hid : handle.hashedId = id)
    (htold : ∀ value, told value → ∃ payload, Holds callbackPayload (loaded id) payload)
    (hread : ∀ payload, Holds callbackPayload (loaded id) payload → ∀ missing trace,
      Solo loaded id (Settled told fun _ _ => False)
        (read payload >>= fun
          | some value => .ret (.ok value)
          | none => .ret (.error (.internal missing))) trace) :
    Solo loaded id (Settled told fun _ _ => False) (Callback.await handle read) trace := by
  subst hid
  have herror : (∀ payload, ¬ Holds callbackPayload (loaded handle.hashedId) payload) →
      ∀ e (trace : List (Event V)), Settled told (fun _ _ => False) trace (.error e) := by
    intro hnone e trace
    refine .error fun value hvalue => ?_
    obtain ⟨payload, hholds⟩ := htold value hvalue
    exact hnone payload hholds
  simp only [Callback.await, getStepData_bind]
  refine solo_getStepData ?_
  cases hop : loaded handle.hashedId with
  | none => exact ⟨trivial, fun _ _ => solo_suspend _⟩
  | some op =>
    rw [hop] at hread herror
    simp only [Option.bind_some, Callback.outcome]
    cases hstatus : op.status with
    | succeeded =>
      dsimp only
      split
      · exact hread _ ⟨op, rfl, hstatus, ‹_›⟩ _ _
      · exact herror (not_holds ‹_›) _ _
    | failed =>
      refine herror ?_ _ _
      rintro payload ⟨_, ⟨⟩, hsucceeded, -⟩
      cases hstatus.symm.trans hsucceeded
    | _ => exact ⟨trivial, fun _ _ => solo_suspend _⟩

/-- A callback that is created and awaited. -/
theorem solo_callback (told : Nat → T → Prop) (config : Option (CallbackConfig V)) (codec : Codec V)
    (read : CallbackHandle V → String → Act V (Option T))
    (htold : ∀ n value, told n value → ∃ payload,
      Holds callbackPayload (loaded (callId ctx name n)) payload)
    (hread : ∀ n callbackId payload, Holds callbackPayload (loaded (callId ctx name n)) payload →
      ∀ missing trace, Solo loaded (callId ctx name n) (Settled (told n) fun _ _ => False)
        (read ⟨callbackId, ctx.operationId name n, callId ctx name n, ctx, codec⟩ payload >>= fun
          | some value => .ret (.ok value)
          | none => .ret (.error (.internal missing))) trace) :
    ∃ k, (ctx.createCallback name config codec).andThen
        (fun handle => Callback.await handle (read handle)) = .act (.fetchAdd ctx.operationCounter) k ∧
      ∀ n trace, Solo loaded (callId ctx name n) (Settled (told n) fun _ _ => False) (k n) trace := by
  simp only [ExecutionContext.createCallback, nextOperationId_bind, getStepData_bind,
    Prog.act_andThen]
  refine ⟨_, rfl, fun n trace => ?_⟩
  have hcreated : ∀ trace, Solo loaded (callId ctx name n) (Settled (told n) fun _ _ => False)
      ((getStepData (callId ctx name n) >>= fun stored => (.ret (.ok (⟨(stored.bind fun op =>
        op.callbackDetails.bind (·.callbackId)).getD s!"{ctx.durableExecutionArn}:{callId ctx name n}",
          ctx.operationId name n, callId ctx name n, ctx, codec⟩ : CallbackHandle V)) :
            Act V (DurableResult (CallbackHandle V)))).andThen
        fun handle => Callback.await handle (read handle)) trace :=
    fun trace => ⟨trivial, fun stored _ => solo_await rfl (htold n) (hread n _)⟩
  refine solo_getStepData ?_
  rw [Prog.andThen_assoc]
  cases hop : loaded (ctx.hashId (ctx.operationId name n)) with
  | none =>
    refine solo_checkpoint rfl (fun e => .error fun value hvalue => ?_) (hcreated _)
    obtain ⟨payload, op, hsome, -⟩ := htold n value hvalue
    cases hop.symm.trans hsome
  | some op => exact hcreated _

theorem solo_invokeOutcome {config : InvokeConfig I V} {functionId hashedId : String} {op : Operation}
    {finished : Act V (DurableResult (Option V))} {unfinished : Prop}
    (h : Invoke.outcome ctx op config.resultCodec hashedId name functionId = some finished) :
    Solo loaded hashedId
      (Resolves (Yields config.resultCodec (ctx.site hashedId name) invokePayload (some op))
        (fun _ _ => False) unfinished) finished trace := by
  unfold Invoke.outcome at h
  split at h
  · obtain rfl := Option.some.inj h
    exact solo_payload invokePayload ‹_›
  · obtain rfl := Option.some.inj h
    refine .error (not_yields ?_)
    rintro _ ⟨⟩
    simp [*]
  · cases h

theorem solo_invokeReplay (config : InvokeConfig I V) (functionId : String) {hashedId : String}
    {op : Operation} (hop : loaded hashedId = some op) :
    Solo loaded hashedId
      (Resolves (Yields config.resultCodec (ctx.site hashedId name) invokePayload (some op))
        (fun _ _ => False) (op.status ≠ .succeeded))
      (Invoke.handleReplay ctx (some op) config.resultCodec hashedId name functionId) trace := by
  dsimp only [Invoke.handleReplay]
  split
  · exact solo_invokeOutcome ‹_›
  · simp only [getStepData_bind]
    refine ⟨trivial, fun _ _ => solo_getStepData ?_⟩
    rw [hop, Option.bind_some]
    split
    · exact solo_invokeOutcome ‹_›
    · exact ⟨trivial, fun _ _ => solo_suspend _⟩

theorem solo_invoke (functionId : String) (input : Option I) (config : InvokeConfig I V) :
    Solo loaded (callId ctx name n)
      (Settled (Yields config.resultCodec (ctx.site (callId ctx name n) name) invokePayload
        (loaded (callId ctx name n))) fun _ _ => False)
      (Invoke.body ctx name functionId input config (ctx.operationId name n)
        (loaded (callId ctx name n))) trace := by
  refine solo_replayed (fun record => Invoke.handleReplay ctx record config.resultCodec
    (callId ctx name n) name functionId) rfl
    (fun op hop => solo_invokeReplay config functionId hop) fun h trace => ?_
  refine solo_safeSerialize fun payload _ => ?_
  exact solo_checkpoint rfl (fun e => .error (not_yields h)) (solo_suspend _)

/-! ## All of them -/

/-- The call has reported what it returns. -/
def DurableCall.Sends (ctx : ExecutionContext) (name : Option String) (n : Nat)
    (trace : List (Event V)) (out : Output V) : DurableCall V I → Prop
  | .step config => ∃ value, out = .value value ∧
      Reported config.codec (ctx.site (callId ctx name n) name) (callId ctx name n) trace value
  | .waitForCondition config => ∃ value, out = .value value ∧
      Reported config.codec (ctx.site (callId ctx name n) name) (callId ctx name n) trace value
  | _ => False

theorem solo_returning {told : T → Prop} {sends : List (Event V) → T → Prop} {hashedId : String}
    {f : T → Output V} {p : Act V (DurableResult T)}
    (h : Solo loaded hashedId (Settled told sends) p trace) :
    Solo loaded hashedId (Settled (fun out => ∃ a, out = f a ∧ told a)
      fun trace out => ∃ a, out = f a ∧ sends trace a) (returning f p) trace := by
  refine Prog.Meets.andThen h (fun a trace ha => ⟨?_, ?_⟩) fun e trace he => ⟨?_, ?_⟩
  · rintro _ ⟨b, rfl, hb⟩
    cases ha.replayed b hb
    rfl
  · rintro _ ⟨⟩
    exact (ha.recorded a rfl).imp (fun h => ⟨a, rfl, h⟩) fun h => ⟨a, rfl, h⟩
  · rintro _ ⟨b, rfl, hb⟩
    cases he.replayed b hb
  · rintro _ ⟨⟩

theorem solo_congr {told told' : T → Prop} {sends sends' : List (Event V) → T → Prop}
    {hashedId : String} {p : Act V (DurableResult T)}
    (h : Solo loaded hashedId (Settled told sends) p trace) (htold : ∀ a, told a ↔ told' a)
    (hsends : ∀ trace a, sends trace a → sends' trace a) :
    Solo loaded hashedId (Settled told' sends') p trace :=
  Prog.Meets.mono (fun trace _ hr => hr.congr htold (hsends trace)) h

variable (loaded ctx name) in
/-- A leaf operation draws its number, and keeps to its operation from then on. -/
theorem solo_leaf {call : DurableCall V I} (hleaf : call.isLeaf = true) :
    ∃ k, call.run ctx name = .act (.fetchAdd ctx.operationCounter) k ∧ ∀ n trace,
      Solo loaded (callId ctx name n) (Settled
        (fun out => call.Says ctx name n (loaded (callId ctx name n)) out)
        fun trace out => call.Sends ctx name n trace out) (k n) trace := by
  cases call with
  | step config =>
    refine ⟨_, rfl, fun n trace => ?_⟩
    exact solo_returning (f := .value) (solo_getStepData (solo_step config))
  | wait duration =>
    refine ⟨_, rfl, fun n trace => ?_⟩
    refine solo_congr (solo_returning (f := fun _ => .unit) (solo_wait duration)) (fun out => ?_) ?_
    · exact ⟨fun ⟨_, hout, htold⟩ => ⟨hout, htold⟩, fun ⟨hout, htold⟩ => ⟨(), hout, htold⟩⟩
    · rintro _ _ ⟨_, -, ⟨⟩⟩
  | waitForCondition config =>
    refine ⟨_, rfl, fun n trace => ?_⟩
    exact solo_returning (f := .value) (solo_getStepData (solo_waitForCondition config))
  | callback config codec =>
    obtain ⟨k, hk, hsolo⟩ := solo_callback
      (fun n => Yields codec (ctx.site (callId ctx name n) (some (ctx.operationId name n)))
        callbackPayload (loaded (callId ctx name n))) config codec
      (fun handle payload => safeDeserialize handle.codec (some payload)
        (handle.executionCtx.site handle.hashedId (some handle.stepId)))
      (fun _ _ ⟨payload, hholds, _⟩ => ⟨payload, hholds⟩) fun n _ payload hholds missing trace => by
        refine solo_decode hholds (fun value hvalue => ?_) fun hnever => .error hnever
        exact .said hvalue fun other hother => hother.unique hvalue
    refine ⟨fun n => returning .value (k n), congrArg (returning Output.value) hk, fun n trace => ?_⟩
    refine solo_congr (solo_returning (hsolo n trace)) (fun _ => Iff.rfl) ?_
    rintro _ _ ⟨_, -, ⟨⟩⟩
  | callbackRaw config codec =>
    obtain ⟨k, hk, hsolo⟩ := solo_callback
      (fun n => Holds callbackPayload (loaded (callId ctx name n))) config codec
      (fun _ payload => .ret (some payload)) (fun _ payload hholds => ⟨payload, hholds⟩)
      fun n _ payload hholds missing trace => .said hholds fun other hother => hother.unique hholds
    refine ⟨fun n => returning .text (k n), congrArg (returning Output.text) hk, fun n trace => ?_⟩
    refine solo_congr (solo_returning (hsolo n trace)) (fun _ => Iff.rfl) ?_
    rintro _ _ ⟨_, -, ⟨⟩⟩
  | invoke functionId input config =>
    refine ⟨_, rfl, fun n trace => ?_⟩
    refine solo_congr (solo_returning (f := .value)
      (solo_getStepData (solo_invoke functionId input config))) (fun _ => Iff.rfl) ?_
    rintro _ _ ⟨_, -, ⟨⟩⟩
  | _ => cases hleaf

end

/-! ## A record that says what the call returns -/

section

variable {loaded : Table} {ctx : ExecutionContext} {name : Option String} {n : Nat}
  {trace : List (Event V)} {call : DurableCall V I} {out : Output V}

theorem prompt_returning {f : T → S} {p : Act V (DurableResult T)} (h : Prompt loaded n trace p) :
    Prompt loaded n trace (returning f p) :=
  Prog.Meets.andThen h (fun _ _ _ => trivial) fun _ _ _ => trivial

theorem prompt_run (h : Prompt loaded n [] (call.program ctx name)) :
    Prompt loaded n [] (call.run ctx name) := by
  cases call with
  | wait duration => exact prompt_returning h
  | _ => exact prompt_returning (prompt_of_forget h)

theorem Yields.readable {codec : Codec T} {site : SerdesSite} {details : Operation → Option String}
    {op : Operation} {value : T} (h : Yields codec site details (some op) value) :
    Readable codec (details op) site.context := by
  obtain ⟨payload, ⟨_, ⟨⟩, -, hpayload⟩, hdecoded⟩ := h
  intro p hp
  obtain rfl := Option.some.inj (hpayload.symm.trans hp)
  exact ⟨_, hdecoded⟩

/-- The call has its answer at hand. -/
theorem DurableCall.Says.prompt (h : call.Says ctx name n (loaded (callId ctx name n)) out) :
    Prompt loaded n [] (call.run ctx name) := by
  apply prompt_run
  obtain ⟨duration, rfl, hzero⟩ | ⟨op, hop, hstatus⟩ := h.succeeded
  · exact prompt_wait_zero hzero
  rw [hop] at h
  have hfinished : ∀ hrecorded : call.Recorded op, call.Reads (callContext ctx name n) op →
      Prompt loaded n [] (call.program ctx name) :=
    fun hrecorded hreads => prompt_of_finished hrecorded hop (Or.inr ⟨hstatus, hreads⟩)
  cases call with
  | step _ | waitForCondition _ | callback _ _ | invoke _ _ _ =>
    obtain ⟨value, -, hvalue⟩ := h
    exact hfinished trivial hvalue.readable
  | wait _ | callbackRaw _ _ => exact hfinished trivial trivial
  | _ => exact h.elim

end

end LambdaDurable
