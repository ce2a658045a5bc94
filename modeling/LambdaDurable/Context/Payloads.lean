import LambdaDurable.Checkpoint.BatchSize
import LambdaDurable.Context.Counters
import LambdaDurable.Context.Parents

/-!
# The size of payloads

A child context and a batch replace a payload over the limit; a step, a condition and an
invoke send what the serdes made.
-/

namespace LambdaDurable

open Effects Call

variable {V I T S : Type}

/-- The payload is within the limit of the service. -/
def OperationUpdate.Fits (u : OperationUpdate) : Prop :=
  ∀ payload, u.payload = some payload → payload.utf8ByteSize ≤ checkpointSizeLimitBytes

def Effect.Sends (P : OperationUpdate → Prop) : Effect V → Prop
  | .checkpoint _ u | .checkpointQueued _ u => P u
  | _ => True

/-- The encoding of the value is within the limit. -/
def Codec.FitsAt (codec : Codec T) (value : Option T) (context : SerdesContext) : Prop :=
  ∀ payload, codec.serialize value context = .ok (some payload) →
    payload.utf8ByteSize ≤ checkpointSizeLimitBytes

theorem OperationUpdate.fits_of_none {u : OperationUpdate} (h : u.payload = none) : u.Fits := by
  intro payload hpayload
  rw [h] at hpayload
  cases hpayload

/-! ## Summaries -/

theorem utf8ByteSize_ofList_le (chars : List Char) :
    (String.ofList chars).utf8ByteSize ≤ 4 * chars.length := by
  induction chars using List.reverseRecOn with
  | nil => exact Nat.le_refl 0
  | append_singleton chars c ih =>
    have hchar := Char.utf8Size_le_four c
    rw [String.ofList_append, String.utf8ByteSize_append, List.length_append]
    have hsingle : (String.ofList [c]).utf8ByteSize = c.utf8Size := by
      rw [← String.singleton_eq_ofList, String.utf8ByteSize_singleton]
    simp only [List.length_singleton]
    omega

theorem utf8ByteSize_toString_le {n k : Nat} (hk : 0 < k) (h : n < 10 ^ k) :
    (toString n).utf8ByteSize ≤ 4 * k := by
  have hlength := (Nat.length_toDigits_le_iff (b := 10) (by decide) hk).mpr h
  have hbytes := utf8ByteSize_ofList_le (Nat.toDigits 10 n)
  rw [Nat.toString_eq_ofList_toDigits]
  omega

theorem batchCompletionReasonStr_le (reason : BatchCompletionReason) :
    (batchCompletionReasonStr reason).utf8ByteSize ≤ 32 := by
  cases reason <;> decide +kernel

theorem batchStatusStr_le (failureCount : Nat) : (batchStatusStr failureCount).utf8ByteSize ≤ 32 := by
  unfold batchStatusStr
  split <;> decide +kernel

theorem summaryKeys_le : ∀ key ∈ ["\x7b\"completionReason\":\"", "\",", "\"failureCount\":",
    ",\"status\":\"", "\"successCount\":", ",\"totalCount\":", ",\"type\":\"MapResult\"\x7d",
    ",\"startedCount\":", ",", "\"status\":\"", "\",\"successCount\":", "\"totalCount\":",
    ",\"type\":\"ParallelResult\"\x7d"], key.utf8ByteSize ≤ 32 := by
  decide +kernel

theorem mapSummaryPayload_le {total success failure : Nat} (htotal : total < 10 ^ 20)
    (hsuccess : success < 10 ^ 20) (hfailure : failure < 10 ^ 20) (reason : BatchCompletionReason) :
    (mapSummaryPayload total success failure reason).utf8ByteSize ≤ checkpointSizeLimitBytes := by
  replace htotal := utf8ByteSize_toString_le (k := 20) (by decide) htotal
  replace hsuccess := utf8ByteSize_toString_le (k := 20) (by decide) hsuccess
  replace hfailure := utf8ByteSize_toString_le (k := 20) (by decide) hfailure
  have hreason := batchCompletionReasonStr_le reason
  have hstatus := batchStatusStr_le failure
  have hstring : ∀ text : String, toString text = text := fun _ => rfl
  have hkeys := summaryKeys_le
  simp only [List.forall_mem_cons] at hkeys
  unfold mapSummaryPayload checkpointSizeLimitBytes
  simp only [String.utf8ByteSize_append]
  simp only [hstring]
  omega

theorem parallelSummaryPayload_le {total success failure started : Nat} (htotal : total < 10 ^ 20)
    (hsuccess : success < 10 ^ 20) (hfailure : failure < 10 ^ 20) (hstarted : started < 10 ^ 20)
    (reason : BatchCompletionReason) :
    (parallelSummaryPayload total success failure started reason).utf8ByteSize ≤
      checkpointSizeLimitBytes := by
  replace htotal := utf8ByteSize_toString_le (k := 20) (by decide) htotal
  replace hsuccess := utf8ByteSize_toString_le (k := 20) (by decide) hsuccess
  replace hfailure := utf8ByteSize_toString_le (k := 20) (by decide) hfailure
  replace hstarted := utf8ByteSize_toString_le (k := 20) (by decide) hstarted
  have hreason := batchCompletionReasonStr_le reason
  have hstatus := batchStatusStr_le failure
  have hstring : ∀ text : String, toString text = text := fun _ => rfl
  have hkeys := summaryKeys_le
  simp only [List.forall_mem_cons] at hkeys
  unfold parallelSummaryPayload checkpointSizeLimitBytes
  simp only [String.utf8ByteSize_append]
  simp only [hstring]
  omega

/-! ## Programs -/

/-- While the answers are admitted, the program sends updates with the property only. -/
abbrev Sends (P : OperationUpdate → Prop) (admits : (e : Effect V) → Answer e → Prop)
    (p : Act V S) : Prop :=
  p.OnlyIf admits (Effect.Sends P)

abbrev Bounded (admits : (e : Effect V) → Answer e → Prop) (p : Act V S) : Prop :=
  Sends OperationUpdate.Fits admits p

section

variable {P : OperationUpdate → Prop} {admits : (e : Effect V) → Answer e → Prop}

theorem sends_suspend (result : TerminationResult) :
    Sends P admits (suspend result : Act V S) :=
  ⟨trivial, fun _ _ => ⟨trivial, fun a => a.elim⟩⟩

theorem sends_checkpoint (stepId what : String) {u : OperationUpdate} (hu : P u) :
    Sends P admits (checkpoint stepId what u : Act V _) := by
  rcases checkpoint_cases (V := V) stepId what u with h | ⟨e, h⟩ <;> rw [h]
  · exact ⟨hu, fun _ _ => trivial⟩
  · trivial

theorem sends_checkpointQueued (stepId what : String) {u : OperationUpdate} (hu : P u) :
    Sends P admits (checkpointQueued stepId what u : Act V _) := by
  rcases checkpointQueued_cases (V := V) stepId what u with h | ⟨e, h⟩ <;> rw [h]
  · exact ⟨hu, fun _ _ => trivial⟩
  · trivial

theorem sends_safeSerialize {codec : Codec T} {value : Option T} {site : SerdesSite}
    {f : Option String → Act V S}
    (hf : ∀ payload, codec.serialize value site.context = .ok payload → Sends P admits (f payload)) :
    Sends P admits (safeSerialize codec value site >>= f) := by
  unfold safeSerialize
  split
  · exact hf _ (by assumption)
  · rw [terminateForSerdesFailure, suspend_bind]
    exact sends_suspend _

theorem sends_safeDeserialize (codec : Codec T) (data : Option String) (site : SerdesSite) :
    Sends P admits (safeDeserialize codec data site : Act V _) := by
  unfold safeDeserialize
  split
  · trivial
  · exact sends_suspend _

theorem sends_safeSerializeRequired (serdes : Serdes T) (value : T) (site : SerdesSite) :
    Sends P admits (safeSerializeRequiredWithSerdes serdes value site : Act V _) := by
  unfold safeSerializeRequiredWithSerdes
  split
  · trivial
  · exact sends_suspend _
  · exact sends_suspend _

theorem sends_safeDeserializeRequired (serdes : Serdes T) (data : String) (site : SerdesSite) :
    Sends P admits (safeDeserializeRequiredWithSerdes serdes data site : Act V _) := by
  unfold safeDeserializeRequiredWithSerdes
  split
  · trivial
  · exact sends_suspend _
  · exact sends_suspend _

theorem sends_returning {f : T → S} {p : Act V (DurableResult T)} (h : Sends P admits p) :
    Sends P admits (returning f p) :=
  Prog.onlyIf_andThen h fun _ => trivial

/-! ### Child contexts -/

theorem childSucceed_fits (ctx : ExecutionContext) (name : Option String) (hashedId subType : String)
    (payload : Option String) : (Child.succeedUpdate ctx name hashedId subType payload).Fits := by
  unfold Child.succeedUpdate
  split
  · rintro _ ⟨⟩
    decide
  · rename_i hsmall
    rintro p hp
    obtain rfl : payload = some p := hp
    simpa using hsmall

theorem bounded_finishChild (ctx : ExecutionContext) (stepId hashedId : String)
    (name : Option String) (subType : String) (codec : Codec T) (r : DurableResult T) :
    Bounded admits (Child.finishChild ctx stepId hashedId name subType codec r : Act V _) := by
  cases r with
  | ok result =>
    apply sends_safeSerialize
    intro payload _
    apply Prog.onlyIf_andThen
    · exact sends_checkpoint _ _ (childSucceed_fits ctx name hashedId subType payload)
    · exact fun _ => trivial
  | error e =>
    apply Prog.onlyIf_andThen
    · exact sends_checkpoint _ _ (OperationUpdate.fits_of_none rfl)
    · exact fun _ => trivial

theorem bounded_fromPayload (codec : Codec T) (payload : Option String) (site : SerdesSite) :
    Bounded admits (Child.fromPayload codec payload site : Act V _) := by
  cases payload with
  | none => trivial
  | some p => exact sends_safeDeserialize _ _ _

theorem bounded_childReplay (ctx : ExecutionContext) (operation : Option Operation) (codec : Codec T)
    (hashedId stepId : String) (name : Option String) :
    Bounded admits (Child.evaluateReplay ctx operation codec hashedId stepId name : Act V _) := by
  unfold Child.evaluateReplay
  cases operation with
  | none => trivial
  | some op =>
    dsimp only
    split
    · split
      · trivial
      · apply Prog.onlyIf_bind (bounded_fromPayload _ _ _)
        rintro (_ | value)
        · apply Prog.onlyIf_bind (bounded_fromPayload _ _ _)
          rintro (_ | value) <;> trivial
        · trivial
    · trivial
    · exact ⟨trivial, fun _ _ => trivial⟩

theorem bounded_runInChildContextWithIds (ctx : ExecutionContext) (stepId hashedId : String)
    (name : Option String) {contextFn : ExecutionContext → Act V (DurableResult T)}
    (config : ChildContextConfig T) (hclosure : ∀ counter, Bounded admits
      (contextFn { ctx with currentParentId := some hashedId, operationCounter := counter })) :
    Bounded admits (ctx.runInChildContextWithIds stepId hashedId name contextFn config) := by
  simp only [ExecutionContext.runInChildContextWithIds, getStepData_bind]
  refine ⟨trivial, fun operation _ => ?_⟩
  apply Prog.onlyIf_andThen (bounded_childReplay ..)
  intro decision
  cases decision with
  | «return» value => trivial
  | replayChildren => exact ⟨trivial, fun _ _ => hclosure _⟩
  | «continue» =>
    simp only [Child.runChildExecution, getStepData_bind]
    refine ⟨trivial, fun operation _ => ?_⟩
    apply Prog.onlyIf_andThen
    · cases operation with
      | none => exact sends_checkpoint _ _ (OperationUpdate.fits_of_none rfl)
      | some op => trivial
    · intro _
      simp only [withParentId_bind]
      refine ⟨trivial, fun _ _ => ?_⟩
      exact Prog.onlyIf_bind (hclosure _) fun outcome => bounded_finishChild _ _ _ _ _ _ outcome

theorem bounded_userContext (child : ExecutionContext) :
    Bounded admits (userContext child : Act V (DurableResult V)) :=
  ⟨trivial, fun _ _ => trivial⟩

/-! ### Steps -/

/-- The closure of a step returns what is encoded within the limit. -/
def ReturnsFitting (admits : (e : Effect V) → Answer e → Prop) (ctx : ExecutionContext) (codec : Codec T)
    (stepFn : String → Nat → Act V (Except BoxError T)) : Prop :=
  ∀ hashedId attempt (f : Except BoxError T → Act V (DurableResult T)),
    (∀ outcome, (∀ value, outcome = .ok value →
      codec.FitsAt (some value) ⟨hashedId, ctx.durableExecutionArn⟩) → Bounded admits (f outcome)) →
    Bounded admits (stepFn hashedId attempt >>= f)

theorem bounded_decideStep (ctx : ExecutionContext) (name : Option String) (hashedId stepId : String)
    (error : BoxError) (attempt : Nat) :
    Bounded admits (.act (.shouldRetry error attempt) fun decision =>
      if decision.shouldRetry then
        (checkpoint stepId "step RETRY"
          (Step.retryUpdate ctx name hashedId error decision.delay)).andThen fun _ =>
            suspend (.new .retryScheduled)
      else
        (checkpoint stepId "step FAIL" (Step.failUpdate ctx name hashedId error)).andThen fun _ =>
          (.ret (.error (.stepFailed stepId attempt error.message)) : Act V (DurableResult T))) := by
  refine ⟨trivial, fun decision _ => ?_⟩
  dsimp only
  split
  · apply Prog.onlyIf_andThen
    · exact sends_checkpoint _ _ (OperationUpdate.fits_of_none rfl)
    · exact fun _ => sends_suspend _
  · apply Prog.onlyIf_andThen
    · exact sends_checkpoint _ _ (OperationUpdate.fits_of_none rfl)
    · exact fun _ => trivial

theorem bounded_stepReplay (ctx : ExecutionContext) (operation : Option Operation)
    (stepId hashedId : String) (name : Option String) (semantics : StepSemantics)
    (codec : Codec T) :
    Bounded admits (Step.handleReplay ctx operation stepId hashedId name semantics codec : Act V _) := by
  unfold Step.handleReplay
  cases operation with
  | none => trivial
  | some op =>
    dsimp only
    split
    · split
      · apply Prog.onlyIf_bind (sends_safeDeserialize _ _ _)
        rintro (_ | value) <;> trivial
      · trivial
    · trivial
    · exact ⟨trivial, fun _ _ => sends_suspend _⟩
    · cases semantics with
      | atLeastOncePerRetry => trivial
      | atMostOncePerRetry => exact ⟨trivial, fun _ _ => bounded_decideStep ..⟩
    · trivial

theorem bounded_step (ctx : ExecutionContext) (name : Option String)
    {stepFn : String → Nat → Act V (Except BoxError T)} (config : StepConfig T)
    (hclosure : ReturnsFitting admits ctx config.codec stepFn) :
    Bounded admits (ctx.step name stepFn config) := by
  simp only [ExecutionContext.step, nextOperationId_bind, getStepData_bind]
  refine ⟨trivial, fun n _ => ⟨trivial, fun operation _ => ?_⟩⟩
  apply Prog.onlyIf_andThen (bounded_stepReplay ..)
  rintro (_ | value)
  · refine ⟨trivial, fun _ _ => ?_⟩
    apply Prog.onlyIf_andThen
    · split
      · trivial
      · unfold Step.startStep
        cases config.semantics with
        | atMostOncePerRetry => exact sends_checkpoint _ _ (OperationUpdate.fits_of_none rfl)
        | atLeastOncePerRetry => exact sends_checkpointQueued _ _ (OperationUpdate.fits_of_none rfl)
    · intro _
      refine ⟨trivial, fun _ _ => hclosure _ _ _ fun outcome houtcome => ?_⟩
      cases outcome with
      | ok result =>
        apply sends_safeSerialize
        intro payload hpayload
        apply Prog.onlyIf_andThen
        · apply sends_checkpoint
          rintro p hp
          obtain rfl : payload = some p := hp
          exact houtcome result rfl p hpayload
        · exact fun _ => trivial
      | error error => exact bounded_decideStep ..
  · trivial

/-! ### Waits, conditions, callbacks and invokes -/

theorem bounded_wait (ctx : ExecutionContext) (name : Option String) (duration : Duration) :
    Bounded admits (ctx.wait name duration : Act V _) := by
  simp only [ExecutionContext.wait, nextOperationId_bind, Wait.runWait, getStepData_bind]
  refine ⟨trivial, fun n _ => ?_⟩
  split
  · trivial
  · refine ⟨trivial, fun operation _ => ?_⟩
    cases operation with
    | some op =>
      dsimp only
      split
      · trivial
      · trivial
      · exact ⟨trivial, fun _ _ => sends_suspend _⟩
    | none =>
      apply Prog.onlyIf_andThen
      · exact sends_checkpoint _ _ (OperationUpdate.fits_of_none rfl)
      · intro _
        refine ⟨trivial, fun operation _ => ?_⟩
        dsimp only
        split
        · trivial
        · trivial
        · exact ⟨trivial, fun _ _ => sends_suspend _⟩

theorem bounded_conditionReplay (ctx : ExecutionContext) (operation : Option Operation)
    (codec : Codec V) (hashedId stepId : String) (name : Option String) :
    Bounded admits (WaitCondition.handleReplay ctx operation codec hashedId stepId name : Act V _) := by
  unfold WaitCondition.handleReplay
  cases operation with
  | none => trivial
  | some op =>
    dsimp only
    split
    · split
      · apply Prog.onlyIf_bind (sends_safeDeserialize _ _ _)
        rintro (_ | value) <;> trivial
      · trivial
    · trivial
    · exact ⟨trivial, fun _ _ => trivial⟩

theorem bounded_waitForCondition (ctx : ExecutionContext) (name : Option String)
    (config : WaitConditionConfig V)
    (hclosure : ∀ state hashedId value, admits (.checkFn state hashedId) (.ok value) →
      config.codec.FitsAt (some value) ⟨hashedId, ctx.durableExecutionArn⟩) :
    Bounded admits (ctx.waitForCondition name config) := by
  simp only [ExecutionContext.waitForCondition, nextOperationId_bind, getStepData_bind]
  refine ⟨trivial, fun n _ => ⟨trivial, fun operation _ => ?_⟩⟩
  apply Prog.onlyIf_andThen (bounded_conditionReplay ..)
  rintro (_ | value)
  · simp only [WaitCondition.runWaitCondition, getStepData_bind]
    refine ⟨trivial, fun operation _ => ?_⟩
    apply Prog.onlyIf_bind
    · unfold WaitCondition.currentState
      split
      · exact Prog.onlyIf_bind (sends_safeDeserialize _ _ _) fun _ => trivial
      · trivial
    intro state
    refine ⟨trivial, fun stored _ => ?_⟩
    unfold WaitCondition.runAttempt
    dsimp only
    split
    · apply Prog.onlyIf_andThen
      · exact sends_checkpoint _ _ (OperationUpdate.fits_of_none rfl)
      · exact fun _ => trivial
    · simp only [WaitCondition.runCheck, getStepData_bind]
      refine ⟨trivial, fun operation _ => ?_⟩
      apply Prog.onlyIf_andThen
      · cases operation with
        | none => exact sends_checkpoint _ _ (OperationUpdate.fits_of_none rfl)
        | some op => trivial
      intro _
      refine ⟨trivial, fun _ _ => ⟨trivial, fun outcome houtcome => ?_⟩⟩
      cases outcome with
      | error e => trivial
      | ok newState =>
        have hfits := hclosure _ _ _ houtcome
        apply sends_safeSerialize
        intro payload hpayload
        refine ⟨trivial, fun decision _ => ?_⟩
        cases decision with
        | stop =>
          apply Prog.onlyIf_andThen
          · apply sends_checkpoint
            rintro p hp
            obtain rfl : payload = some p := hp
            exact hfits p hpayload
          · exact fun _ => trivial
        | «continue» delay =>
          apply Prog.onlyIf_andThen
          · apply sends_checkpoint
            rintro p hp
            obtain rfl : payload = some p := hp
            exact hfits p hpayload
          · exact fun _ => sends_suspend _
  · trivial

theorem bounded_callbackOutcome {op : Operation} {stepId : String} {read : String → Act V (Option T)}
    (hread : ∀ payload, Bounded admits (read payload)) {finished : Act V (DurableResult T)}
    (h : Callback.outcome op stepId read = some finished) : Bounded admits finished := by
  unfold Callback.outcome at h
  split at h
  · obtain rfl := Option.some.inj h
    split
    · apply Prog.onlyIf_bind (hread _)
      rintro (_ | value) <;> trivial
    · trivial
  · obtain rfl := Option.some.inj h
    trivial
  · cases h

theorem bounded_await (handle : CallbackHandle S) {read : String → Act V (Option T)}
    (hread : ∀ payload, Bounded admits (read payload)) :
    Bounded admits (Callback.await handle read) := by
  simp only [Callback.await, getStepData_bind]
  refine ⟨trivial, fun operation _ => ?_⟩
  dsimp only
  split
  · rename_i hfinished
    obtain ⟨op, -, hout⟩ := Option.bind_eq_some_iff.mp hfinished
    exact bounded_callbackOutcome hread hout
  · exact ⟨trivial, fun _ _ => sends_suspend _⟩

theorem bounded_createCallback (ctx : ExecutionContext) (name : Option String)
    (config : Option (CallbackConfig T)) (codec : Codec T) :
    Bounded admits (ctx.createCallback name config codec : Act V _) := by
  simp only [ExecutionContext.createCallback, nextOperationId_bind, getStepData_bind]
  refine ⟨trivial, fun n _ => ⟨trivial, fun operation _ => ?_⟩⟩
  apply Prog.onlyIf_andThen
  · cases operation with
    | none => exact sends_checkpoint _ _ (OperationUpdate.fits_of_none rfl)
    | some op => trivial
  · exact fun _ => ⟨trivial, fun _ _ => trivial⟩

theorem bounded_callbackReplay (ctx : ExecutionContext) (operation : Option Operation)
    (codec : Codec T) (hashedId stepId : String) (name : Option String) :
    Bounded admits (Callback.handleReplay ctx operation codec hashedId stepId name : Act V _) := by
  unfold Callback.handleReplay
  cases operation with
  | none => trivial
  | some op =>
    dsimp only
    split
    · trivial
    · split
      · rename_i hfinished
        apply Prog.onlyIf_andThen
        · exact bounded_callbackOutcome (fun _ => sends_safeDeserialize _ _ _) hfinished
        · exact fun _ => trivial
      · exact ⟨trivial, fun _ _ => sends_suspend _⟩

theorem bounded_waitForCallback (ctx : ExecutionContext) (name : Option String)
    (config : CallbackConfig T) {unitCodec : Codec Unit} (rawCodec : Codec String)
    (hunit : ∀ callbackId attempt, admits (.submitter callbackId attempt) (.ok ()) →
      ∀ hashedId, unitCodec.FitsAt (some ()) ⟨hashedId, ctx.durableExecutionArn⟩) :
    Bounded admits (ctx.waitForCallback name config unitCodec rawCodec : Act V _) := by
  simp only [ExecutionContext.waitForCallback, nextOperationId_bind, getStepData_bind]
  refine ⟨trivial, fun n _ => ⟨trivial, fun operation _ => ?_⟩⟩
  apply Prog.onlyIf_andThen (bounded_callbackReplay ..)
  rintro (_ | value)
  · apply Prog.onlyIf_andThen
    · apply bounded_runInChildContextWithIds
      intro counter
      apply Prog.onlyIf_andThen (bounded_createCallback ..)
      intro handle
      apply Prog.onlyIf_andThen
      · apply bounded_step
        intro hashedId attempt f hf
        refine ⟨trivial, fun outcome houtcome => hf outcome fun value hvalue => ?_⟩
        subst hvalue
        exact hunit _ _ houtcome _
      · intro _
        exact bounded_await _ fun _ => trivial
    · intro rawPayload
      apply Prog.onlyIf_bind (sends_safeDeserialize _ _ _)
      rintro (_ | value) <;> trivial
  · trivial

theorem sends_invokeOutcome {ctx : ExecutionContext} {op : Operation} {codec : Codec T}
    {hashedId functionId : String} {name : Option String}
    {finished : Act V (DurableResult (Option T))}
    (h : Invoke.outcome ctx op codec hashedId name functionId = some finished)
    {f : Option T → Act V (DurableResult S)} (hf : ∀ value, Sends P admits (f (some value))) :
    Sends P admits (finished.andThen f) := by
  unfold Invoke.outcome at h
  split at h
  · obtain rfl := Option.some.inj h
    split
    · unfold safeDeserialize
      split
      · rename_i value _
        cases value with
        | none => trivial
        | some v => exact hf v
      · simp only [terminateForSerdesFailure, suspend_bind, suspend_andThen]
        exact sends_suspend _
    · trivial
  · obtain rfl := Option.some.inj h
    trivial
  · cases h

/-- Only an invoke with no record sends its input. -/
theorem sends_invoke (ctx : ExecutionContext) (name : Option String) (functionId : String)
    (input : Option I) (config : InvokeConfig I T)
    (hinput : ∀ hashedId payload, admits (.getStepData hashedId) none →
      config.payloadCodec.serialize input ⟨hashedId, ctx.durableExecutionArn⟩ = .ok payload →
      P (Invoke.startUpdate ctx name hashedId functionId config.tenantId payload)) :
    Sends P admits (ctx.invokeWithConfig name functionId input config : Act V _) := by
  simp only [ExecutionContext.invokeWithConfig, nextOperationId_bind, getStepData_bind]
  refine ⟨trivial, fun n _ => ⟨trivial, fun operation hoperation => ?_⟩⟩
  simp only [Invoke.body, Invoke.handleReplay, getStepData_bind]
  cases operation with
  | none =>
    apply sends_safeSerialize
    intro payload hpayload
    apply Prog.onlyIf_andThen
    · exact sends_checkpoint _ _ (hinput _ _ hoperation hpayload)
    · exact fun _ => sends_suspend _
  | some op =>
    dsimp only
    split
    · rename_i hfinished
      exact sends_invokeOutcome hfinished fun _ => trivial
    · refine ⟨trivial, fun _ _ => ⟨trivial, fun refreshed _ => ?_⟩⟩
      dsimp only
      split
      · rename_i hfinished
        obtain ⟨op, -, hout⟩ := Option.bind_eq_some_iff.mp hfinished
        exact sends_invokeOutcome hout fun _ => trivial
      · exact ⟨trivial, fun _ _ => ⟨trivial, fun _ _ => ⟨trivial, fun a => a.elim⟩⟩⟩

/-! ### Batches -/

/-- The summary of counts that a machine word can hold is within the limit. -/
def BatchSpec.Terse (spec : BatchSpec) : Prop :=
  ∀ (total success failure started : Nat) (reason : BatchCompletionReason), total < 10 ^ 20 →
    success ≤ total → failure ≤ total → started ≤ total →
    (spec.summary total success failure started reason).utf8ByteSize ≤ checkpointSizeLimitBytes

theorem map_terse : Batch.map.Terse := by
  intro total success failure started reason htotal hsuccess hfailure _
  exact mapSummaryPayload_le htotal (by omega) (by omega) reason

theorem parallel_terse : Batch.parallel.Terse := by
  intro total success failure started reason htotal hsuccess hfailure hstarted
  exact parallelSummaryPayload_le htotal (by omega) (by omega) (by omega) reason

section

variable {spec : BatchSpec} (ctx : ExecutionContext) (name : Option String) (cfg : BatchConfig V)

theorem batchSucceed_fits (hashedId payload : String) {summary : String}
    (hsummary : summary.utf8ByteSize ≤ checkpointSizeLimitBytes) :
    (Batch.succeedUpdate spec hashedId payload summary).Fits := by
  unfold Batch.succeedUpdate
  dsimp only
  split
  · rintro p ⟨⟩
    exact hsummary
  · rename_i hsmall
    rintro p ⟨⟩
    exact Nat.le_of_not_lt hsmall

theorem bounded_complete (hterse : spec.Terse) (stepId hashedId : String) (totalItems : Nat)
    {p : Batch.Progress V} (hp : p.completedCount + p.started.length < 10 ^ 20) :
    Bounded admits (Batch.complete spec ctx name cfg stepId hashedId totalItems p) := by
  apply Prog.onlyIf_bind (sends_safeSerializeRequired _ _ _)
  intro payload
  apply Prog.onlyIf_andThen
  · apply sends_checkpoint
    apply batchSucceed_fits
    unfold Batch.Progress.completedCount at hp ⊢
    apply hterse <;> omega
  · exact fun _ => trivial

/-- What the program does with the children left and those started. -/
theorem bounded_spawnChildren (totalItems : Nat) {p : Batch.Progress V}
    {children : List (String × Nat)} {f : List (String × Nat) × Batch.Progress V → Act V S}
    (hf : ∀ r, r.2.completedCount = p.completedCount →
      r.2.started.length + r.1.length = p.started.length + children.length → Bounded admits (f r)) :
    Bounded admits (Batch.spawnChildren ctx cfg totalItems p children >>= f) := by
  induction children generalizing p with
  | nil => exact hf ([], p) rfl rfl
  | cons child rest ih =>
    unfold Batch.spawnChildren
    split
    · simp only [nextOperationId_bind, Prog.act_bind]
      refine ⟨trivial, fun n _ => ⟨trivial, fun _ _ => ?_⟩⟩
      apply ih
      intro r hcompleted hlength
      apply hf r hcompleted
      simp only [List.length_append, List.length_cons, List.length_nil] at hlength ⊢
      omega
    · exact hf _ rfl rfl

theorem Batch.Progress.join_counts (p : Batch.Progress V) (index : Nat) (res : DurableResult V) :
    (p.join index res).completedCount = p.completedCount + 1 ∧
      (p.join index res).started.length ≤ p.started.length := by
  have herase := List.length_erase_le (a := index) (l := p.started)
  cases res <;> simp [Batch.Progress.join, Batch.Progress.completedCount, herase] <;> omega

/-- A turn of the loop joins a child, and a child is started once. -/
theorem bounded_runLoop (hterse : spec.Terse) (stepId hashedId : String) (totalItems : Nat)
    {afterLoop : Batch.Progress V → Act V (DurableResult (BatchResult V))}
    (hafter : ∀ p, p.completedCount + p.started.length < 10 ^ 20 → Bounded admits (afterLoop p))
    (turns : Nat) {children : List (String × Nat)} {p : Batch.Progress V}
    (hp : p.completedCount + p.started.length + children.length + turns < 10 ^ 20) :
    Bounded admits (Batch.runLoop spec ctx name cfg stepId hashedId totalItems afterLoop turns
      children p) := by
  induction turns generalizing children p with
  | zero => exact ⟨trivial, fun a => a.elim⟩
  | succ turns ih =>
    unfold Batch.runLoop
    apply bounded_spawnChildren
    rintro ⟨rest, spawned⟩ hcompleted hlength
    dsimp only at hcompleted hlength ⊢
    split
    · exact hafter _ (by omega)
    · refine ⟨trivial, fun joined _ => ?_⟩
      cases joined with
      | error e => trivial
      | ok joined =>
        obtain ⟨index, res⟩ := joined
        obtain ⟨hone, hstarted⟩ := spawned.join_counts index res
        dsimp only [Batch.joined]
        split
        · split
          · exact bounded_complete ctx name cfg hterse _ _ _ (by omega)
          · exact ⟨trivial, fun _ _ => bounded_complete ctx name cfg hterse _ _ _ (by omega)⟩
        · exact ih (by omega)

theorem bounded_runChild (batchHashedId childStepId childHashedId itemName : String) :
    Bounded admits (Batch.runChild spec ctx cfg batchHashedId childStepId childHashedId itemName) := by
  unfold Batch.runChild
  simp only [withParentId_bind]
  exact ⟨trivial, fun _ _ => bounded_runInChildContextWithIds _ _ _ _ _ fun _ => bounded_userContext _⟩

theorem bounded_consumeIds (itemNames : List String) :
    Bounded admits (Batch.consumeIds ctx itemNames : Act V Unit) := by
  induction itemNames with
  | nil => trivial
  | cons itemName rest ih => exact ⟨trivial, fun _ _ => ih⟩

theorem bounded_batchReplay (itemNames : List String) (hashedId : String) :
    Bounded admits (Batch.evaluateReplay spec ctx name cfg itemNames hashedId) := by
  simp only [Batch.evaluateReplay, getStepData_bind]
  refine ⟨trivial, fun operation _ => ?_⟩
  cases operation with
  | none => trivial
  | some op =>
    dsimp only
    split
    · trivial
    · split
      · trivial
      · split
        · split
          · trivial
          · split <;> trivial
        · apply Prog.onlyIf_bind (sends_safeDeserializeRequired _ _ _)
          intro batch
          split
          · trivial
          · exact Prog.onlyIf_bind (bounded_consumeIds _ _) fun _ => trivial
    · exact ⟨trivial, fun _ _ => trivial⟩

theorem bounded_reconstructChildren (parent : ExecutionContext) (children : List (String × Nat))
    (p : Batch.Progress V) :
    Bounded admits (Batch.reconstructChildren spec ctx cfg parent children p) := by
  induction children generalizing p with
  | nil => trivial
  | cons child rest ih =>
    simp only [Batch.reconstructChildren, nextOperationId_bind, getStepData_bind]
    refine ⟨trivial, fun n _ => ⟨trivial, fun operation _ => ?_⟩⟩
    cases operation with
    | none => trivial
    | some op =>
      apply Prog.onlyIf_andThen
      · unfold Batch.reconstructChild
        split
        · split
          · apply Prog.onlyIf_bind
            · exact bounded_runInChildContextWithIds _ _ _ _ _ fun _ => bounded_userContext _
            · exact fun _ => trivial
          · apply Prog.onlyIf_bind (sends_safeDeserialize _ _ _)
            rintro (_ | value) <;> trivial
        · trivial
        · trivial
      · exact fun _ => ih _

theorem bounded_reconstruct (itemNames : List String) (hashedId : String) (totalCount : Nat) :
    Bounded admits (Batch.reconstructFromChildren spec ctx cfg itemNames hashedId totalCount) := by
  unfold Batch.reconstructFromChildren
  split
  · trivial
  · simp only [withParentId_bind]
    refine ⟨trivial, fun _ _ => ?_⟩
    exact Prog.onlyIf_andThen (bounded_reconstructChildren _ _ _ _ _) fun _ => trivial

theorem bounded_batchRun (itemNames : List String)
    {execute : String → String → Act V (DurableResult (BatchResult V))}
    (hexecute : ∀ stepId hashedId, Bounded admits (execute stepId hashedId)) :
    Bounded admits (Batch.run spec ctx name cfg itemNames execute) := by
  unfold Batch.run
  split
  · trivial
  · simp only [getMode_bind, nextOperationId_bind, getStepData_bind]
    refine ⟨trivial, fun mode _ => ⟨trivial, fun n _ => ⟨trivial, fun operation _ => ?_⟩⟩⟩
    apply Prog.onlyIf_andThen
    · cases operation with
      | none => exact sends_checkpoint _ _ (OperationUpdate.fits_of_none rfl)
      | some op => trivial
    · intro _
      cases mode with
      | execution => exact hexecute _ _
      | replay =>
        apply Prog.onlyIf_andThen (bounded_batchReplay ..)
        rintro (result | totalCount | _)
        · trivial
        · exact bounded_reconstruct ..
        · exact hexecute _ _

theorem bounded_runMapExecution {itemNames : List String} (hitems : itemNames.length < 2 ^ 64)
    (stepId hashedId : String) :
    Bounded admits (Batch.runMapExecution ctx name cfg itemNames stepId hashedId) := by
  unfold Batch.runMapExecution
  split
  · exact bounded_complete (p := {}) ctx name cfg map_terse _ _ _ (Nat.pow_pos (by decide))
  · apply bounded_runLoop ctx name _ map_terse
    · exact fun _ _ => ⟨trivial, fun a => a.elim⟩
    · simp [Batch.Progress.completedCount]
      omega

theorem bounded_runParallelExecution {itemNames : List String}
    (hitems : itemNames.length < 2 ^ 64) (stepId hashedId : String) :
    Bounded admits (Batch.runParallelExecution ctx name cfg itemNames stepId hashedId) := by
  apply bounded_runLoop ctx name _ parallel_terse
  · exact fun _ => bounded_complete _ _ _ parallel_terse _ _ _
  · simp [Batch.Progress.completedCount]
    omega

theorem bounded_map {items : List I} (config : MapConfig I V) (hitems : items.length < 2 ^ 64) :
    Bounded admits (ctx.map name items config) := by
  apply bounded_batchRun
  apply bounded_runMapExecution
  simpa using hitems

theorem bounded_parallel {branches : List (Option String)} (hbranches : branches.length < 2 ^ 64) :
    Bounded admits (ctx.parallel name branches cfg) := by
  apply bounded_batchRun
  apply bounded_runParallelExecution
  simpa using hbranches

end

end

/-! ## The queue -/

namespace CheckpointManager

variable {P : OperationUpdate → Prop} {loaded : Table} {s t : State} {l : Label}

theorem Move.queue_cases (hm : Move s l t) {e : QueuedCheckpoint} (he : e ∈ t.queue) :
    e ∈ s.queue ∨ ∃ c k, s.callers c = some k ∧ e = k.queued c := by
  cases hm with
  | @push c k hk hp =>
    apply (List.mem_append.mp he).imp_right
    intro hmem
    exact ⟨c, k, hk, List.mem_singleton.mp hmem⟩
  | take hw hne =>
    left
    rw [← buildBatch_append s.queue]
    exact List.mem_append_right _ he
  | readToken _ | send _ _ | accept _ | reject _ _ | fail _ | writeToken _ | merge _ =>
    rw [setCall_queue] at he
    exact Or.inl he
  | drain hw => cases he
  | _ => exact Or.inl he

/-- The updates of the calls and of the queue have the property. -/
structure Carries (P : OperationUpdate → Prop) (s : State) : Prop where
  callers : ∀ c k, s.callers c = some k → P k.update
  queue : ∀ e ∈ s.queue, P e.update

theorem Carries.new (token : String) : Carries P (.new token loaded) where
  callers c k hk := by cases hk
  queue e he := by cases he

theorem Carries.step (h : Carries P s) (hm : Move s l t)
    (hcall : ∀ c kind stepId update, l = .call c kind stepId update → P update) : Carries P t where
  callers c k hk := by
    obtain ⟨k', hk', -, hqueued, -⟩ | ⟨-, kind, stepId, update, hl, rfl⟩ := hm.callers_cases hk
    · rw [Caller.update_eq_of_queued hqueued]
      exact h.callers c k' hk'
    · exact hcall c kind stepId update hl
  queue e he := by
    obtain hbefore | ⟨c, k, hk, rfl⟩ := hm.queue_cases he
    · exact h.queue e hbefore
    · exact h.callers c k hk

end CheckpointManager

/-! ## The invocation -/

namespace Tasks

variable {P : OperationUpdate → Prop} {token : String} {loaded : Table} {root : ExecutionContext}
  {s s' : State V I} {l : Label V I} {task : Task V I}

/-- A rule for the answers of a task. -/
abbrev Rule (V I : Type) : Type :=
  ExecutionContext → Origin V I → (e : Effect V) → Answer e → Prop

/-- Every task sends updates with the property only, as long as its answers follow the rule. -/
structure Sending (P : OperationUpdate → Prop) (rule : Rule V I) (s : State V I) : Prop where
  tasks : ∀ task ∈ s.tasks, Sends P (rule task.ctx task.origin) task.program
  manager : CheckpointManager.Carries P s.manager

/-- A call that begins sends such updates, and what a task is answered follows the rule. -/
structure Regular (P : OperationUpdate → Prop) (rule : Rule V I) (loaded : Table) (s : State V I)
    (l : Label V I) : Prop where
  begins : ∀ c name call ctx, l = .begin c name call → s.contexts[c]? = some ctx →
    Sends P (rule ctx (.call name call)) (call.run ctx name)
  performs : ∀ t choose task e a, l = .perform t choose → s.tasks[t]? = some task →
    nextEffect task.program = some e → instant loaded s.mode (s.choices choose) e = some a →
    rule task.ctx task.origin e a

/-- The rule says nothing of joins and of the manager, and with it the children of a batch send
such updates. -/
structure Rule.Sound (P : OperationUpdate → Prop) (rule : Rule V I) : Prop where
  joins : ∀ ctx origin a, rule ctx origin .joinNext a
  manager : ∀ ctx origin m n e a, outcome m n e = some a → rule ctx origin e a
  children : ∀ (spec : BatchSpec) (ctx child : ExecutionContext) (cfg : BatchConfig V)
    (batch index : Nat) (batchHashedId childStepId childHashedId itemName : String),
    Sends P (rule child (.child batch index)) (returning Output.value
      (Batch.runChild spec ctx cfg batchHashedId childStepId childHashedId itemName))

theorem Move.instant_of_trace (hm : Move loaded s l s') {j : Nat} {task' : Task V I} {e : Effect V}
    {a : Answer e} (hj : s.tasks[j]? = some task) (hj' : s'.tasks[j]? = some task')
    (htrace : task'.trace = ⟨e, a⟩ :: task.trace) {choose : (e : Effect V) → Option (Answer e)}
    (hl : l = .perform j choose) : instant loaded s.mode (s.choices choose) e = some a := by
  subst hl
  cases hm with
  | @perform _ _ actor e' r he hr =>
    obtain rfl : actor = task := Option.some.inj (hr.mem.symm.trans hj)
    obtain ⟨after, e'', k, a'', hmem, -, -, hafter, hinstant⟩ := hr.performs
    obtain rfl : after = task' := Option.some.inj ((getElem?_after r actor e' hmem).symm.trans hj')
    rw [htrace] at hafter
    cases hafter
    exact hinstant

theorem Sending.new (token : String) (loaded : Table) (mode : ExecutionMode)
    (root : ExecutionContext) (rule : Rule V I) : Sending P rule (.new token loaded mode root) where
  tasks _ h := by cases h
  manager := .new token

theorem Sending.step {rule : Rule V I} (h : Sending P rule s) (hrule : rule.Sound P)
    (hl : Regular P rule loaded s l) (hm : Move loaded s l s') : Sending P rule s' where
  tasks task' htask' := by
    obtain ⟨j, hj⟩ := List.mem_iff_getElem?.mp htask'
    have hgrows := hm.grows
    by_cases hlt : j < s.tasks.length
    · obtain ⟨task, htask⟩ : ∃ task, s.tasks[j]? = some task := ⟨_, List.getElem?_eq_getElem hlt⟩
      obtain ⟨_, hkept, hsame⟩ := hgrows.kept j task htask
      obtain rfl := Option.some.inj (hkept.symm.trans hj)
      obtain ⟨_, hadvanced, hadvances⟩ := hm.advances htask
      obtain rfl := Option.some.inj (hadvanced.symm.trans hj)
      have hsends := h.tasks task (List.mem_of_getElem? htask)
      rw [hsame.ctx, hsame.origin]
      cases hadvances with
      | idle hprogram _ _ => rwa [hprogram]
      | @answered e k a hprogram hafter htrace hanswered =>
        rw [hprogram] at hsends
        rw [hafter]
        apply hsends.2
        cases hanswered with
        | @perform _ choose _ _ _ =>
          have hnext : nextEffect task.program = some e := by
            rw [hprogram]
            rfl
          exact hl.performs j choose task e a rfl htask hnext
            (hm.instant_of_trace htask hj htrace rfl)
        | resume houtcome => exact hrule.manager _ _ _ _ _ _ houtcome
        | join _ _ _ | panic => exact hrule.joins _ _ _
    · rw [hgrows.new j (by omega)] at hj
      rcases mem_started (List.mem_of_getElem? hj) with
        ⟨c, name, call, ctx, hbegin, hctx, rfl⟩ | ⟨t, task, e, -, -, hspawned⟩
      · exact hl.begins c name call ctx hbegin hctx
      · obtain ⟨_, _, _, _, _, _, _, -, -, rfl⟩ := mem_spawned hspawned
        exact hrule.children ..
  manager := by
    obtain hsame | ⟨m, hstep, hcases⟩ := hm.manager_cases
    · rw [hsame]
      exact h.manager
    · apply h.manager.step (CheckpointManager.move_of_step hstep)
      rintro c kind stepId update rfl
      obtain ⟨hcall, -⟩ | ⟨t, n, task, e, k, -, htask, hprogram, hrequest⟩ := hcases
      · cases hcall
      · have hsends := h.tasks task (List.mem_of_getElem? htask)
        rw [hprogram] at hsends
        cases e <;> cases hrequest
        all_goals exact hsends.1

theorem sending {rule : Rule V I} (hrule : rule.Sound P)
    (h : (machine token loaded root).ReachableBy (Regular P rule loaded) s) : Sending P rule s := by
  apply h.invariant
  · rintro _ ⟨-, mode, rfl⟩
    exact .new token loaded mode root rule
  · intro s l s' _ hs hl hstep
    exact hs.step hrule hl (move_of_step hstep)

/-- The values of the closures and the input are encoded within the limit. -/
def Encodes : Rule V I
  | ctx, .call _ (.step config), .stepFn hashedId _, .ok value =>
    config.codec.FitsAt (some value) ⟨hashedId, ctx.durableExecutionArn⟩
  | ctx, .call _ (.waitForCondition config), .checkFn _ hashedId, .ok value =>
    config.codec.FitsAt (some value) ⟨hashedId, ctx.durableExecutionArn⟩
  | ctx, .call _ (.waitForCallback _ unitCodec _), .submitter _ _, .ok () =>
    ∀ hashedId, unitCodec.FitsAt (some ()) ⟨hashedId, ctx.durableExecutionArn⟩
  | ctx, .call _ (.invoke _ input config), .getStepData hashedId, none =>
    config.payloadCodec.FitsAt input ⟨hashedId, ctx.durableExecutionArn⟩
  | _, _, _, _ => True

/-- The number of items is a machine word. -/
def Counted : DurableCall V I → Prop
  | .map items _ => items.length < 2 ^ 64
  | .parallel branches _ => branches.length < 2 ^ 64
  | _ => True

theorem encodes_sound : (Encodes : Rule V I).Sound OperationUpdate.Fits where
  joins ctx origin a := by
    cases origin with
    | child batch index => trivial
    | call name call => cases call <;> trivial
  manager ctx origin m n e a houtcome := by
    cases origin with
    | child batch index => trivial
    | call name call => cases call <;> cases e <;> trivial
  children spec ctx child cfg batch index batchHashedId childStepId childHashedId itemName :=
    sends_returning (bounded_runChild ctx cfg _ _ _ _)

theorem bounded_call (ctx : ExecutionContext) (name : Option String) {call : DurableCall V I}
    (hcounted : Counted call) : Bounded (Encodes ctx (.call name call)) (call.run ctx name) := by
  cases call with
  | step config =>
    apply sends_returning
    apply bounded_step
    intro hashedId attempt f hf
    refine ⟨trivial, fun outcome houtcome => hf outcome fun value hvalue => ?_⟩
    subst hvalue
    exact houtcome
  | wait duration => exact sends_returning (bounded_wait ..)
  | waitForCondition config =>
    exact sends_returning (bounded_waitForCondition ctx name config fun _ _ _ h => h)
  | callback config codec =>
    apply sends_returning
    apply Prog.onlyIf_andThen (bounded_createCallback ..)
    exact fun handle => bounded_await handle fun _ => sends_safeDeserialize ..
  | callbackRaw config codec =>
    apply sends_returning
    apply Prog.onlyIf_andThen (bounded_createCallback ..)
    exact fun handle => bounded_await handle fun _ => trivial
  | waitForCallback config unitCodec rawCodec =>
    exact sends_returning (bounded_waitForCallback ctx name config rawCodec fun _ _ h => h)
  | invoke functionId input config =>
    apply sends_returning
    apply sends_invoke
    rintro hashedId payload hrecord hpayload p hp
    obtain rfl : payload = some p := hp
    exact hrecord p hpayload
  | runInChildContext config =>
    apply sends_returning
    simp only [ExecutionContext.runInChildContext, nextOperationId_bind]
    refine ⟨trivial, fun n _ => ?_⟩
    exact bounded_runInChildContextWithIds _ _ _ _ _ fun _ => bounded_userContext _
  | map items config => exact sends_returning (bounded_map ctx name config hcounted)
  | parallel branches config => exact sends_returning (bounded_parallel ctx name config hcounted)

/-- Steps whose encodings are within the limit. -/
structure Encoded (loaded : Table) (s : State V I) (l : Label V I) : Prop where
  begins : ∀ c name call, l = .begin c name call → Counted call
  performs : ∀ t choose task e a, l = .perform t choose → s.tasks[t]? = some task →
    nextEffect task.program = some e → instant loaded s.mode (s.choices choose) e = some a →
    Encodes task.ctx task.origin e a

/-- As long as a step, a condition and an invoke have encodings within the limit, every
payload in the queue is. -/
theorem payloads_fit (h : (machine token loaded root).ReachableBy (Encoded loaded) s) :
    ∀ e ∈ s.manager.queue, e.update.Fits := by
  apply CheckpointManager.Carries.queue
  apply @Sending.manager V I _ Encodes
  apply sending encodes_sound
  apply h.mono
  intro s l hl
  constructor
  · intro c name call ctx hbegin _
    exact bounded_call ctx name (hl.begins c name call hbegin)
  · exact hl.performs

instance (codec : Codec T) (value : Option T) (context : SerdesContext) :
    Decidable (codec.FitsAt value context) :=
  match h : codec.serialize value context with
  | .ok (some payload) =>
    decidable_of_iff (payload.utf8ByteSize ≤ checkpointSizeLimitBytes)
      ⟨fun hle p hp => by cases h.symm.trans hp; exact hle, fun hfits => hfits payload h⟩
  | .ok none => isTrue fun p hp => by cases h.symm.trans hp
  | .error _ => isTrue fun p hp => by cases h.symm.trans hp

/-- A step of a task that runs a step closure. -/
def encodesStep (ctx : ExecutionContext) (origin : Origin V I) (e : Effect V) (a : Answer e) : Bool :=
  match origin, e, a with
  | .call _ (.step config), .stepFn hashedId _, .ok value =>
    decide (config.codec.FitsAt (some value) ⟨hashedId, ctx.durableExecutionArn⟩)
  | .call _ (.step _), _, _ => true
  | _, _, _ => false

theorem encodes_of_encodesStep {ctx : ExecutionContext} {origin : Origin V I} {e : Effect V}
    {a : Answer e} (h : encodesStep ctx origin e a = true) : Encodes ctx origin e a := by
  unfold encodesStep at h
  split at h
  · have hfits := of_decide_eq_true h
    exact hfits
  · rename_i config _ _ hne
    cases e with
    | stepFn hashedId attempt =>
      cases a with
      | ok value => exact (hne hashedId attempt value rfl HEq.rfl).elim
      | error e => trivial
    | _ => trivial
  · cases h

/-- Only a step is called, and its encodings fit. -/
def encodedStep (loaded : Table) (s : State V I) : Label V I → Bool
  | .begin _ _ (.step _) => true
  | .begin _ _ _ => false
  | .perform t choose => (s.tasks[t]?).all fun task =>
    (nextEffect task.program).all fun e =>
      (instant loaded s.mode (s.choices choose) e).all (encodesStep task.ctx task.origin e)
  | _ => true

theorem encodedStep_sound (h : encodedStep loaded s l = true) : Encoded loaded s l where
  begins c name call hl := by
    subst hl
    cases call <;> trivial
  performs t choose task e a hl htask he ha := by
    subst hl
    apply encodes_of_encodesStep
    simpa [encodedStep, htask, he, ha] using h

/-- The step closure returns. -/
def returnsStep (t v : Nat) : Label Nat Nat :=
  .perform t fun
    | .stepFn _ _ => some (.ok v)
    | _ => none

/-- A call is queued. -/
def queued (t n : Nat) : List (Label Nat Nat) :=
  .request t n :: [.checkTerminating n, .checkAncestor n, .track n, .push n].map .manager

def valueRun : List (Label Nat Nat) :=
  [.begin 0 (some "a") (.step { codec := .nat }), quick 0, quick 0, quick 0] ++ asked 0 0 0 ++
    [.resume 0, quick 0, returnsStep 0 7] ++ queued 0 1

theorem payloads_fit_valueRun : ∃ s : State Nat Nat,
    s.manager.queue.map (·.update.payload) = [none, some "7"] ∧
      ∀ e ∈ s.manager.queue, e.update.Fits := by
  have hend : ((machine "t0" (fun _ => none) rootContext).checkedRun (encodedStep fun _ => none)
      (.new "t0" (fun _ => none) .execution rootContext) valueRun).map
      (fun s => s.manager.queue.map (·.update.payload)) = some [none, some "7"] := by decide +kernel
  obtain ⟨s, hrun, hs⟩ := Option.map_eq_some_iff.mp hend
  refine ⟨s, hs, @payloads_fit Nat Nat "t0" (fun _ => none) rootContext s ?_⟩
  exact Transition.Machine.checkedRun_reachableBy (fun _ _ _ => encodedStep_sound) valueRun
    (.init ⟨rfl, _, rfl⟩) hrun

/-! ### A payload over the limit -/

def oversized : String := String.ofList (List.replicate (checkpointSizeLimitBytes + 1) 'a')

def oversizedCodec : Codec Nat where
  json := ⟨fun _ => .ok oversized, fun _ => .error "expected value"⟩

def oversizedInvoke : DurableCall Nat Nat :=
  .invoke "f" (some 0) { payloadCodec := oversizedCodec, resultCodec := .nat }

/-- A payload of the update is the oversized one. -/
def Oversized (u : OperationUpdate) : Prop := ∀ payload, u.payload = some payload → payload = oversized

/-- No task is the child of a batch. -/
def Childless : Rule Nat Nat
  | _, .child _ _, .newCounter, _ => False
  | _, _, _, _ => True

theorem childless_sound : Childless.Sound Oversized where
  joins ctx origin a := by cases origin <;> trivial
  manager ctx origin m n e a houtcome := by
    cases origin with
    | call name call => trivial
    | child batch index => cases e <;> trivial
  children spec ctx child cfg batch index batchHashedId childStepId childHashedId itemName :=
    ⟨trivial, fun _ h => h.elim⟩

theorem sends_oversizedInvoke (ctx : ExecutionContext) (name : Option String) :
    Sends Oversized (Childless ctx (.call name oversizedInvoke)) (oversizedInvoke.run ctx name) := by
  apply sends_returning
  apply sends_invoke
  intro hashedId payload _ hpayload p hp
  obtain rfl : payload = some p := hp
  exact (Option.some.inj (Except.ok.inj hpayload)).symm

def childless (s : State Nat Nat) : Label Nat Nat → Bool
  | .begin _ _ _ => false
  | .perform t _ => (s.tasks[t]?).all fun task =>
    match task.origin with
    | .call _ _ => true
    | .child _ _ => false
  | _ => true

theorem childless_regular {s : State Nat Nat} {l : Label Nat Nat} (h : childless s l = true) :
    Regular Oversized Childless loaded s l where
  begins c name call ctx hl _ := by
    subst hl
    cases h
  performs t choose task e a hl htask _ _ := by
    subst hl
    simp only [childless, htask, Option.all_some] at h
    split at h
    · rename_i horigin
      rw [horigin]
      trivial
    · cases h

theorem oversized_not_fits {u : OperationUpdate} (hu : Oversized u) (hsome : u.payload.isSome = true) :
    ¬ u.Fits := by
  intro hfits
  obtain ⟨payload, hpayload⟩ := Option.isSome_iff_exists.mp hsome
  have hle := hfits payload hpayload
  rw [hu payload hpayload, oversized, utf8ByteSize_replicate] at hle
  omega

/-- An invoke puts an input over the limit in the queue. -/
theorem payload_over_limit : ∃ s : State Nat Nat,
    (machine "t0" (fun _ => none) rootContext).Reachable s ∧
      ∃ e ∈ s.manager.queue, ¬ e.update.Fits := by
  have hend : ((step (fun _ => none) (.new "t0" (fun _ => none) .execution rootContext)
      (.begin 0 (some "a") oversizedInvoke)).bind fun s =>
        (machine "t0" (fun _ => none) rootContext).checkedRun childless s
          ([quick 0, quick 0] ++ queued 0 0)).map
      (fun s => s.manager.queue.map (·.update.payload.isSome)) = some [true] := by decide +kernel
  obtain ⟨s, hs, hqueue⟩ := Option.map_eq_some_iff.mp hend
  obtain ⟨begun, hbegun, hrun⟩ := Option.bind_eq_some_iff.mp hs
  have hreach : (machine "t0" (fun _ => none) rootContext).ReachableBy
      (Regular Oversized Childless fun _ => none) s := by
    have hbegins : Regular Oversized Childless (fun _ => none)
        (.new "t0" (fun _ => none) .execution rootContext) (.begin 0 (some "a") oversizedInvoke) := by
      constructor
      · rintro c name call ctx ⟨⟩ _
        exact sends_oversizedInvoke ctx (some "a")
      · rintro t choose task e a ⟨⟩
    exact Transition.Machine.checkedRun_reachableBy (fun _ _ _ => childless_regular) _
      (.step (.init ⟨rfl, _, rfl⟩) hbegins hbegun) hrun
  have hsent := (sending childless_sound hreach).manager.queue
  obtain ⟨e, hmem, hsome⟩ : ∃ e, s.manager.queue = [e] ∧ e.update.payload.isSome = true := by
    obtain ⟨e, he, hsome⟩ := List.map_eq_singleton_iff.mp hqueue
    exact ⟨e, he, hsome⟩
  have he : e ∈ s.manager.queue := by
    rw [hmem]
    exact List.mem_singleton_self e
  exact ⟨s, hreach.reachable, e, he, oversized_not_fits (hsent e he) hsome⟩

end Tasks

end LambdaDurable
