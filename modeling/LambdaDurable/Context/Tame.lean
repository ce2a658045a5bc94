import LambdaDurable.Context.Operations

/-!
# The parts of an operation that keep to themselves

They draw no number and call no submitter, open no context and run no batch, their updates
go below one operation, and they set the mode flag to Execution only.
-/

namespace LambdaDurable

open Effects

variable {V I T : Type}

def Tame (parent : Option String) : Effect V → Prop
  | .fetchAdd _ | .submitter _ _ | .contextFn _ _ | .spawn _ _ _ _ | .joinNext | .abortAll => False
  | .checkpoint _ u | .checkpointQueued _ u => ∀ p, u.parentId = some p → parent = some p
  | .setMode mode => mode = .execution
  | _ => True

section

variable {S : Type} {parent : Option String}

theorem only_suspend (result : TerminationResult) : (suspend result : Act V S).Only (Tame parent) :=
  ⟨trivial, fun _ => ⟨trivial, fun a => a.elim⟩⟩

theorem only_safeSerialize (codec : Codec S) (value : Option S) (site : SerdesSite) :
    (safeSerialize codec value site : Act V _).Only (Tame parent) := by
  unfold safeSerialize
  split
  · trivial
  · exact only_suspend _

theorem only_safeDeserialize (codec : Codec S) (data : Option String) (site : SerdesSite) :
    (safeDeserialize codec data site : Act V _).Only (Tame parent) := by
  unfold safeDeserialize
  split
  · trivial
  · exact only_suspend _

theorem only_checkpoint (stepId what : String) {u : OperationUpdate}
    (hu : ∀ p, u.parentId = some p → parent = some p) :
    (checkpoint stepId what u : Act V _).Only (Tame parent) := by
  rcases checkpoint_cases (V := V) stepId what u with h | ⟨e, h⟩ <;> rw [h]
  · exact ⟨hu, fun _ => trivial⟩
  · trivial

theorem only_checkpointQueued (stepId what : String) {u : OperationUpdate}
    (hu : ∀ p, u.parentId = some p → parent = some p) :
    (checkpointQueued stepId what u : Act V _).Only (Tame parent) := by
  rcases checkpointQueued_cases (V := V) stepId what u with h | ⟨e, h⟩ <;> rw [h]
  · exact ⟨hu, fun _ => trivial⟩
  · trivial

theorem only_fromPayload (codec : Codec S) (payload : Option String) (site : SerdesSite) :
    (Child.fromPayload codec payload site : Act V _).Only (Tame parent) := by
  cases payload with
  | none => trivial
  | some p => exact only_safeDeserialize _ _ _

theorem only_childReplay (ctx : ExecutionContext) (operation : Option Operation) (codec : Codec S)
    (hashedId stepId : String) (name : Option String) :
    (Child.evaluateReplay ctx operation codec hashedId stepId name : Act V _).Only (Tame parent) := by
  unfold Child.evaluateReplay
  cases operation with
  | none => trivial
  | some op =>
    dsimp only
    split
    · split
      · trivial
      · apply Prog.only_bind (only_fromPayload _ _ _)
        rintro (_ | val)
        · apply Prog.only_bind (only_fromPayload _ _ _)
          rintro (_ | val) <;> trivial
        · trivial
    · trivial
    · exact ⟨rfl, fun _ => trivial⟩

theorem childSucceed_parentId (ctx : ExecutionContext) (name : Option String)
    (hashedId subType : String) (payload : Option String) :
    (Child.succeedUpdate ctx name hashedId subType payload).parentId = ctx.currentParentId := by
  unfold Child.succeedUpdate
  split <;> rfl

theorem only_finishChild (ctx : ExecutionContext) (stepId hashedId : String) (name : Option String)
    (subType : String) (codec : Codec S) (r : DurableResult S) :
    (Child.finishChild ctx stepId hashedId name subType codec r : Act V _).Only
      (Tame ctx.currentParentId) := by
  cases r with
  | ok result =>
    apply Prog.only_bind (only_safeSerialize _ _ _)
    intro payload
    refine Prog.only_andThen (only_checkpoint _ _ fun p hp => ?_) fun _ => trivial
    rw [← childSucceed_parentId ctx name hashedId subType payload, hp]
  | error e => exact Prog.only_andThen (only_checkpoint _ _ fun _ h => h) fun _ => trivial

theorem only_callbackOutcome {op : Operation} {stepId : String} {read : String → Act V (Option S)}
    (hread : ∀ payload, (read payload).Only (Tame parent)) {finished : Act V (DurableResult S)}
    (h : Callback.outcome op stepId read = some finished) : finished.Only (Tame parent) := by
  unfold Callback.outcome at h
  split at h
  · obtain rfl := Option.some.inj h
    split
    · apply Prog.only_bind (hread _)
      rintro (_ | val) <;> trivial
    · trivial
  · obtain rfl := Option.some.inj h
    trivial
  · cases h

theorem only_callbackReplay (ctx : ExecutionContext) (operation : Option Operation)
    (codec : Codec S) (hashedId stepId : String) (name : Option String) :
    (Callback.handleReplay ctx operation codec hashedId stepId name : Act V _).Only (Tame parent) := by
  unfold Callback.handleReplay
  cases operation with
  | none => trivial
  | some op =>
    dsimp only
    split
    · trivial
    · split
      · rename_i hfinished
        apply Prog.only_andThen (only_callbackOutcome (fun _ => only_safeDeserialize _ _ _) hfinished)
        exact fun _ => trivial
      · exact ⟨rfl, fun _ => only_suspend _⟩

theorem only_await {S' : Type} (handle : CallbackHandle S') {read : String → Act V (Option S)}
    (hread : ∀ payload, (read payload).Only (Tame parent)) :
    (Callback.await handle read).Only (Tame parent) := by
  simp only [Callback.await, getStepData_bind]
  refine ⟨trivial, fun operation => ?_⟩
  dsimp only
  split
  · rename_i hfinished
    obtain ⟨op, -, hout⟩ := Option.bind_eq_some_iff.mp hfinished
    exact only_callbackOutcome hread hout
  · exact ⟨trivial, fun _ => only_suspend _⟩

theorem only_stepReplay (ctx : ExecutionContext) (operation : Option Operation)
    (stepId hashedId : String) (name : Option String) (semantics : StepSemantics)
    (codec : Codec S) :
    (Step.handleReplay ctx operation stepId hashedId name semantics codec : Act V _).Only
      (Tame ctx.currentParentId) := by
  unfold Step.handleReplay
  cases operation with
  | none => trivial
  | some op =>
    dsimp only
    split
    · split
      · apply Prog.only_bind (only_safeDeserialize _ _ _)
        rintro (_ | val) <;> trivial
      · trivial
    · trivial
    · exact ⟨rfl, fun _ => only_suspend _⟩
    · cases semantics with
      | atMostOncePerRetry =>
        simp only [Step.handleInterrupted, setMode_bind]
        refine ⟨rfl, fun _ => ⟨trivial, fun decision => ?_⟩⟩
        dsimp only
        split
        · exact Prog.only_andThen (only_checkpoint _ _ fun _ h => h) fun _ => only_suspend _
        · exact Prog.only_andThen (only_checkpoint _ _ fun _ h => h) fun _ => trivial
      | atLeastOncePerRetry => trivial
    · trivial

theorem only_finishStep (ctx : ExecutionContext) (name : Option String) (stepId hashedId : String)
    (attempt : Nat) (codec : Codec S) (r : Except BoxError S) :
    (Step.finishStep ctx name stepId hashedId attempt codec r : Act V _).Only
      (Tame ctx.currentParentId) := by
  cases r with
  | ok result =>
    apply Prog.only_bind (only_safeSerialize _ _ _)
    intro payload
    exact Prog.only_andThen (only_checkpoint _ _ fun _ h => h) fun _ => trivial
  | error e =>
    refine ⟨trivial, fun decision => ?_⟩
    dsimp only
    split
    · exact Prog.only_andThen (only_checkpoint _ _ fun _ h => h) fun _ => only_suspend _
    · exact Prog.only_andThen (only_checkpoint _ _ fun _ h => h) fun _ => trivial

theorem only_startStep (ctx : ExecutionContext) (name : Option String) (stepId hashedId : String)
    (operation : Option Operation) (semantics : StepSemantics) :
    (if Step.alreadyStarted operation then .ret (.ok ())
      else Step.startStep ctx name stepId hashedId semantics : Act V (DurableResult Unit)).Only
      (Tame ctx.currentParentId) := by
  unfold Step.startStep
  split
  · trivial
  · cases semantics with
    | atMostOncePerRetry => exact only_checkpoint _ _ fun _ h => h
    | atLeastOncePerRetry => exact only_checkpointQueued _ _ fun _ h => h

/-! ## Whole operations, but for the number they draw -/

/-- The rest of a call that has drawn its number. -/
def Draws (ctx : ExecutionContext) (parent : Option String) (p : Act V S) : Prop :=
  ∃ k, p = .act (.fetchAdd ctx.operationCounter) k ∧ ∀ n, (k n).Only (Tame parent)

theorem Draws.returning {ctx : ExecutionContext} {p : Act V (DurableResult S)} {S' : Type}
    (h : Draws ctx parent p) {f : S → Act V (DurableResult S')}
    (hf : ∀ a, (f a).Only (Tame parent)) : Draws ctx parent (p.andThen f) := by
  obtain ⟨k, rfl, hk⟩ := h
  exact ⟨_, rfl, fun n => Prog.only_andThen (hk n) hf⟩

variable (ctx : ExecutionContext) (name : Option String)

theorem draws_step (config : StepConfig V) :
    Draws ctx ctx.currentParentId (ctx.step name userStep config : Act V _) := by
  refine ⟨_, rfl, fun n => ⟨trivial, fun operation => ?_⟩⟩
  apply Prog.only_andThen (only_stepReplay ..)
  rintro (_ | result)
  · refine ⟨rfl, fun _ => ?_⟩
    apply Prog.only_andThen (only_startStep ..)
    intro _
    exact ⟨trivial, fun _ => ⟨trivial, fun outcome => only_finishStep ..⟩⟩
  · trivial

theorem draws_wait (duration : Duration) :
    Draws ctx ctx.currentParentId (ctx.wait name duration : Act V _) := by
  refine ⟨_, rfl, fun n => ?_⟩
  simp only [Wait.runWait, getStepData_bind, setMode_bind]
  split
  · trivial
  · refine ⟨trivial, fun operation => ?_⟩
    cases operation with
    | some op =>
      dsimp only
      split
      · trivial
      · trivial
      · exact ⟨rfl, fun _ => only_suspend _⟩
    | none =>
      dsimp only
      refine Prog.only_andThen (only_checkpoint _ _ fun _ h => h) fun _ => ⟨trivial, fun stored => ?_⟩
      dsimp only
      split
      · trivial
      · trivial
      · exact ⟨trivial, fun _ => only_suspend _⟩

theorem only_decide (config : WaitConditionConfig V) (stepId hashedId : String) (attempt : Nat)
    (state : V) : (WaitCondition.decide ctx name config stepId hashedId attempt state).Only
      (Tame ctx.currentParentId) := by
  apply Prog.only_bind (only_safeSerialize _ _ _)
  refine fun payload => ⟨trivial, fun decision => ?_⟩
  cases decision with
  | stop => exact Prog.only_andThen (only_checkpoint _ _ fun _ h => by cases h) fun _ => trivial
  | «continue» delay =>
    exact Prog.only_andThen (only_checkpoint _ _ fun _ h => by cases h) fun _ => only_suspend _

theorem only_runAttempt (config : WaitConditionConfig V) (stepId hashedId : String) (attempt : Nat)
    (state : V) : (WaitCondition.runAttempt ctx name config stepId hashedId attempt state).Only
      (Tame ctx.currentParentId) := by
  unfold WaitCondition.runAttempt
  split
  · exact Prog.only_andThen (only_checkpoint _ _ fun _ h => by cases h) fun _ => trivial
  · simp only [WaitCondition.runCheck, getStepData_bind, getMode_bind]
    refine ⟨trivial, fun operation => ?_⟩
    apply Prog.only_andThen
    · cases operation with
      | none => exact only_checkpoint _ _ fun _ h => h
      | some op => trivial
    · refine fun _ => ⟨trivial, fun _ => ⟨trivial, fun outcome => ?_⟩⟩
      cases outcome with
      | ok newState => exact only_decide ..
      | error e => trivial

theorem only_conditionReplay (operation : Option Operation) (codec : Codec V)
    (hashedId stepId : String) :
    (WaitCondition.handleReplay ctx operation codec hashedId stepId name).Only (Tame parent) := by
  unfold WaitCondition.handleReplay
  cases operation with
  | none => trivial
  | some op =>
    dsimp only
    split
    · split
      · apply Prog.only_bind (only_safeDeserialize _ _ _)
        rintro (_ | val) <;> trivial
      · trivial
    · trivial
    · exact ⟨rfl, fun _ => trivial⟩

theorem draws_waitForCondition (config : WaitConditionConfig V) :
    Draws ctx ctx.currentParentId (ctx.waitForCondition name config : Act V _) := by
  refine ⟨_, rfl, fun n => ⟨trivial, fun operation => ?_⟩⟩
  apply Prog.only_andThen (only_conditionReplay ..)
  rintro (_ | result)
  · simp only [WaitCondition.runWaitCondition, getStepData_bind]
    refine ⟨trivial, fun stored => ?_⟩
    apply Prog.only_bind
    · unfold WaitCondition.currentState
      split
      · exact Prog.only_bind (only_safeDeserialize _ _ _) fun _ => trivial
      · trivial
    · exact fun state => ⟨trivial, fun _ => only_runAttempt ..⟩
  · trivial

theorem draws_createCallback (config : Option (CallbackConfig T)) (codec : Codec T) :
    Draws ctx ctx.currentParentId (ctx.createCallback name config codec : Act V _) := by
  refine ⟨_, rfl, fun n => ⟨trivial, fun operation => ?_⟩⟩
  apply Prog.only_andThen
  · cases operation with
    | none => exact only_checkpoint _ _ fun _ h => h
    | some op => trivial
  · exact fun _ => ⟨trivial, fun _ => trivial⟩

theorem only_invokeOutcome {op : Operation} {codec : Codec S} {hashedId functionId : String}
    {finished : Act V (DurableResult (Option S))}
    (h : Invoke.outcome ctx op codec hashedId name functionId = some finished) :
    finished.Only (Tame parent) := by
  unfold Invoke.outcome at h
  split at h
  · obtain rfl := Option.some.inj h
    split
    · apply Prog.only_bind (only_safeDeserialize _ _ _)
      rintro (_ | val) <;> trivial
    · trivial
  · obtain rfl := Option.some.inj h
    trivial
  · cases h

theorem draws_invoke (functionId : String) (input : Option I) (config : InvokeConfig I V) :
    Draws ctx ctx.currentParentId (ctx.invokeWithConfig name functionId input config : Act V _) := by
  refine ⟨_, rfl, fun n => ⟨trivial, fun operation => ?_⟩⟩
  apply Prog.only_andThen
  · unfold Invoke.handleReplay
    cases operation with
    | none => trivial
    | some op =>
      dsimp only
      split
      · rename_i hfinished
        exact only_invokeOutcome ctx name hfinished
      · simp only [getStepData_bind, setMode_bind]
        refine ⟨trivial, fun _ => ⟨trivial, fun refreshed => ?_⟩⟩
        dsimp only
        split
        · rename_i hfinished
          obtain ⟨op', -, hout⟩ := Option.bind_eq_some_iff.mp hfinished
          exact only_invokeOutcome ctx name hout
        · exact ⟨rfl, fun _ => only_suspend _⟩
  · rintro (_ | result)
    · apply Prog.only_bind (only_safeSerialize _ _ _)
      exact fun payload => Prog.only_andThen (only_checkpoint _ _ fun _ h => h) fun _ => only_suspend _
    · trivial

/-! ## Batches -/

theorem only_safeSerializeRequired (serdes : Serdes S) (value : S) (site : SerdesSite) :
    (safeSerializeRequiredWithSerdes serdes value site : Act V _).Only (Tame parent) := by
  unfold safeSerializeRequiredWithSerdes
  split
  · trivial
  · exact only_suspend _
  · exact only_suspend _

theorem only_safeDeserializeRequired (serdes : Serdes S) (data : String) (site : SerdesSite) :
    (safeDeserializeRequiredWithSerdes serdes data site : Act V _).Only (Tame parent) := by
  unfold safeDeserializeRequiredWithSerdes
  split
  · trivial
  · exact only_suspend _
  · exact only_suspend _

theorem batchSucceed_parentId (spec : BatchSpec) (hashedId payload summary : String) :
    (Batch.succeedUpdate spec hashedId payload summary).parentId = none := by
  unfold Batch.succeedUpdate
  dsimp only
  split <;> rfl

theorem only_complete (spec : BatchSpec) (cfg : BatchConfig V) (stepId hashedId : String)
    (totalItems : Nat) (p : Batch.Progress V) :
    (Batch.complete spec ctx name cfg stepId hashedId totalItems p).Only (Tame parent) := by
  apply Prog.only_bind (only_safeSerializeRequired _ _ _)
  intro payload
  refine Prog.only_andThen (only_checkpoint _ _ fun q hq => ?_) fun _ => trivial
  rw [batchSucceed_parentId] at hq
  cases hq

end

end LambdaDurable
