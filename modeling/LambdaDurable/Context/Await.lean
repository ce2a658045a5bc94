import LambdaDurable.Checkpoint.Move
import LambdaDurable.Context.Operations
import LambdaDurable.Context.Pending

/-!
# Which copy of the table a suspension rests on

`ExecutionContext` keeps the table loaded at the start; `process_batch` merges the
responses of the service into the copy of the checkpoint manager. Calls that suspend
until something outside happens look their operation up in the first.
-/

namespace LambdaDurable

open Effects Call

variable {V I T S : Type}

/-- Terminations by `wait`, `invoke` and the waits for a callback. -/
def TerminationReason.isAwaiting : TerminationReason → Bool
  | .waitScheduled | .callbackPending | .invokePending => true
  | _ => false

def Effect.isTerminate : Effect V → Bool
  | .terminate _ => true
  | _ => false

/-- The operation the program has looked up last. -/
def lookedUp : List (Event V) → Option String
  | [] => none
  | ⟨.getStepData hashedId, _⟩ :: _ => some hashedId
  | _ :: trace => lookedUp trace

/-- The program has not asked for termination. -/
def Undecided (trace : List (Event V)) : Prop :=
  ∀ result, ⟨.terminate result, ()⟩ ∉ trace

/-- The operations a call may await: its own, and for `wait_for_callback` the callback
created in its child context. -/
def DurableCall.Awaits (ctx : ExecutionContext) (name : Option String) (n : Nat) :
    DurableCall V I → String → Prop
  | .waitForCallback _ _ _, id => id = callId ctx name n ∨ ∃ counter, id =
      callId { ctx with currentParentId := some (callId ctx name n) } none counter
  | _, id => id = callId ctx name n

/-- A termination that waits for an operation not finished in the loaded table. -/
def Founded (loaded : Table) (awaits : String → Prop) (trace : List (Event V)) : Effect V → Prop
  | .terminate result => Undecided trace ∧ (result.reason.isAwaiting = true →
      ∃ id, lookedUp trace = some id ∧ awaits id ∧ loaded.terminal id = false)
  | _ => True

/-- A program that only ends in founded terminations, or returns without any. -/
def Calm (loaded : Table) (n : Nat) (awaits : String → Prop) (p : Act V T) (trace : List (Event V)) :
    Prop :=
  p.Meets (traced (fun trace e a => Drawing loaded n trace e a ∧ True) (Founded loaded awaits))
    (fun trace _ => Undecided trace) trace

section

variable {loaded : Table} {n : Nat} {awaits : String → Prop} {trace : List (Event V)}

theorem Undecided.cons {e : Effect V} {a : Answer e} (h : Undecided trace)
    (he : e.isTerminate = false) : Undecided (⟨e, a⟩ :: trace) := by
  intro result hmem
  obtain heq | hmem := List.mem_cons.mp hmem
  · obtain rfl : Effect.terminate result = e := congrArg Sigma.fst heq
    cases he
  · exact h result hmem

theorem calm_act {e : Effect V} {k : Answer e → Act V T} (he : e.isTerminate = false)
    (h : Undecided trace)
    (hk : ∀ a, Undecided (⟨e, a⟩ :: trace) → Calm loaded n awaits (k a) (⟨e, a⟩ :: trace)) :
    Calm loaded n awaits (.act e k) trace := by
  constructor
  · cases e with
    | terminate result => cases he
    | _ => trivial
  · intro a _
    exact hk a (h.cons he)

theorem calm_bind {p : Act V T} {f : T → Act V S} (h : Calm loaded n awaits p trace)
    (hf : ∀ a trace, Undecided trace → Calm loaded n awaits (f a) trace) :
    Calm loaded n awaits (p >>= f) trace :=
  Prog.Meets.bind h hf

theorem calm_andThen {p : Act V (DurableResult T)} {f : T → Act V (DurableResult S)}
    (h : Calm loaded n awaits p trace)
    (hf : ∀ a trace, Undecided trace → Calm loaded n awaits (f a) trace) :
    Calm loaded n awaits (p.andThen f) trace := by
  refine calm_bind h fun r trace ht => ?_
  cases r with
  | ok a => exact hf a trace ht
  | error e => exact ht

theorem calm_suspend {result : TerminationResult} (h : Undecided trace)
    (hresult : result.reason.isAwaiting = true →
      ∃ id, lookedUp trace = some id ∧ awaits id ∧ loaded.terminal id = false) :
    Calm loaded n awaits (suspend result : Act V T) trace :=
  ⟨⟨h, hresult⟩, fun _ _ => ⟨trivial, fun a => a.elim⟩⟩

theorem calm_suspend_andThen {result : TerminationResult} {f : T → Act V (DurableResult S)}
    (h : Undecided trace) (hresult : result.reason.isAwaiting = true →
      ∃ id, lookedUp trace = some id ∧ awaits id ∧ loaded.terminal id = false) :
    Calm loaded n awaits ((suspend result : Act V (DurableResult T)).andThen f) trace := by
  rw [suspend_andThen]
  exact calm_suspend h hresult

theorem calm_getStepData {hashedId : String} {k : Option Operation → Act V T} (h : Undecided trace)
    (hk : ∀ trace, Undecided trace → lookedUp trace = some hashedId →
      Calm loaded n awaits (k (loaded hashedId)) trace) :
    Calm loaded n awaits (.act (.getStepData hashedId) k) trace := by
  refine ⟨trivial, fun a ha => ?_⟩
  obtain rfl : a = loaded hashedId := ha.1.1
  exact hk _ (h.cons rfl) rfl

theorem calm_checkpoint_andThen {stepId what : String} {update : OperationUpdate}
    {f : Unit → Act V (DurableResult T)} (h : Undecided trace)
    (hf : ∀ trace', Undecided trace' → lookedUp trace' = lookedUp trace →
      Calm loaded n awaits (f ()) trace') :
    Calm loaded n awaits ((checkpoint stepId what update).andThen f) trace := by
  unfold checkpoint
  split
  · refine calm_act rfl h fun r ht => ?_
    cases r with
    | ok _ => exact hf _ ht rfl
    | error _ => exact ht
  · exact h

theorem calm_checkpoint (stepId what : String) (update : OperationUpdate) (h : Undecided trace) :
    Calm loaded n awaits (checkpoint stepId what update) trace := by
  unfold checkpoint
  split
  · exact calm_act rfl h fun _ ht => ht
  · exact h

theorem calm_checkpointQueued (stepId what : String) (update : OperationUpdate)
    (h : Undecided trace) : Calm loaded n awaits (checkpointQueued stepId what update) trace := by
  unfold checkpointQueued
  split
  · exact calm_act rfl h fun _ ht => ht
  · exact h

theorem calm_safeSerialize_bind {codec : Codec T} {value : Option T} {site : SerdesSite}
    {f : Option String → Act V S} (h : Undecided trace)
    (hf : ∀ payload, Calm loaded n awaits (f payload) trace) :
    Calm loaded n awaits (safeSerialize codec value site >>= f) trace := by
  unfold safeSerialize
  cases codec.serialize value site.context with
  | ok v => exact hf v
  | error e =>
    simp only [terminateForSerdesFailure, suspend_bind]
    exact calm_suspend h fun hreason => by cases hreason

theorem calm_safeDeserialize (codec : Codec T) (data : Option String) (site : SerdesSite)
    (h : Undecided trace) : Calm loaded n awaits (safeDeserialize codec data site) trace := by
  unfold safeDeserialize
  split
  · exact h
  · exact calm_suspend h nofun

theorem calm_setMode {mode : ExecutionMode} {p : Act V T} (h : Undecided trace)
    (hp : ∀ trace, Undecided trace → Calm loaded n awaits p trace) :
    Calm loaded n awaits (.act (.setMode mode) fun _ => p) trace :=
  calm_act rfl h fun _ ht => hp _ ht

/-! ## The step and the child context of `wait_for_callback` -/

theorem calm_finishStep (ctx : ExecutionContext) (name : Option String) (stepId hashedId : String)
    (attempt : Nat) (codec : Codec T) (outcome : Except BoxError T) (h : Undecided trace) :
    Calm loaded n awaits (Step.finishStep ctx name stepId hashedId attempt codec outcome) trace := by
  cases outcome with
  | ok result =>
    refine calm_safeSerialize_bind h fun payload => ?_
    exact calm_andThen (calm_checkpoint _ _ _ h) fun _ _ ht => ht
  | error error =>
    refine calm_act rfl h fun decision ht => ?_
    split
    · exact calm_andThen (calm_checkpoint _ _ _ ht) fun _ _ ht => calm_suspend ht nofun
    · exact calm_andThen (calm_checkpoint _ _ _ ht) fun _ _ ht => ht

theorem calm_stepReplay (ctx : ExecutionContext) (operation : Option Operation)
    (stepId hashedId : String) (name : Option String) (semantics : StepSemantics) (codec : Codec T)
    (h : Undecided trace) :
    Calm loaded n awaits
      (Step.handleReplay ctx operation stepId hashedId name semantics codec) trace := by
  unfold Step.handleReplay
  cases operation with
  | none => exact h
  | some op =>
    dsimp only
    split
    · split
      · refine calm_bind (calm_safeDeserialize _ _ _ h) fun val trace ht => ?_
        cases val <;> exact ht
      · exact h
    · exact h
    · exact calm_setMode h fun _ ht => calm_suspend ht nofun
    · cases semantics with
      | atLeastOncePerRetry => exact h
      | atMostOncePerRetry =>
        refine calm_setMode h fun _ ht => calm_act rfl ht fun decision ht => ?_
        split
        · exact calm_andThen (calm_checkpoint _ _ _ ht) fun _ _ ht => calm_suspend ht nofun
        · exact calm_andThen (calm_checkpoint _ _ _ ht) fun _ _ ht => ht
    · exact h

theorem calm_startStep (ctx : ExecutionContext) (name : Option String) (stepId hashedId : String)
    (semantics : StepSemantics) (h : Undecided trace) :
    Calm loaded n awaits (Step.startStep ctx name stepId hashedId semantics) trace := by
  unfold Step.startStep
  cases semantics with
  | atMostOncePerRetry => exact calm_checkpoint _ _ _ h
  | atLeastOncePerRetry => exact calm_checkpointQueued _ _ _ h

theorem calm_runStepExecution (ctx : ExecutionContext) (name : Option String)
    {stepFn : String → Nat → Act V (Except BoxError T)} (stepId hashedId : String)
    (operation : Option Operation) (semantics : StepSemantics) (codec : Codec T)
    (hfn : ∀ attempt trace, Undecided trace → Calm loaded n awaits (stepFn hashedId attempt) trace)
    (h : Undecided trace) :
    Calm loaded n awaits (Step.runStepExecution ctx name stepFn stepId hashedId operation semantics
      codec) trace := by
  simp only [Step.runStepExecution, setMode_bind, getMode_bind]
  refine calm_setMode h fun trace ht => calm_andThen ?_ fun _ trace ht => ?_
  · split
    · exact ht
    · exact calm_startStep _ _ _ _ _ ht
  · refine calm_act rfl ht fun _ ht => ?_
    exact calm_bind (hfn _ _ ht) fun outcome trace ht => calm_finishStep _ _ _ _ _ _ _ ht

theorem calm_step (ctx : ExecutionContext) (name : Option String)
    {stepFn : String → Nat → Act V (Except BoxError T)} (config : StepConfig T)
    (hfn : ∀ hashedId attempt trace, Undecided trace →
      Calm loaded n awaits (stepFn hashedId attempt) trace) (h : Undecided trace) :
    Calm loaded n awaits (ctx.step name stepFn config) trace := by
  refine calm_act rfl h fun counter ht => calm_act rfl ht fun operation ht => ?_
  refine calm_andThen (calm_stepReplay _ _ _ _ _ _ _ ht) fun result trace ht => ?_
  cases result with
  | some result => exact ht
  | none => exact calm_runStepExecution _ _ _ _ _ _ _ (hfn _) ht

theorem calm_fromPayload (codec : Codec T) (payload : Option String) (site : SerdesSite)
    (h : Undecided trace) : Calm loaded n awaits (Child.fromPayload codec payload site) trace := by
  cases payload with
  | none => exact h
  | some p => exact calm_safeDeserialize _ _ _ h

theorem calm_evaluateReplay (ctx : ExecutionContext) (operation : Option Operation) (codec : Codec T)
    (hashedId stepId : String) (name : Option String) (h : Undecided trace) :
    Calm loaded n awaits (Child.evaluateReplay ctx operation codec hashedId stepId name) trace := by
  unfold Child.evaluateReplay
  cases operation with
  | none => exact h
  | some op =>
    dsimp only
    split
    · split
      · exact h
      · refine calm_bind (calm_fromPayload _ _ _ h) fun val trace ht => ?_
        cases val with
        | some val => exact ht
        | none =>
          refine calm_bind (calm_fromPayload _ _ _ ht) fun val trace ht => ?_
          cases val <;> exact ht
    · exact h
    · exact calm_setMode h fun _ ht => ht

theorem calm_finishChild (ctx : ExecutionContext) (stepId hashedId : String) (name : Option String)
    (subType : String) (codec : Codec T) (outcome : DurableResult T) (h : Undecided trace) :
    Calm loaded n awaits (Child.finishChild ctx stepId hashedId name subType codec outcome) trace := by
  cases outcome with
  | ok result =>
    refine calm_safeSerialize_bind h fun payload => ?_
    exact calm_andThen (calm_checkpoint _ _ _ h) fun _ _ ht => ht
  | error error => exact calm_andThen (calm_checkpoint _ _ _ h) fun _ _ ht => ht

theorem calm_runChildExecution (ctx : ExecutionContext) (stepId hashedId : String)
    (name : Option String) {contextFn : ExecutionContext → Act V (DurableResult T)}
    (subType : String) (codec : Codec T)
    (hfn : ∀ counter trace, Undecided trace → Calm loaded n awaits
      (contextFn { ctx with currentParentId := some hashedId, operationCounter := counter }) trace)
    (h : Undecided trace) :
    Calm loaded n awaits (Child.runChildExecution ctx stepId hashedId name contextFn subType codec)
      trace := by
  simp only [Child.runChildExecution, getStepData_bind, withParentId_bind]
  refine calm_act rfl h fun operation ht => calm_andThen ?_ fun _ trace ht => ?_
  · cases operation with
    | none => exact calm_checkpoint _ _ _ ht
    | some op => exact ht
  · refine calm_act rfl ht fun counter ht => ?_
    exact calm_bind (hfn counter _ ht) fun outcome trace ht => calm_finishChild _ _ _ _ _ _ _ ht

theorem calm_runInChildContextWithIds (ctx : ExecutionContext) (stepId hashedId : String)
    (name : Option String) {contextFn : ExecutionContext → Act V (DurableResult T)}
    (config : ChildContextConfig T)
    (hfn : ∀ counter trace, Undecided trace → Calm loaded n awaits
      (contextFn { ctx with currentParentId := some hashedId, operationCounter := counter }) trace)
    (h : Undecided trace) :
    Calm loaded n awaits (ctx.runInChildContextWithIds stepId hashedId name contextFn config)
      trace := by
  refine calm_act rfl h fun operation ht => ?_
  refine calm_andThen (calm_evaluateReplay _ _ _ _ _ _ ht) fun decision trace ht => ?_
  cases decision with
  | «return» val => exact ht
  | replayChildren => exact calm_act rfl ht fun counter ht => hfn counter _ ht
  | «continue» => exact calm_runChildExecution _ _ _ _ _ _ hfn ht

/-! ## The calls that await -/

theorem not_terminal_of_absent {id : String} (h : loaded id = none) : loaded.terminal id = false := by
  simp [Table.terminal, h]

theorem not_terminal_of_status {id : String} {op : Operation} (h : loaded id = some op)
    (hop : op.status.isTerminal = false) : loaded.terminal id = false := by
  simp [Table.terminal, h, hop]

theorem calm_runWait (ctx : ExecutionContext) (name : Option String) (duration : Duration)
    (stepId : String) {id : String} (hid : awaits id) (h : Undecided trace) :
    Calm loaded n awaits (Wait.runWait ctx name duration stepId id : Act V _) trace := by
  simp only [Wait.runWait, getStepData_bind, setMode_bind]
  split
  · exact h
  · refine calm_getStepData h fun trace ht hlook => ?_
    cases hop : loaded id with
    | some op =>
      dsimp only
      split
      · exact ht
      · exact ht
      · rename_i hsucceeded hfailed
        have hstatus : op.status.isTerminal = false := by
          cases hs : op.status <;> simp_all [OperationStatus.isTerminal]
        refine calm_act rfl ht fun _ ht => calm_suspend ht fun _ => ?_
        exact ⟨id, hlook, hid, not_terminal_of_status hop hstatus⟩
    | none =>
      refine calm_checkpoint_andThen ht fun trace ht _ => calm_getStepData ht fun trace ht hlook => ?_
      simp only [hop, Option.map_none]
      refine calm_act rfl ht fun _ ht => calm_suspend ht fun _ => ?_
      exact ⟨id, hlook, hid, not_terminal_of_absent hop⟩

theorem callback_outcome_none {op : Operation} {stepId : String} {read : String → Act V (Option T)}
    (h : Callback.outcome op stepId read = none) : op.status.isTerminal = false := by
  unfold Callback.outcome at h
  cases hs : op.status <;> simp_all [OperationStatus.isTerminal]

theorem calm_callbackOutcome {op : Operation} {stepId : String} {read : String → Act V (Option T)}
    {finished : Act V (DurableResult T)} (hfinished : Callback.outcome op stepId read = some finished)
    (hread : ∀ payload, Calm loaded n awaits (read payload) trace) (h : Undecided trace) :
    Calm loaded n awaits finished trace := by
  unfold Callback.outcome at hfinished
  split at hfinished
  · obtain rfl := Option.some.inj hfinished
    split
    · refine calm_bind (hread _) fun val trace ht => ?_
      cases val <;> exact ht
    · exact h
  · obtain rfl := Option.some.inj hfinished
    exact h
  · cases hfinished

theorem calm_await (handle : CallbackHandle S) {read : String → Act V (Option T)}
    (hid : awaits handle.hashedId)
    (hread : ∀ payload trace, Undecided trace → Calm loaded n awaits (read payload) trace)
    (h : Undecided trace) : Calm loaded n awaits (Callback.await handle read) trace := by
  simp only [Callback.await, getStepData_bind]
  refine calm_getStepData h fun trace ht hlook => ?_
  split
  · rename_i finished hfinished
    obtain ⟨op, -, hop⟩ := Option.bind_eq_some_iff.mp hfinished
    exact calm_callbackOutcome hop (fun _ => hread _ _ ht) ht
  · rename_i hpending
    refine calm_act rfl ht fun _ ht => calm_suspend ht fun _ => ⟨_, hlook, hid, ?_⟩
    cases hop : loaded handle.hashedId with
    | none => exact not_terminal_of_absent hop
    | some op =>
      rw [hop] at hpending
      exact not_terminal_of_status hop (callback_outcome_none hpending)

theorem calm_waitRaw (handle : CallbackHandle S) (hid : awaits handle.hashedId) (h : Undecided trace) :
    Calm loaded n awaits (handle.waitRaw : Act V _) trace :=
  calm_await handle hid (fun _ _ ht => ht) h

theorem calm_createCallback_andThen (ctx : ExecutionContext) (name : Option String)
    (config : Option (CallbackConfig T)) (codec : Codec T)
    {f : CallbackHandle T → Act V (DurableResult S)} (h : Undecided trace)
    (hf : ∀ counter callbackId trace', (drawn trace = none → counter = n) → Undecided trace' →
      Calm loaded n awaits (f ⟨callbackId, ctx.operationId name counter, callId ctx name counter, ctx,
        codec⟩) trace') :
    Calm loaded n awaits ((ctx.createCallback name config codec).andThen f) trace := by
  simp only [ExecutionContext.createCallback, nextOperationId_bind, getStepData_bind, Prog.act_andThen]
  refine ⟨trivial, fun counter hcounter => ?_⟩
  have hn : drawn trace = none → counter = n := fun hnone => hcounter.1.2 hnone counter rfl
  refine calm_act rfl (h.cons rfl) fun operation ht => ?_
  rw [Prog.andThen_assoc]
  refine calm_andThen ?_ fun _ trace ht => ?_
  · cases operation with
    | none => exact calm_checkpoint _ _ _ ht
    | some op => exact ht
  · exact calm_act rfl ht fun stored ht => hf _ _ _ hn ht

theorem calm_waitForCallback (ctx : ExecutionContext) (name : Option String)
    (config : CallbackConfig V) (unitCodec : Codec Unit) (rawCodec : Codec String)
    (hown : awaits (callId ctx name n))
    (hchild : ∀ counter, awaits
      (callId { ctx with currentParentId := some (callId ctx name n) } none counter)) :
    Calm loaded n awaits (ctx.waitForCallback name config unitCodec rawCodec : Act V _) [] := by
  have h : Undecided ([] : List (Event V)) := fun _ hmem => (List.not_mem_nil hmem).elim
  refine ⟨trivial, fun counter hcounter => ?_⟩
  obtain rfl : counter = n := hcounter.1.2 rfl counter rfl
  refine calm_getStepData (h.cons rfl) fun trace ht hlook => ?_
  refine calm_andThen ?_ fun result trace ht => ?_
  · unfold Callback.handleReplay
    cases hop : loaded (callId ctx name counter) with
    | none => exact ht
    | some op =>
      dsimp only
      split
      · exact ht
      · split
        · rename_i hfinished
          refine calm_andThen (calm_callbackOutcome hfinished (fun payload => ?_) ht) fun _ _ ht => ht
          exact calm_safeDeserialize _ _ _ ht
        · rename_i hpending
          refine calm_act rfl ht fun _ ht => calm_suspend ht fun _ => ⟨_, hlook, hown, ?_⟩
          exact not_terminal_of_status hop (callback_outcome_none hpending)
  · cases result with
    | some result => exact ht
    | none =>
      refine calm_andThen (calm_runInChildContextWithIds _ _ _ _ _ (fun child trace ht => ?_) ht)
        fun rawPayload trace ht => ?_
      · refine calm_createCallback_andThen _ _ _ _ ht fun inner callbackId trace _ ht => ?_
        refine calm_andThen (calm_step _ _ _ (fun _ _ trace ht => ?_) ht) fun _ trace ht => ?_
        · exact calm_act rfl ht fun _ ht => ht
        · exact calm_waitRaw _ (hchild inner) ht
      · refine calm_bind (calm_safeDeserialize _ _ _ ht) fun val trace ht => ?_
        cases val <;> exact ht

theorem invoke_outcome_none {ctx : ExecutionContext} {op : Operation} {codec : Codec T}
    {hashedId : String} {name : Option String} {functionId : String}
    (h : (Invoke.outcome ctx op codec hashedId name functionId : Option (Act V _)) = none) :
    op.status.isTerminal = false := by
  unfold Invoke.outcome at h
  cases hs : op.status <;> simp_all [OperationStatus.isTerminal]

theorem calm_invokeOutcome_andThen {ctx : ExecutionContext} {op : Operation} {codec : Codec T}
    {hashedId : String} {name : Option String} {functionId : String}
    {finished : Act V (DurableResult (Option T))} {f : Option T → Act V (DurableResult S)}
    (hfinished : Invoke.outcome ctx op codec hashedId name functionId = some finished)
    (h : Undecided trace)
    (hf : ∀ val trace, Undecided trace → Calm loaded n awaits (f (some val)) trace) :
    Calm loaded n awaits (finished.andThen f) trace := by
  unfold Invoke.outcome at hfinished
  split at hfinished
  · obtain rfl := Option.some.inj hfinished
    split
    · rw [Prog.andThen, Prog.bind_assoc]
      refine calm_bind (calm_safeDeserialize _ _ _ h) fun val trace ht => ?_
      cases val with
      | some val => exact hf val _ ht
      | none => exact ht
    · exact h
  · obtain rfl := Option.some.inj hfinished
    exact h
  · cases hfinished

theorem calm_invoke (ctx : ExecutionContext) (name : Option String) (functionId : String)
    (input : Option I) (config : InvokeConfig I V) (hown : awaits (callId ctx name n)) :
    Calm loaded n awaits (ctx.invokeWithConfig name functionId input config : Act V _) [] := by
  have h : Undecided ([] : List (Event V)) := fun _ hmem => (List.not_mem_nil hmem).elim
  refine ⟨trivial, fun counter hcounter => ?_⟩
  obtain rfl : counter = n := hcounter.1.2 rfl counter rfl
  refine calm_getStepData (h.cons rfl) fun trace ht hlook => ?_
  change Calm _ _ _ (Invoke.body ctx name functionId input config _ _) _
  cases hop : loaded (callId ctx name counter) with
  | none =>
    refine calm_safeSerialize_bind ht fun payload => ?_
    refine calm_checkpoint_andThen ht fun trace' ht hsame => calm_suspend ht fun _ => ?_
    exact ⟨_, hsame.trans hlook, hown, not_terminal_of_absent hop⟩
  | some op =>
    simp only [Invoke.body, Invoke.handleReplay, getStepData_bind, setMode_bind]
    split
    · rename_i hfinished
      exact calm_invokeOutcome_andThen hfinished ht fun _ _ ht => ht
    · rename_i hpending
      rw [Prog.act_andThen]
      refine calm_act rfl ht fun _ ht => calm_getStepData ht fun trace ht hlook => ?_
      simp only [hop, Option.bind_some, hpending]
      refine calm_act rfl ht fun _ ht => calm_suspend_andThen ht fun _ => ?_
      exact ⟨_, hlook, hown, not_terminal_of_status hop (invoke_outcome_none hpending)⟩

theorem calm_program {ctx : ExecutionContext} {name : Option String} {call : DurableCall V I}
    (hcall : Backend.isExternal call.operationType = true) :
    Calm loaded n (call.Awaits ctx name n) (call.program ctx name) [] := by
  have h : Undecided ([] : List (Event V)) := fun _ hmem => (List.not_mem_nil hmem).elim
  have hcallback : ∀ {T : Type} config codec (read : CallbackHandle V → String → Act V (Option T)),
      (∀ handle payload trace, Undecided trace →
        Calm loaded n (· = callId ctx name n) (read handle payload) trace) →
      Calm loaded n (· = callId ctx name n)
        (forget ((ctx.createCallback name config codec).andThen fun handle =>
          Callback.await handle (read handle)) : Act V _) [] := by
    intro T config codec read hread
    rw [forget, Prog.andThen_assoc]
    refine calm_createCallback_andThen _ _ _ _ h fun counter callbackId trace hn ht => ?_
    obtain rfl := hn rfl
    exact calm_andThen (calm_await _ rfl (hread _) ht) fun _ _ ht => ht
  cases call with
  | wait duration =>
    refine ⟨trivial, fun counter hcounter => ?_⟩
    obtain rfl : counter = n := hcounter.1.2 rfl counter rfl
    exact calm_runWait ctx name duration _ rfl (h.cons rfl)
  | callback config codec =>
    exact hcallback config codec _ fun _ _ _ ht => calm_safeDeserialize _ _ _ ht
  | callbackRaw config codec => exact hcallback config codec _ fun _ _ _ ht => ht
  | waitForCallback config unitCodec rawCodec =>
    refine calm_andThen (calm_waitForCallback ctx name config unitCodec rawCodec (Or.inl rfl) ?_)
      fun _ _ ht => ht
    exact fun counter => Or.inr ⟨counter, rfl⟩
  | invoke functionId input config =>
    exact calm_andThen (calm_invoke ctx name functionId input config rfl) fun _ _ ht => ht
  | step _ | waitForCondition _ | runInChildContext _ | map _ _ | parallel _ _ => cases hcall

end

/-! ## Runs -/

/-- The termination the program asks for next. -/
def Call.State.requested {α : Type} (s : Call.State V α) : Option TerminationResult :=
  match s.ticket, s.program with
  | none, .act (.terminate result) _ => some result
  | _, _ => none

theorem Call.State.requested_eq {α : Type} {s : Call.State V α} {result : TerminationResult}
    (h : s.requested = some result) : ∃ k, s.program = .act (.terminate result) k := by
  unfold requested at h
  split at h
  · rename_i k _ hprogram
    obtain rfl := Option.some.inj h
    exact ⟨k, hprogram⟩
  · cases h

/-- The call is not about to wait for an operation that is final in the manager's copy. -/
def AwaitsUnfinished (awaits : String → Prop) (s : Call.State V (DurableResult Unit)) : Prop :=
  ∀ result, s.requested = some result → result.reason.isAwaiting = true →
    ∃ id, lookedUp s.trace = some id ∧ awaits id ∧ s.manager.stepData.terminal id = false

/-- No response merged in this step brings the final record of an awaited operation that was
not final in the table loaded at the start. -/
def BringsNoOutcome (loaded : Table) (awaits : String → Prop)
    (s : Call.State V (DurableResult Unit)) (l : Call.Label V) : Prop :=
  ∀ o batch newState, l = .manager (.merge o) →
    s.manager.callOf o = some (batch, .merging (some newState)) →
    ∀ op ∈ newState, awaits op.id → op.status.isTerminal = true → loaded.terminal op.id = true

theorem CheckpointManager.Move.stepData {s s' : CheckpointManager.State} {l : CheckpointManager.Label}
    (h : CheckpointManager.Move s l s') :
    s'.stepData = s.stepData ∨ ∃ o batch newState, l = .merge o ∧
      s.callOf o = some (batch, .merging (some newState)) ∧
      s'.stepData = s.stepData.insertAll newState := by
  have hcall : ∀ (t : CheckpointManager.State) batch call o,
      (t.setCall batch call o).stepData = t.stepData := by
    intro t batch call o
    cases o <;> rfl
  cases h with
  | @merge o batch newState hmerging =>
    cases newState with
    | none => exact Or.inl (hcall ..)
    | some newState => exact Or.inr ⟨o, batch, newState, rfl, hmerging, hcall ..⟩
  | readToken _ | reject _ _ | send _ _ | fail _ | accept _ | writeToken _ => exact Or.inl (hcall ..)
  | _ => exact Or.inl rfl

theorem stepData_of_request {s s' : CheckpointManager.State} {k : Nat} {e : Effect V}
    {l : CheckpointManager.Label} (hl : requestLabel k e = some l)
    (h : CheckpointManager.step s l = some s') : s'.stepData = s.stepData := by
  obtain hsame | ⟨o, _, _, rfl, -⟩ := (CheckpointManager.move_of_step h).stepData
  · exact hsame
  · cases e <;> cases hl

/-- The manager's copy has no outcome of an awaited operation that the loaded table lacks. -/
theorem loaded_terminal_of_stepData {token : String} {loaded : Table} {awaits : String → Prop}
    {program : Act V (DurableResult Unit)} {s : Call.State V (DurableResult Unit)}
    (h : (machine token loaded program).ReachableBy (BringsNoOutcome loaded awaits) s) :
    ∀ id, awaits id → s.manager.stepData.terminal id = true → loaded.terminal id = true := by
  refine h.invariant (I := fun s => ∀ id, awaits id → s.manager.stepData.terminal id = true →
    loaded.terminal id = true) ?_ ?_
  · rintro _ ⟨mode, rfl⟩ id - hterm
    exact hterm
  · intro s l s' _ hs hl hstep id hid hterm
    cases move_of_step hstep with
    | @manager l m hm =>
      rcases (CheckpointManager.move_of_step hm).stepData with
        hsame | ⟨o, batch, newState, rfl, hmerging, hmerged⟩
      · rw [State.manage, hsame] at hterm
        exact hs id hid hterm
      · rw [State.manage, hmerged, Table.terminal] at hterm
        obtain hold | ⟨op, hop, rfl, hnew⟩ := Table.insertAll_apply s.manager.stepData newState id
        · rw [hold] at hterm
          exact hs id hid hterm
        · rw [hnew] at hterm
          exact hl o batch newState rfl hmerging op hop hid hterm
    | setMode | service _ | resume _ _ _ => exact hs id hid hterm
    | request _ _ hrequest hm =>
      rw [stepData_of_request hrequest hm] at hterm
      exact hs id hid hterm
    | @perform choose e _ _ _ _ _ =>
      have hsame : (s.touch e).manager.stepData = s.manager.stepData := by cases e <;> rfl
      rw [State.answer_manager, hsame] at hterm
      exact hs id hid hterm

theorem awaits_unfinished {token : String} {loaded : Table} {ctx : ExecutionContext}
    {name : Option String} {n : Nat} {call : DurableCall V I} {s : Call.State V (DurableResult Unit)}
    (hcall : Backend.isExternal call.operationType = true)
    (h : (machine token loaded (call.program ctx name)).ReachableBy
      (BringsNoOutcome loaded (call.Awaits ctx name n)) s)
    (hn : drawn s.trace = some n) : AwaitsUnfinished (call.Awaits ctx name n) s := by
  intro result hresult hreason
  obtain ⟨k, hprogram⟩ := State.requested_eq hresult
  have hcalm := meets_of_drawn (fun _ _ _ _ _ _ _ _ _ => trivial) (calm_program hcall) h hn
  rw [hprogram] at hcalm
  obtain ⟨id, hlook, hid, hloaded⟩ := hcalm.1.2 hreason
  refine ⟨id, hlook, hid, ?_⟩
  by_contra hterm
  rw [loaded_terminal_of_stepData h id hid (by simpa using hterm)] at hloaded
  cases hloaded

/-- A wait of one second whose START is acknowledged with the given response. -/
def waitRun (response : CheckpointManager.CheckpointResponse) : List (Call.Label Nat) :=
  let draw : (e : Effect Nat) → Option (Answer e)
    | .fetchAdd _ => some 0
    | _ => none
  [.perform draw, .perform draw, .request 0] ++
    [.checkTerminating 0, .checkAncestor 0, .track 0, .push 0, .maybeStart 0 0, .takeBatch 0,
      .readToken (.worker 0), .send (.worker 0), .respond (.worker 0) (.ok response),
      .writeToken (.worker 0), .merge (.worker 0), .finishBatch 0, .notify 0, .wake 0].map .manager ++
    [.resume, .perform draw, .perform draw]

def shortWait : DurableCall Nat Nat := .wait (.ofSeconds 1)

def waitRecord (status : OperationStatus) : Operation :=
  { id := "op_0", operationType := .wait, status }

def bringsNothing (s : Call.State Nat (DurableResult Unit)) : Call.Label Nat → Bool
  | .manager (.merge o) =>
    match s.manager.callOf o with
    | some (_, .merging (some newState)) => newState.all fun op => !op.status.isTerminal
    | _ => true
  | _ => true

theorem awaits_unfinished_shortWait :
    ∃ s : Call.State Nat (DurableResult Unit), s.requested = some (.new .waitScheduled) ∧
      AwaitsUnfinished (shortWait.Awaits rootContext none 0) s := by
  have hend : ((machine "t0" (fun _ => none) (shortWait.program rootContext none)).checkedRun
      bringsNothing (.new "t0" (fun _ => none) .execution (shortWait.program rootContext none))
      (waitRun { newExecutionState := some [waitRecord .started] })).map
      (fun s => (s.requested, drawn s.trace)) =
      some (some (.new .waitScheduled), some 0) := by decide +kernel
  obtain ⟨s, hrun, hs⟩ := Option.map_eq_some_iff.mp hend
  simp only [Prod.mk.injEq] at hs
  refine ⟨s, hs.1, @awaits_unfinished Nat Nat "t0" (fun _ => none) rootContext none 0 shortWait s rfl
    ?_ hs.2⟩
  refine Transition.Machine.checkedRun_reachableBy (fun r l _ hok => ?_) _ (.init ⟨_, rfl⟩) hrun
  rintro o batch newState rfl hmerging op hop - hterm
  simp only [bringsNothing, hmerging, List.all_eq_true] at hok
  simpa [hterm] using hok op hop

/-- The response to START already says that the wait is over; the copy looked up does not. -/
theorem finishedWait_suspends :
    ¬ ∀ (call : DurableCall Nat Nat) (token : String) (loaded : Table) (ctx : ExecutionContext)
      (name : Option String) (n : Nat) (s : Call.State Nat (DurableResult Unit)),
      Backend.isExternal call.operationType = true →
      (machine token loaded (call.program ctx name)).Reachable s → drawn s.trace = some n →
      AwaitsUnfinished (call.Awaits ctx name n) s := by
  intro h
  have hend : ((machine "t0" (fun _ => none) (shortWait.program rootContext none)).run
      (.new "t0" (fun _ => none) .execution (shortWait.program rootContext none))
      (waitRun { newExecutionState := some [waitRecord .succeeded] })).map
      (fun s => (s.requested, drawn s.trace, lookedUp s.trace, s.manager.stepData.terminal "op_0")) =
      some (some (.new .waitScheduled), some 0, some "op_0", true) := by decide +kernel
  obtain ⟨s, hrun, hs⟩ := Option.map_eq_some_iff.mp hend
  simp only [Prod.mk.injEq] at hs
  obtain ⟨hrequested, hdrawn, hlook, hterm⟩ := hs
  have hreach := Transition.Machine.run_reachable (M := machine "t0" _ _) ⟨_, rfl⟩ _ hrun
  obtain ⟨id, hid, -, hfalse⟩ := h shortWait "t0" _ rootContext none 0 s rfl hreach hdrawn _ hrequested rfl
  obtain rfl : "op_0" = id := Option.some.inj (hlook.symm.trans hid)
  rw [hterm] at hfalse
  cases hfalse

end LambdaDurable
