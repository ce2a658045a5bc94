import LambdaDurable.Context.Pending
import LambdaDurable.Types.Service

/-!
# Calls that find their operation finished

The service finishes an operation in five ways, and the crate knows two of them. A
call whose record has one of the other three goes on as if nothing had happened.
-/

namespace LambdaDurable

open Effects Call

variable {V I T : Type}

/-- Effects that are answered at once, whatever goes on around the call, and ask for no user
code, no update and no termination. -/
def Immediate : Effect V → Prop
  | .newCounter | .fetchAdd _ | .getStepData _ | .getMode | .setMode _ | .markAwaited _ | .mark _ => True
  | _ => False

def Call.Label.isPerform : Label V → Bool
  | .perform _ => true
  | _ => false

/-- The call returns `r` by steps of its own. -/
def Returns (loaded : Table) (s : Call.State V T) (r : T) : Prop :=
  ∃ (ls : List (Label V)) (s' : Call.State V T),
    (∀ l ∈ ls, l.isPerform = true) ∧ ls.foldlM (step loaded) s = some s' ∧ s'.program = .ret r

/-- The call is at work on its answer, and does nothing else. -/
structure Surfacing (loaded : Table) (s : Call.State V T) : Prop where
  immediate : ∀ e k, s.program = .act e k → Immediate e
  returns : ∃ r, Returns loaded s r

/-- Whatever happens around it, the call that draws the number `n` returns, and does nothing
else. -/
def Surfaces (loaded : Table) (ctx : ExecutionContext) (name : Option String)
    (call : DurableCall V I) (n : Nat) : Prop :=
  ∀ token s, (machine token loaded (call.program ctx name)).Reachable s → drawn s.trace = some n →
    Surfacing loaded s

/-- A program that returns at once when the call draws the number `n`. -/
def Prompt (loaded : Table) (n : Nat) (trace : List (Event V)) (p : Act V T) : Prop :=
  p.Meets (traced (fun trace e a => Drawing loaded n trace e a ∧ True) fun _ => Immediate)
    (fun _ _ => True) trace

theorem requested_of_ticket {token : String} {loaded : Table} {program : Act V T}
    {s : Call.State V T} (h : (machine token loaded program).Reachable s) {m : Nat}
    (hticket : s.ticket = some m) :
    ∃ e k l, s.program = .act e k ∧ requestLabel m e = some l := by
  refine h.invariant (I := fun s => ∀ m, s.ticket = some m →
    ∃ e k l, s.program = .act e k ∧ requestLabel m e = some l) ?_ ?_ m hticket
  · rintro _ ⟨mode, rfl⟩ m hm
    cases hm
  · intro s l s' _ hs hstep m hm
    cases move_of_step hstep with
    | manager _ | setMode | service _ => exact hs m hm
    | perform _ _ _ | resume _ _ _ => cases hm
    | request _ hprogram hl _ =>
      obtain rfl := Option.some.inj hm
      exact ⟨_, _, _, hprogram, hl⟩

section

variable {loaded : Table} {n : Nat} {trace : List (Event V)}

/-- The number drawn is `n`; no other choice is asked for. -/
def drawing (n : Nat) : (e : Effect V) → Option (Answer e)
  | .newCounter => some 0
  | .fetchAdd _ => some n
  | _ => none

theorem drawing_counter {mode : ExecutionMode} {e : Effect V} {a : Answer e} {m : Nat}
    (h : instant loaded mode (drawing n) e = some a) (hm : Event.counter ⟨e, a⟩ = some m) :
    m = n := by
  cases e with
  | fetchAdd c =>
    obtain rfl := Option.some.inj h
    exact (Option.some.inj hm).symm
  | _ => cases hm

theorem instant_of_immediate {mode : ExecutionMode} {e : Effect V} (h : Immediate e) :
    ∃ a, instant loaded mode (drawing n) e = some a := by
  cases e <;> first | exact h.elim | exact ⟨_, rfl⟩

/-- A program whose effects are all answered at once can be run to its end. -/
theorem returns_of_meets {answers : List (Event V) → (e : Effect V) → Answer e → Prop}
    {allows : List (Event V) → Effect V → Prop} {post : List (Event V) → T → Prop}
    {choose : (e : Effect V) → Option (Answer e)}
    (hchoose : ∀ trace mode e, allows trace e →
      ∃ a, instant loaded mode choose e = some a ∧ answers trace e a)
    (p : Act V T) : ∀ s : Call.State V T, s.program = p → s.ticket = none →
    p.Meets (traced answers allows) post s.trace → ∃ trace r, post trace r ∧ Returns loaded s r := by
  induction p with
  | ret r =>
    intro s hs _ hmeets
    exact ⟨s.trace, r, hmeets, [], s, by simp, rfl, hs⟩
  | act e k ih =>
    intro s hs hticket hmeets
    obtain ⟨a, ha, hanswers⟩ := hchoose s.trace s.mode e hmeets.1
    have hstep : step loaded s (.perform choose) = some ((s.touch e).answer e a k) := by
      simp [step, hticket, hs, ha]
    have hrest : (k a).Meets (traced answers allows) post ((s.touch e).answer e a k).trace := by
      rw [State.answer_trace, State.touch_trace]
      exact hmeets.2 a hanswers
    obtain ⟨trace, r, hpost, ls, s', hperform, hrun, hret⟩ :=
      ih a ((s.touch e).answer e a k) rfl rfl hrest
    refine ⟨trace, r, hpost, .perform choose :: ls, s', ?_, ?_, hret⟩
    · simpa [Call.Label.isPerform] using hperform
    · rw [List.foldlM_cons, hstep]
      exact hrun

theorem ticket_of_instant {token : String} {program : Act V T} {s : Call.State V T}
    {choose : (e : Effect V) → Option (Answer e)} (h : (machine token loaded program).Reachable s)
    (hinstant : ∀ e k, s.program = .act e k → ∃ a, instant loaded s.mode choose e = some a) :
    s.ticket = none := by
  cases hticket : s.ticket with
  | none => rfl
  | some m =>
    obtain ⟨e, k, l, hk, hl⟩ := requested_of_ticket h hticket
    have hnone : instant loaded s.mode choose e = none := by
      cases e with
      | checkpoint _ _ | checkpointQueued _ _ | forceCheckpoint | terminate _ => rfl
      | _ => cases hl
    obtain ⟨a, ha⟩ := hinstant e k hk
    rw [hnone] at ha
    cases ha

theorem Call.DrawsOnly.cons {e : Effect V} {a : Answer e} (h : DrawsOnly n trace)
    (ha : Drawing loaded n trace e a) : DrawsOnly n (⟨e, a⟩ :: trace) := by
  unfold DrawsOnly at *
  rw [drawn]
  obtain hnone | hsome := h
  · rw [hnone, Option.none_or]
    cases hm : Event.counter ⟨e, a⟩ with
    | none => exact Or.inl rfl
    | some m => exact Or.inr (congrArg some (ha.2 hnone m hm))
  · rw [hsome]
    exact Or.inr rfl

theorem meets_drawsOnly (p : Act V T) : ∀ {trace}, DrawsOnly n trace →
    p.Meets (traced (fun trace e a => Drawing loaded n trace e a ∧ True) fun _ _ => True)
      (fun trace _ => DrawsOnly n trace) trace := by
  induction p with
  | ret r => exact fun h => h
  | act e k ih => exact fun h => ⟨trivial, fun a ha => ih a (h.cons ha.1)⟩

/-- A program that performs immediate effects only, if it draws the number `n`. -/
theorem surfacing_of_meets {token : String} {program : Act V T}
    {allows : List (Event V) → Effect V → Prop} {post : List (Event V) → T → Prop}
    (himmediate : ∀ trace e, allows trace e → Immediate e)
    (h : program.Meets (traced (fun trace e a => Drawing loaded n trace e a ∧ True) allows) post [])
    {s : Call.State V T} (hs : (machine token loaded program).Reachable s)
    (hn : DrawsOnly n s.trace) :
    (∀ e, s.program.next = some e ∨ (∃ a, ⟨e, a⟩ ∈ s.trace) → Immediate e) ∧
      ∃ trace r, DrawsOnly n trace ∧ post trace r ∧ Returns loaded s r := by
  have hrespects : Respects loaded (fun (_ : Call.State V T) (_ : Label V) => True)
      fun _ _ _ => True := fun _ _ _ _ _ _ _ _ _ => trivial
  have hmeets := meets_of_kept DrawsOnly.earlier DrawsOnly.number_eq hrespects h hs hn
  have hpermitted := permitted_of_kept DrawsOnly.earlier DrawsOnly.number_eq hrespects h hs hn
  have hnext : ∀ e k, s.program = .act e k → Immediate e := by
    intro e k hk
    rw [hk] at hmeets
    exact himmediate _ _ hmeets.1
  have hdrawing : ∀ trace mode e, allows trace e →
      ∃ a, instant loaded mode (drawing n) e = some a ∧ Drawing loaded n trace e a ∧ True := by
    intro trace mode e he
    obtain ⟨a, ha⟩ := instant_of_immediate (himmediate _ _ he)
    exact ⟨a, ha, ⟨answers_of_instant ha, fun _ _ hm => drawing_counter ha hm⟩, trivial⟩
  have hticket := ticket_of_instant hs fun e k hk => instant_of_immediate (n := n) (hnext e k hk)
  constructor
  · rintro e (he | ⟨a, hmem⟩)
    · cases hprogram : s.program with
      | ret r =>
        rw [hprogram] at he
        cases he
      | act e' k =>
        rw [hprogram] at he
        obtain rfl := Option.some.inj he
        exact hnext e' k hprogram
    · obtain ⟨later, earlier, htrace⟩ := List.append_of_mem hmem
      rw [htrace] at hpermitted
      exact himmediate _ _ (permitted_event hpermitted)
  · have hboth := Prog.Meets.and hmeets (meets_drawsOnly s.program hn) (fun _ _ _ ha => ha) rfl
    obtain ⟨trace, r, ⟨hpost, hdraws⟩, hreturns⟩ :=
      returns_of_meets (fun trace mode e he => hdrawing trace mode e he.1) s.program s rfl hticket hboth
    exact ⟨trace, r, hdraws, hpost, hreturns⟩

theorem surfacing_of_prompt {call : DurableCall V I} {ctx : ExecutionContext}
    {name : Option String} (h : Prompt loaded n [] (call.program ctx name)) {token : String}
    {s : Call.State V (DurableResult Unit)}
    (hs : (machine token loaded (call.program ctx name)).Reachable s)
    (hn : drawn s.trace = some n) : Surfacing loaded s := by
  obtain ⟨himmediate, -, r, -, -, hreturns⟩ := surfacing_of_meets (fun _ _ he => he) h hs (Or.inr hn)
  refine ⟨fun e k hk => himmediate e (Or.inl ?_), r, hreturns⟩
  rw [hk]
  rfl

/-- What becomes of the result does not matter. -/
theorem prompt_of_forget {S : Type} {p : Act V (DurableResult S)} :
    ∀ {trace}, Prompt loaded n trace (forget p) → Prompt loaded n trace p := by
  induction p with
  | ret r => exact fun _ => trivial
  | act e k ih => exact fun h => ⟨h.1, fun a ha => ih a (h.2 a ha)⟩

theorem prompt_act {e : Effect V} {k : Answer e → Act V T} (he : Immediate e)
    (hk : ∀ a, Drawing loaded n trace e a → Prompt loaded n (⟨e, a⟩ :: trace) (k a)) :
    Prompt loaded n trace (.act e k) :=
  ⟨he, fun a ha => hk a ha.1⟩

theorem prompt_getStepData {hashedId : String} {k : Option Operation → Act V T}
    (h : ∀ trace, Prompt loaded n trace (k (loaded hashedId))) :
    Prompt loaded n trace (.act (.getStepData hashedId) k) := by
  refine prompt_act trivial fun a ha => ?_
  obtain rfl : a = loaded hashedId := ha.1
  exact h _

theorem prompt_fetchAdd {c : Nat} {k : Nat → Act V T} (h : ∀ trace, Prompt loaded n trace (k n)) :
    Prompt loaded n [] (.act (.fetchAdd c) k) := by
  refine prompt_act trivial fun a ha => ?_
  obtain rfl : a = n := ha.2 rfl a rfl
  exact h _

end

/-! ## Which calls surface -/

/-- A recorded payload can be read. -/
def Readable (codec : Codec T) (payload : Option String) (context : SerdesContext) : Prop :=
  ∀ p, payload = some p → ∃ v, codec.deserialize (some p) context = .ok v

namespace DurableCall

/-- The record is one the call itself reads; `wait_for_callback` has one in the older
layout only. -/
def Recorded (op : Operation) : DurableCall V I → Prop
  | step _ | wait _ | waitForCondition _ | callback _ _ | callbackRaw _ _ | invoke _ _ _ => True
  | waitForCallback _ _ _ => op.operationType = .callback
  | runInChildContext _ | map _ _ | parallel _ _ => False

/-- What the call reads of a succeeded record can be read. -/
def Reads (context : SerdesContext) (op : Operation) : DurableCall V I → Prop
  | step config => Readable config.codec (op.stepDetails.bind (·.result)) context
  | waitForCondition config => Readable config.codec (op.stepDetails.bind (·.result)) context
  | callback _ codec => Readable codec (op.callbackDetails.bind (·.result)) context
  | waitForCallback config _ _ =>
    Readable config.codec (op.callbackDetails.bind (·.result)) context
  | invoke _ _ config =>
    Readable config.resultCodec (op.chainedInvokeDetails.bind (·.result)) context
  | _ => True

def waitsForNothing : DurableCall V I → Bool
  | wait duration => duration.isZero
  | _ => false

end DurableCall

section

variable {loaded : Table} {ctx : ExecutionContext} {name : Option String} {op : Operation} {n : Nat}

/-- What the call reads its payload in. -/
abbrev callContext (ctx : ExecutionContext) (name : Option String) (n : Nat) : SerdesContext :=
  ⟨callId ctx name n, ctx.durableExecutionArn⟩

theorem prompt_step (hop : loaded (callId ctx name n) = some op) (config : StepConfig V)
    (h : op.status = .failed ∨ op.status = .succeeded ∧
      Readable config.codec (op.stepDetails.bind (·.result)) (callContext ctx name n)) :
    Prompt loaded n [] (forget (ctx.step name userStep config)) := by
  refine prompt_fetchAdd fun _ => prompt_getStepData fun _ => ?_
  change Prompt loaded n _ (forget (Step.body ctx name userStep config _ _))
  obtain hfailed | ⟨hsucceeded, hread⟩ := h
  · simp only [hop, Step.body, Step.handleReplay, hfailed]
    trivial
  · simp only [hop, Step.body, Step.handleReplay, hsucceeded]
    cases hpayload : op.stepDetails.bind (·.result) with
    | none => trivial
    | some p =>
      obtain ⟨v, hv⟩ := hread p hpayload
      have hv' : config.codec.deserialize (some p) (ctx.site (callId ctx name n) name).context = .ok v := hv
      simp only [safeDeserialize, hv', Prog.ret_bind]
      cases v <;> trivial

theorem prompt_wait_zero {duration : Duration} (hzero : duration.isZero = true) :
    Prompt loaded n [] (ctx.wait name duration : Act V (DurableResult Unit)) := by
  refine prompt_fetchAdd fun _ => ?_
  change Prompt loaded n _ (Wait.runWait ctx name duration _ _)
  simp only [Wait.runWait, hzero, if_true]
  trivial

theorem prompt_wait (hop : loaded (callId ctx name n) = some op) (duration : Duration)
    (h : op.status = .failed ∨ op.status = .succeeded) :
    Prompt loaded n [] (ctx.wait name duration : Act V (DurableResult Unit)) := by
  cases hzero : duration.isZero with
  | true => exact prompt_wait_zero hzero
  | false =>
    refine prompt_fetchAdd fun _ => ?_
    change Prompt loaded n _ (Wait.runWait ctx name duration _ _)
    simp only [Wait.runWait, hzero, getStepData_bind, Bool.false_eq_true, if_false]
    refine prompt_getStepData fun _ => ?_
    obtain hfailed | hsucceeded := h
    · simp only [hop, hfailed]
      trivial
    · simp only [hop, hsucceeded]
      trivial

theorem prompt_waitForCondition (hop : loaded (callId ctx name n) = some op)
    (config : WaitConditionConfig V)
    (h : op.status = .failed ∨ op.status = .succeeded ∧
      Readable config.codec (op.stepDetails.bind (·.result)) (callContext ctx name n)) :
    Prompt loaded n [] (forget (ctx.waitForCondition name config)) := by
  refine prompt_fetchAdd fun _ => prompt_getStepData fun _ => ?_
  change Prompt loaded n _ (forget (WaitCondition.body ctx name config _ _))
  obtain hfailed | ⟨hsucceeded, hread⟩ := h
  · simp only [hop, WaitCondition.body, WaitCondition.handleReplay, hfailed]
    trivial
  · simp only [hop, WaitCondition.body, WaitCondition.handleReplay, hsucceeded]
    cases hpayload : op.stepDetails.bind (·.result) with
    | none => trivial
    | some p =>
      obtain ⟨v, hv⟩ := hread p hpayload
      have hv' : config.codec.deserialize (some p) (ctx.site (callId ctx name n) name).context = .ok v := hv
      simp only [safeDeserialize, hv', Prog.ret_bind]
      cases v <;> trivial

/-- A finished callback has an outcome, and reading it takes no effect. -/
theorem callback_outcome_finished (read : String → Act V (Option T)) (stepId : String)
    (h : op.status = .failed ∨ op.status = .succeeded ∧
      ∀ p, op.callbackDetails.bind (·.result) = some p → ∃ v, read p = .ret v) :
    ∃ r, Callback.outcome op stepId read = some (.ret r) := by
  obtain hfailed | ⟨hsucceeded, hread⟩ := h
  · exact ⟨.error (.callbackFailed stepId (Callback.errorMessage op)),
      by simp only [Callback.outcome, hfailed]⟩
  · simp only [Callback.outcome, hsucceeded]
    cases hpayload : op.callbackDetails.bind (·.result) with
    | none => exact ⟨_, rfl⟩
    | some p =>
      obtain ⟨v, hv⟩ := hread p hpayload
      simp only [hv, Prog.ret_bind]
      cases v <;> exact ⟨_, rfl⟩

theorem prompt_await {trace : List (Event V)} {handle : CallbackHandle V}
    (hop : loaded handle.hashedId = some op) {read : String → Act V (Option T)}
    (h : ∃ r, Callback.outcome op handle.stepId read = some (.ret r)) :
    Prompt loaded n trace (forget (Callback.await handle read)) := by
  obtain ⟨r, hr⟩ := h
  simp only [forget, Callback.await, getStepData_bind, Prog.act_andThen]
  refine prompt_getStepData fun _ => ?_
  simp only [hop, Option.bind_some, hr]
  cases r <;> trivial

theorem prompt_callback (hop : loaded (callId ctx name n) = some op)
    (config : Option (CallbackConfig V)) (codec : Codec V)
    (read : CallbackHandle V → String → Act V (Option T))
    (h : op.status = .failed ∨ op.status = .succeeded ∧
      ∀ callbackId p, op.callbackDetails.bind (·.result) = some p →
        ∃ v, read ⟨callbackId, ctx.operationId name n, callId ctx name n, ctx, codec⟩ p = .ret v) :
    Prompt loaded n []
      (forget ((ctx.createCallback name config codec).andThen fun handle =>
        Callback.await handle (read handle)) : Act V _) := by
  simp only [forget, ExecutionContext.createCallback, nextOperationId_bind, getStepData_bind,
    Prog.act_andThen]
  refine prompt_fetchAdd fun _ => prompt_getStepData fun _ => ?_
  simp only [hop, Prog.ret_ok_andThen, Prog.act_andThen]
  refine prompt_getStepData fun _ => ?_
  exact prompt_await hop (callback_outcome_finished _ _ (h.imp id fun hs => ⟨hs.1, hs.2 _⟩))

theorem prompt_waitForCallback (hop : loaded (callId ctx name n) = some op)
    (htype : op.operationType = .callback) (config : CallbackConfig V) (unitCodec : Codec Unit)
    (rawCodec : Codec String)
    (h : op.status = .failed ∨ op.status = .succeeded ∧
      Readable config.codec (op.callbackDetails.bind (·.result)) (callContext ctx name n)) :
    Prompt loaded n [] (forget (ctx.waitForCallback name config unitCodec rawCodec) : Act V _) := by
  refine prompt_fetchAdd fun _ => prompt_getStepData fun _ => ?_
  change Prompt loaded n _ (forget (Callback.body ctx name config unitCodec rawCodec _ _))
  obtain ⟨r, hr⟩ := callback_outcome_finished (fun payload => (safeDeserialize config.codec
      (some payload) (ctx.site (callId ctx name n) name) : Act V _))
    (ctx.operationId name n) (h.imp id fun hs => ⟨hs.1, fun p hp => by
      obtain ⟨v, hv⟩ := hs.2 p hp
      have hv' : config.codec.deserialize (some p) (ctx.site (callId ctx name n) name).context = .ok v := hv
      exact ⟨v, by simp only [safeDeserialize, hv']⟩⟩)
  simp only [hop, Callback.body, Callback.handleReplay, htype, hr, ne_eq, not_true_eq_false, if_false]
  cases r <;> trivial

theorem prompt_invoke (hop : loaded (callId ctx name n) = some op) (functionId : String)
    (input : Option I) (config : InvokeConfig I V)
    (h : op.status = .failed ∨ op.status = .succeeded ∧
      Readable config.resultCodec (op.chainedInvokeDetails.bind (·.result)) (callContext ctx name n)) :
    Prompt loaded n [] (forget (ctx.invokeWithConfig name functionId input config) : Act V _) := by
  refine prompt_fetchAdd fun _ => prompt_getStepData fun _ => ?_
  change Prompt loaded n _ (forget (Invoke.body ctx name functionId input config _ _))
  obtain hfailed | ⟨hsucceeded, hread⟩ := h
  · simp only [hop, Invoke.body, Invoke.handleReplay, Invoke.outcome, hfailed]
    trivial
  · simp only [hop, Invoke.body, Invoke.handleReplay, Invoke.outcome, hsucceeded]
    cases hpayload : op.chainedInvokeDetails.bind (·.result) with
    | none => trivial
    | some p =>
      obtain ⟨v, hv⟩ := hread p hpayload
      have hv' : config.resultCodec.deserialize (some p)
        (ctx.site (callId ctx name n) name).context = .ok v := hv
      simp only [safeDeserialize, hv', Prog.ret_bind]
      cases v <;> trivial

/-! ## The calls that do not surface -/

theorem not_surfaces_act {call : DurableCall V I} {e : Effect V}
    {k : Answer e → Act V (DurableResult Unit)}
    (h : Arrives "" loaded (call.program ctx name) n (.act e k)) (he : ¬ Immediate e) :
    ¬ Surfaces loaded ctx name call n := by
  intro hsurfaces
  obtain ⟨s, hs, -, hn, hprogram⟩ := h
  exact he ((hsurfaces "" s hs hn).immediate e k hprogram)

theorem not_surfaces_suspend {call : DurableCall V I} {result : TerminationResult}
    (h : Arrives "" loaded (call.program ctx name) n (suspend result)) :
    ¬ Surfaces loaded ctx name call n :=
  not_surfaces_act h id

/-- The catch-all branch of a step starts it anew. -/
theorem not_surfaces_unknownStep (hop : loaded (callId ctx name n) = some op)
    (hunknown : op.status = .unknown) (config : StepConfig V) :
    ¬ Surfaces loaded ctx name (.step config : DurableCall V I) n := by
  have hread : Arrives "" loaded ((.step config : DurableCall V I).program ctx name) n
      (.act (.getStepData (callId ctx name n)) fun operation =>
        forget (Step.body ctx name userStep config (ctx.operationId name n) operation)) :=
    arrives_of_fetchAdd rfl "" loaded n
  have hreplayed := hread.getStepData
  simp only [hop, Step.body, Step.handleReplay, hunknown, Prog.ret_ok_andThen, Step.runStepExecution,
    setMode_bind, forget_act] at hreplayed
  have hstart := hreplayed.setMode
  have hfresh : Step.alreadyStarted (some op) = false := by
    simp [Step.alreadyStarted, hunknown]
  simp only [hfresh, Bool.false_eq_true, if_false, Step.startStep] at hstart
  cases hsemantics : config.semantics with
  | atMostOncePerRetry =>
    simp only [hsemantics, checkpoint_of_build (Step.update_buildable ..), Prog.act_andThen,
      forget_act] at hstart
    exact not_surfaces_act hstart id
  | atLeastOncePerRetry =>
    simp only [hsemantics, checkpointQueued_of_build (Step.update_buildable ..), Prog.act_andThen,
      forget_act] at hstart
    exact not_surfaces_act hstart id

theorem not_surfaces_unknownWait (hop : loaded (callId ctx name n) = some op)
    (hunknown : op.status = .unknown) {duration : Duration} (hzero : duration.isZero = false) :
    ¬ Surfaces loaded ctx name (.wait duration : DurableCall V I) n := by
  have hrun : Arrives "" loaded ((.wait duration : DurableCall V I).program ctx name) n
      (Wait.runWait ctx name duration (ctx.operationId name n) (callId ctx name n)) :=
    arrives_of_fetchAdd rfl "" loaded n
  simp only [Wait.runWait, hzero, getStepData_bind, Bool.false_eq_true, if_false] at hrun
  have hread := hrun.getStepData
  simp only [hop, hunknown, setMode_bind] at hread
  exact not_surfaces_suspend hread.setMode

theorem not_surfaces_unknownCondition (hop : loaded (callId ctx name n) = some op)
    (hunknown : op.status = .unknown) (config : WaitConditionConfig V) :
    ¬ Surfaces loaded ctx name (.waitForCondition config : DurableCall V I) n := by
  obtain ⟨e, k, hchecks, h⟩ := arrives_unfinishedCondition (I := I) hop (by simp [hunknown])
    (by simp [hunknown]) config
  apply not_surfaces_act h
  cases hchecks <;> exact id

theorem callback_outcome_unknown (hunknown : op.status = .unknown) (stepId : String)
    (read : String → Act V (Option T)) : Callback.outcome op stepId read = none := by
  simp only [Callback.outcome, hunknown]

theorem arrives_await (call : DurableCall V I) (read : CallbackHandle V → String → Act V (Option T))
    (hop : loaded (callId ctx name n) = some op) {config : Option (CallbackConfig V)}
    {codec : Codec V}
    (hcall : call.program ctx name = forget ((ctx.createCallback name config codec).andThen
      fun handle => Callback.await handle (read handle))) :
    ∃ callbackId, ∀ handle : CallbackHandle V,
      handle = ⟨callbackId, ctx.operationId name n, callId ctx name n, ctx, codec⟩ →
      Arrives "" loaded (call.program ctx name) n (forget (Callback.await handle (read handle))) := by
  refine ⟨(op.callbackDetails.bind (·.callbackId)).getD
    s!"{ctx.durableExecutionArn}:{callId ctx name n}", ?_⟩
  rintro handle rfl
  have hform := hcall
  simp only [ExecutionContext.createCallback, nextOperationId_bind, getStepData_bind,
    Prog.act_andThen, forget_act, forget_andThen] at hform
  have hcreate := (arrives_of_fetchAdd hform "" loaded n).getStepData
  rw [hop] at hcreate
  have hstored := Arrives.getStepData hcreate
  rw [hop] at hstored
  exact hstored

theorem not_surfaces_unknownCallback {call : DurableCall V I}
    (read : CallbackHandle V → String → Act V (Option T))
    (hop : loaded (callId ctx name n) = some op) (hunknown : op.status = .unknown)
    {config : Option (CallbackConfig V)} {codec : Codec V}
    (hcall : call.program ctx name = forget ((ctx.createCallback name config codec).andThen
      fun handle => Callback.await handle (read handle))) : ¬ Surfaces loaded ctx name call n := by
  obtain ⟨callbackId, hawait⟩ := arrives_await call read hop hcall
  have hread := hawait _ rfl
  simp only [Callback.await, getStepData_bind, forget_act] at hread
  have hmark := Arrives.getStepData hread
  simp only [hop, Option.bind_some, callback_outcome_unknown hunknown, forget_act] at hmark
  have hsuspend := hmark.perform (fun _ => none) fun _ => rfl
  rw [forget_suspend] at hsuspend
  exact not_surfaces_suspend hsuspend

theorem not_surfaces_unknownWaitForCallback (hop : loaded (callId ctx name n) = some op)
    (hunknown : op.status = .unknown) (htype : op.operationType = .callback)
    (config : CallbackConfig V) (unitCodec : Codec Unit) (rawCodec : Codec String) :
    ¬ Surfaces loaded ctx name
      (.waitForCallback config unitCodec rawCodec : DurableCall V I) n := by
  have hread : Arrives "" loaded
      ((.waitForCallback config unitCodec rawCodec : DurableCall V I).program ctx name) n
      (.act (.getStepData (callId ctx name n)) fun operation => forget
        (Callback.body ctx name config unitCodec rawCodec (ctx.operationId name n) operation)) :=
    arrives_of_fetchAdd rfl "" loaded n
  have hreplayed := hread.getStepData
  simp only [hop, Callback.body, Callback.handleReplay, htype, callback_outcome_unknown hunknown,
    setMode_bind, Prog.act_andThen, suspend_andThen, forget_act, forget_suspend, ne_eq,
    not_true_eq_false, if_false] at hreplayed
  exact not_surfaces_suspend hreplayed.setMode

theorem not_surfaces_unknownInvoke (hop : loaded (callId ctx name n) = some op)
    (hunknown : op.status = .unknown) (functionId : String) (input : Option I)
    (config : InvokeConfig I V) :
    ¬ Surfaces loaded ctx name (.invoke functionId input config : DurableCall V I) n := by
  have hread : Arrives "" loaded
      ((.invoke functionId input config : DurableCall V I).program ctx name) n
      (.act (.getStepData (callId ctx name n)) fun operation => forget
        (Invoke.body ctx name functionId input config (ctx.operationId name n) operation)) :=
    arrives_of_fetchAdd rfl "" loaded n
  have hreplayed := hread.getStepData
  simp only [hop, Invoke.body, Invoke.handleReplay, Invoke.outcome, hunknown, Prog.act_andThen,
    forget_act] at hreplayed
  exact not_surfaces_act hreplayed id

theorem error_of_not_readable {codec : Codec T} {payload : Option String} {context : SerdesContext}
    (h : ¬ Readable codec payload context) :
    ∃ p e, payload = some p ∧ codec.deserialize (some p) context = .error e := by
  simp only [Readable, not_forall, exists_prop] at h
  obtain ⟨p, hp, hno⟩ := h
  cases hread : codec.deserialize (some p) context with
  | error e => exact ⟨p, e, hp, hread⟩
  | ok v => exact absurd ⟨v, hread⟩ hno

theorem safeDeserialize_of_error {codec : Codec T} {p e : String} {site : SerdesSite}
    (h : codec.deserialize (some p) site.context = .error e) :
    (safeDeserialize codec (some p) site : Act V (Option T)) =
      suspend (.withMessage .serdesFailed (site.failure "Deserialization failed" e)) := by
  simp only [safeDeserialize, h, terminateForSerdesFailure]

theorem not_surfaces_unreadableStep (hop : loaded (callId ctx name n) = some op)
    (hsucceeded : op.status = .succeeded) {config : StepConfig V}
    (h : ¬ Readable config.codec (op.stepDetails.bind (·.result)) (callContext ctx name n)) :
    ¬ Surfaces loaded ctx name (.step config : DurableCall V I) n := by
  obtain ⟨p, e, hp, herror⟩ := error_of_not_readable h
  have hread : Arrives "" loaded ((.step config : DurableCall V I).program ctx name) n
      (.act (.getStepData (callId ctx name n)) fun operation =>
        forget (Step.body ctx name userStep config (ctx.operationId name n) operation)) :=
    arrives_of_fetchAdd rfl "" loaded n
  have hreplayed := hread.getStepData
  have hsite : config.codec.deserialize (some p) (ctx.site (callId ctx name n) name).context =
      .error e := herror
  simp only [hop, Step.body, Step.handleReplay, hsucceeded, hp, safeDeserialize_of_error hsite,
    suspend_bind, suspend_andThen, forget_suspend] at hreplayed
  exact not_surfaces_suspend hreplayed

theorem not_surfaces_unreadableCondition (hop : loaded (callId ctx name n) = some op)
    (hsucceeded : op.status = .succeeded) {config : WaitConditionConfig V}
    (h : ¬ Readable config.codec (op.stepDetails.bind (·.result)) (callContext ctx name n)) :
    ¬ Surfaces loaded ctx name (.waitForCondition config : DurableCall V I) n := by
  obtain ⟨p, e, hp, herror⟩ := error_of_not_readable h
  have hread : Arrives "" loaded ((.waitForCondition config : DurableCall V I).program ctx name) n
      (.act (.getStepData (callId ctx name n)) fun operation =>
        forget (WaitCondition.body ctx name config (ctx.operationId name n) operation)) :=
    arrives_of_fetchAdd rfl "" loaded n
  have hreplayed := hread.getStepData
  have hsite : config.codec.deserialize (some p) (ctx.site (callId ctx name n) name).context =
      .error e := herror
  simp only [hop, WaitCondition.body, WaitCondition.handleReplay, hsucceeded, hp,
    safeDeserialize_of_error hsite, suspend_bind, suspend_andThen, forget_suspend] at hreplayed
  exact not_surfaces_suspend hreplayed

theorem not_surfaces_unreadableCallback (hop : loaded (callId ctx name n) = some op)
    (hsucceeded : op.status = .succeeded) {config : Option (CallbackConfig V)} {codec : Codec V}
    (h : ¬ Readable codec (op.callbackDetails.bind (·.result)) (callContext ctx name n)) :
    ¬ Surfaces loaded ctx name (.callback config codec : DurableCall V I) n := by
  obtain ⟨p, e, hp, herror⟩ := error_of_not_readable h
  obtain ⟨callbackId, hawait⟩ := arrives_await (.callback config codec : DurableCall V I)
    (fun handle payload => safeDeserialize handle.codec (some payload)
      (handle.executionCtx.site handle.hashedId (some handle.stepId))) hop rfl
  have hread := hawait _ rfl
  simp only [Callback.await, getStepData_bind, forget_act] at hread
  have hfinished := Arrives.getStepData hread
  have hsite : codec.deserialize (some p)
      (ctx.site (callId ctx name n) (some (ctx.operationId name n))).context = .error e := herror
  simp only [hop, Option.bind_some, Callback.outcome, hsucceeded, hp,
    safeDeserialize_of_error hsite, suspend_bind, forget_suspend] at hfinished
  exact not_surfaces_suspend hfinished

theorem not_surfaces_unreadableWaitForCallback (hop : loaded (callId ctx name n) = some op)
    (hsucceeded : op.status = .succeeded) (htype : op.operationType = .callback)
    {config : CallbackConfig V} {unitCodec : Codec Unit} {rawCodec : Codec String}
    (h : ¬ Readable config.codec (op.callbackDetails.bind (·.result)) (callContext ctx name n)) :
    ¬ Surfaces loaded ctx name
      (.waitForCallback config unitCodec rawCodec : DurableCall V I) n := by
  obtain ⟨p, e, hp, herror⟩ := error_of_not_readable h
  have hread : Arrives "" loaded
      ((.waitForCallback config unitCodec rawCodec : DurableCall V I).program ctx name) n
      (.act (.getStepData (callId ctx name n)) fun operation => forget
        (Callback.body ctx name config unitCodec rawCodec (ctx.operationId name n) operation)) :=
    arrives_of_fetchAdd rfl "" loaded n
  have hreplayed := hread.getStepData
  have hsite : config.codec.deserialize (some p) (ctx.site (callId ctx name n) name).context =
      .error e := herror
  simp only [hop, Callback.body, Callback.handleReplay, htype, Callback.outcome, hsucceeded, hp,
    safeDeserialize_of_error hsite, suspend_bind, suspend_andThen, forget_suspend, ne_eq,
    not_true_eq_false, if_false] at hreplayed
  exact not_surfaces_suspend hreplayed

theorem not_surfaces_unreadableInvoke (hop : loaded (callId ctx name n) = some op)
    (hsucceeded : op.status = .succeeded) {functionId : String} {input : Option I}
    {config : InvokeConfig I V}
    (h : ¬ Readable config.resultCodec (op.chainedInvokeDetails.bind (·.result))
      (callContext ctx name n)) :
    ¬ Surfaces loaded ctx name (.invoke functionId input config : DurableCall V I) n := by
  obtain ⟨p, e, hp, herror⟩ := error_of_not_readable h
  have hread : Arrives "" loaded
      ((.invoke functionId input config : DurableCall V I).program ctx name) n
      (.act (.getStepData (callId ctx name n)) fun operation => forget
        (Invoke.body ctx name functionId input config (ctx.operationId name n) operation)) :=
    arrives_of_fetchAdd rfl "" loaded n
  have hreplayed := hread.getStepData
  have hsite : config.resultCodec.deserialize (some p)
      (ctx.site (callId ctx name n) name).context = .error e := herror
  simp only [hop, Invoke.body, Invoke.handleReplay, Invoke.outcome, hsucceeded, hp,
    safeDeserialize_of_error hsite, suspend_bind, suspend_andThen, forget_suspend] at hreplayed
  exact not_surfaces_suspend hreplayed

/-! ## The statuses of the service -/

theorem prompt_of_finished {call : DurableCall V I} (hrecorded : call.Recorded op)
    (hop : loaded (callId ctx name n) = some op)
    (h : op.status = .failed ∨ op.status = .succeeded ∧ call.Reads (callContext ctx name n) op) :
    Prompt loaded n [] (call.program ctx name) := by
  cases call with
  | step config => exact prompt_step hop config h
  | wait duration => exact prompt_wait hop duration (h.imp id And.left)
  | waitForCondition config => exact prompt_waitForCondition hop config h
  | callback config codec =>
    refine prompt_callback hop config codec _ (h.imp id fun hs => ⟨hs.1, fun callbackId p hp => ?_⟩)
    obtain ⟨v, hv⟩ := hs.2 p hp
    have hsite : codec.deserialize (some p)
      (ctx.site (callId ctx name n) (some (ctx.operationId name n))).context = .ok v := hv
    exact ⟨v, by simp only [safeDeserialize, hsite]⟩
  | callbackRaw config codec =>
    exact prompt_callback hop config codec (fun _ payload => .ret (some payload))
      (h.imp id fun hs => ⟨hs.1, fun _ p _ => ⟨some p, rfl⟩⟩)
  | waitForCallback config unitCodec rawCodec =>
    exact prompt_waitForCallback hop hrecorded config unitCodec rawCodec h
  | invoke functionId input config => exact prompt_invoke hop functionId input config h
  | runInChildContext _ | map _ _ | parallel _ _ => exact hrecorded.elim

theorem surfaces_of_finished {call : DurableCall V I} (hrecorded : call.Recorded op)
    (hop : loaded (callId ctx name n) = some op)
    (h : op.status = .failed ∨ op.status = .succeeded ∧ call.Reads (callContext ctx name n) op) :
    Surfaces loaded ctx name call n :=
  fun _ _ hs hn => surfacing_of_prompt (prompt_of_finished hrecorded hop h) hs hn

theorem not_surfaces_unknown {call : DurableCall V I} (hrecorded : call.Recorded op)
    (hop : loaded (callId ctx name n) = some op) (hunknown : op.status = .unknown)
    (hnothing : call.waitsForNothing = false) : ¬ Surfaces loaded ctx name call n := by
  cases call with
  | step config => exact not_surfaces_unknownStep hop hunknown config
  | wait duration => exact not_surfaces_unknownWait hop hunknown hnothing
  | waitForCondition config => exact not_surfaces_unknownCondition hop hunknown config
  | callback config codec =>
    exact not_surfaces_unknownCallback (fun handle payload => safeDeserialize handle.codec
      (some payload) (handle.executionCtx.site handle.hashedId (some handle.stepId))) hop hunknown rfl
  | callbackRaw config codec =>
    exact not_surfaces_unknownCallback (fun _ payload => .ret (some payload)) hop hunknown rfl
  | waitForCallback config unitCodec rawCodec =>
    exact not_surfaces_unknownWaitForCallback hop hunknown hrecorded config unitCodec rawCodec
  | invoke functionId input config =>
    exact not_surfaces_unknownInvoke hop hunknown functionId input config
  | runInChildContext _ | map _ _ | parallel _ _ => exact hrecorded.elim

theorem not_surfaces_unreadable {call : DurableCall V I} (hrecorded : call.Recorded op)
    (hop : loaded (callId ctx name n) = some op) (hsucceeded : op.status = .succeeded)
    (hreads : ¬ call.Reads (callContext ctx name n) op) : ¬ Surfaces loaded ctx name call n := by
  cases call with
  | step config => exact not_surfaces_unreadableStep hop hsucceeded hreads
  | waitForCondition config => exact not_surfaces_unreadableCondition hop hsucceeded hreads
  | callback config codec => exact not_surfaces_unreadableCallback hop hsucceeded hreads
  | waitForCallback config unitCodec rawCodec =>
    exact not_surfaces_unreadableWaitForCallback hop hsucceeded hrecorded hreads
  | invoke functionId input config => exact not_surfaces_unreadableInvoke hop hsucceeded hreads
  | _ => exact absurd trivial hreads

/-- A call whose operation the service has finished returns at once, exactly where the
crate knows the status and can read the result. -/
theorem surfaces_iff {call : DurableCall V I} (hrecorded : call.Recorded op)
    (hop : loaded (callId ctx name n) = some op) {status : SdkOperationStatus}
    (hfinal : status.isFinal = true) (hdelivered : Delivered status op) :
    Surfaces loaded ctx name call n ↔ call.waitsForNothing = true ∨ status = .failed ∨
      status = .succeeded ∧ call.Reads (callContext ctx name n) op := by
  have hstatus := hdelivered.status_eq hfinal
  constructor
  · intro hsurfaces
    by_contra hnot
    obtain ⟨hnothing, hfailed, hsucceeded⟩ : call.waitsForNothing = false ∧ status ≠ .failed ∧
        (status = .succeeded → ¬ call.Reads (callContext ctx name n) op) := by
      simpa only [not_or, not_and, Bool.not_eq_true] using hnot
    cases status with
    | failed => exact hfailed rfl
    | succeeded => exact not_surfaces_unreadable hrecorded hop hstatus (hsucceeded rfl) hsurfaces
    | timedOut | cancelled | stopped =>
      exact not_surfaces_unknown hrecorded hop hstatus hnothing hsurfaces
    | _ => cases hfinal
  · rintro (hnothing | rfl | ⟨rfl, hreads⟩)
    · cases call with
      | wait duration =>
        intro token s hs hn
        exact surfacing_of_prompt (prompt_wait_zero hnothing) hs hn
      | _ => cases hnothing
    · exact surfaces_of_finished hrecorded hop (Or.inl hstatus)
    · exact surfaces_of_finished hrecorded hop (Or.inr ⟨hstatus, hreads⟩)

end

/-- A callback whose timer has expired, as a response of the service brings it. -/
def expired (hashedId : String) : SdkOperation :=
  { id := hashedId, type := .callback, status := .timedOut,
    callbackDetails := some { callbackId := some "callback-1" } }

/-- The table that holds a record of the service. -/
def deliveredTable (record : SdkOperation) : Table :=
  Function.update (fun _ => none) record.id (some (sdkOperationToOperation record))

theorem deliveredTable_callId {record : SdkOperation} (h : record.id = "op_0") :
    deliveredTable record (callId rootContext none 0) = some (sdkOperationToOperation record) := by
  have hid : callId rootContext none 0 = record.id := h.symm
  rw [deliveredTable, hid, Function.update_self]

theorem surfaces_iff_failedCallback :
    Surfaces (deliveredTable { expired "op_0" with status := .failed }) rootContext none
        (.callback none .nat : DurableCall Nat Nat) 0 ↔
      false = true ∨ SdkOperationStatus.failed = .failed ∨ SdkOperationStatus.failed = .succeeded ∧
        (DurableCall.callback none .nat : DurableCall Nat Nat).Reads (callContext rootContext none 0)
          (sdkOperationToOperation { expired "op_0" with status := .failed }) :=
  surfaces_iff (show (.callback none .nat : DurableCall Nat Nat).Recorded _ from trivial)
    (deliveredTable_callId rfl) rfl (.sdk rfl)

/-- The wait for an expired callback suspends the invocation. -/
theorem expiredCallback_suspends :
    ¬ ∀ (call : DurableCall Nat Nat) (loaded : Table) (ctx : ExecutionContext) (name : Option String)
      (n : Nat) (op : Operation) (status : SdkOperationStatus), call.Recorded op →
      loaded (callId ctx name n) = some op → status.isFinal = true → Delivered status op →
      Surfaces loaded ctx name call n := by
  intro h
  have hsurfaces := h (.callback (some { timeout := some (.ofSeconds 60), codec := .nat }) .nat)
    (deliveredTable (expired "op_0")) rootContext none 0 _ .timedOut trivial
    (deliveredTable_callId rfl) rfl (.sdk rfl)
  exact not_surfaces_unknownCallback (fun handle payload => safeDeserialize handle.codec
    (some payload) (handle.executionCtx.site handle.hashedId (some handle.stepId)))
    (deliveredTable_callId rfl) rfl rfl hsurfaces

end LambdaDurable
