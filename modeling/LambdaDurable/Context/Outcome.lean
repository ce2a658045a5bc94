import LambdaDurable.Context.Orders

/-!
# What is recorded when a call returns

A call that returns a value, or an error after user code has failed, finds a final record
of its operation with the service; `wait_for_condition` and the joins of `map` and
`parallel` have an exit that skips it.
-/

namespace LambdaDurable

open Effects Call Backend

variable {V I T : Type}

section

variable {loaded : Table} {n : Nat} {id i : String} {trace : List (Event V)}

/-! ## `map` and `parallel` -/

/-- An effect that sends nothing, before any final update. -/
theorem orders_unsettled {q : List (Event V) → T → Prop} {e : Effect V} {k : Answer e → Act V T}
    (he : e.updates = []) (h : Unsettled id trace)
    (hk : ∀ a trace, skipsRecord e a = false → Unsettled id trace → Orders loaded n id q (k a) trace) :
    Orders loaded n id q (.act e k) trace :=
  orders_act he h.orderly fun a _ ha _ => hk a _ ha (h.quiet he)

theorem orders_complete (spec : BatchSpec) (ctx : ExecutionContext) (name : Option String)
    (cfg : BatchConfig V) (stepId hashedId : String) (totalItems : Nat) (p : Batch.Progress V)
    (h : Unsettled id trace) :
    Orders loaded n id (Accounted loaded id hashedId)
      (Batch.complete spec ctx name cfg stepId hashedId totalItems p) trace := by
  simp only [Batch.complete, safeSerializeRequiredWithSerdes]
  split
  · rename_i payload _
    have hupdate : ∀ summary, (Batch.succeedUpdate spec hashedId payload summary).action = .succeed ∧
        (Batch.succeedUpdate spec hashedId payload summary).id = hashedId ∧
        isExternal (Batch.succeedUpdate spec hashedId payload summary).operationType = false := by
      intro summary
      unfold Batch.succeedUpdate
      dsimp only
      split <;> exact ⟨rfl, rfl, rfl⟩
    exact (orders_succeed (Batch.succeedUpdate_buildable ..) (hupdate _).1 (hupdate _).2.1
      (hupdate _).2.2 h.orderly (h.uniform .succeed)).mono fun _ _ hr => hr.1
  · rw [terminateForSerdesFailure, suspend_bind]
    exact orders_suspend h.orderly
  · rw [terminateForSerdesFailure, suspend_bind]
    exact orders_suspend h.orderly

theorem orders_spawnChildren (ctx : ExecutionContext) (cfg : BatchConfig V) (totalItems : Nat)
    (p : Batch.Progress V) (children : List (String × Nat)) (h : Unsettled id trace) :
    Orders loaded n id (fun trace _ => Unsettled id trace)
      (Batch.spawnChildren ctx cfg totalItems p children) trace := by
  induction children generalizing p trace with
  | nil => exact orders_ret h.orderly h
  | cons child rest ih =>
    rw [Batch.spawnChildren]
    split
    · refine orders_unsettled rfl h fun _ _ _ h => orders_unsettled rfl h fun _ _ _ h => ?_
      exact ih _ h
    · exact orders_ret h.orderly h

theorem orders_runLoop (spec : BatchSpec) (ctx : ExecutionContext) (name : Option String)
    (cfg : BatchConfig V) (stepId hashedId : String) (totalItems : Nat)
    {afterLoop : Batch.Progress V → Act V (DurableResult (BatchResult V))}
    (hafter : ∀ p trace, Unsettled id trace →
      Orders loaded n id (Accounted loaded id hashedId) (afterLoop p) trace)
    (turns : Nat) (children : List (String × Nat)) (p : Batch.Progress V) (h : Unsettled id trace) :
    Orders loaded n id (Accounted loaded id hashedId)
      (Batch.runLoop spec ctx name cfg stepId hashedId totalItems afterLoop turns children p)
      trace := by
  induction turns generalizing children p trace with
  | zero => exact orders_unsettled rfl h fun a => a.elim
  | succ turns ih =>
    rw [Batch.runLoop]
    refine orders_bind (orders_spawnChildren ctx cfg totalItems p children h) fun r trace _ h => ?_
    dsimp only
    split
    · exact hafter _ _ h
    · refine orders_unsettled rfl h fun joined _ hjoined h => ?_
      cases joined with
      | error message => cases hjoined
      | ok joined =>
        obtain ⟨index, res⟩ := joined
        rw [Batch.joined]
        split
        · split
          · exact orders_complete _ _ _ _ _ _ _ _ h
          · exact orders_unsettled rfl h fun _ _ _ h => orders_complete _ _ _ _ _ _ _ _ h
        · exact ih _ _ h

/-- What `map` and `parallel` do with their record. -/
def EvaluatesBatch (loaded : Table) (id i : String) (trace : List (Event V)) :
    DurableResult (Batch.ReplayDecision V) → Prop
  | .ok .continue => Fresh id trace
  | .ok _ => Fresh id trace ∧ loaded.terminal i = true
  | .error _ => ¬ Failing trace

theorem orders_consumeIds (ctx : ExecutionContext) (itemNames : List String) (h : Fresh id trace) :
    Orders loaded n id (fun trace _ => Fresh id trace) (Batch.consumeIds ctx itemNames : Act V Unit)
      trace := by
  induction itemNames generalizing trace with
  | nil => exact orders_ret h.orderly h
  | cons itemName rest ih => exact orders_quiet rfl (fun _ => rfl) h fun _ _ h => ih h

theorem orders_batchReplay (spec : BatchSpec) (ctx : ExecutionContext) (name : Option String)
    (cfg : BatchConfig V) (itemNames : List String) (hashedId : String) (h : Fresh id trace) :
    Orders loaded n id (EvaluatesBatch loaded id hashedId)
      (Batch.evaluateReplay spec ctx name cfg itemNames hashedId) trace := by
  simp only [Batch.evaluateReplay, getStepData_bind, setMode_bind]
  refine orders_getStepData h fun trace h => ?_
  cases hop : loaded hashedId with
  | none => exact orders_ret h.orderly h
  | some op =>
    dsimp only
    split
    · exact orders_ret h.orderly h.2
    · rename_i hstatus
      have hterm := terminal_of_status hop (by rw [hstatus]; rfl)
      split
      · exact orders_ret h.orderly h
      · split
        · split
          · exact orders_ret h.orderly h
          · split
            · exact orders_ret h.orderly h.2
            · exact orders_ret h.orderly ⟨h, hterm⟩
        · unfold safeDeserializeRequiredWithSerdes
          split
          · rw [Prog.ret_bind]
            split
            · exact orders_ret h.orderly h.2
            · exact orders_bind (orders_consumeIds ctx _ h) fun _ _ horder h =>
                orders_ret horder ⟨h, hterm⟩
          · rw [terminateForSerdesFailure, suspend_bind]
            exact orders_suspend h.orderly
          · rw [terminateForSerdesFailure, suspend_bind]
            exact orders_suspend h.orderly
    · exact orders_quiet rfl (fun _ => rfl) h fun _ _ h => orders_ret h.orderly h

/-- A recorded child whose closure is run again sends nothing. -/
theorem orders_rerun (parent : ExecutionContext) (stepId hashedId : String) (name : Option String)
    (config : ChildContextConfig V) {op : Operation} (hop : loaded hashedId = some op)
    (hstatus : op.status = .succeeded) (hreplay : op.replayChildren = true)
    (h : Unsettled id trace) :
    Orders loaded n id (fun trace _ => Unsettled id trace)
      (parent.runInChildContextWithIds stepId hashedId name userContext config) trace := by
  refine orders_act rfl h.orderly fun a ha _ _ => ?_
  have h := h.quiet (e := .getStepData hashedId) (a := a) rfl
  obtain rfl : a = loaded hashedId := ha.1
  change Orders _ _ _ _ ((Child.evaluateReplay parent (loaded hashedId) _ _ _ _).andThen _) _
  simp only [hop, Child.evaluateReplay, hstatus, hreplay, if_true, Prog.ret_ok_andThen,
    withParentId_bind]
  rw [hop] at h
  refine orders_unsettled rfl h fun _ _ _ h => orders_unsettled rfl h fun _ _ _ h => ?_
  exact orders_ret h.orderly h

theorem orders_reconstructChild (spec : BatchSpec) (ctx : ExecutionContext) (cfg : BatchConfig V)
    (parent : ExecutionContext) {op : Operation} (stepId hashedId itemName : String) (index : Nat)
    (p : Batch.Progress V) (hop : loaded hashedId = some op) (h : Unsettled id trace) :
    Orders loaded n id (fun trace _ => Unsettled id trace)
      (Batch.reconstructChild spec ctx cfg parent op stepId hashedId itemName index p) trace := by
  unfold Batch.reconstructChild
  split
  · rename_i hstatus
    split
    · rename_i hreplay
      exact orders_bind (orders_rerun parent stepId hashedId _ _ hop hstatus hreplay h)
        fun _ _ horder h => orders_ret horder h
    · refine orders_safeDeserialize_bind h.orderly fun val => ?_
      cases val <;> exact orders_ret h.orderly h
  · exact orders_ret h.orderly h
  · exact orders_ret h.orderly h

theorem orders_reconstructChildren (spec : BatchSpec) (ctx : ExecutionContext) (cfg : BatchConfig V)
    (parent : ExecutionContext) (children : List (String × Nat)) (p : Batch.Progress V)
    (h : Unsettled id trace) :
    Orders loaded n id (fun trace _ => Unsettled id trace)
      (Batch.reconstructChildren spec ctx cfg parent children p) trace := by
  induction children generalizing p trace with
  | nil => exact orders_ret h.orderly h
  | cons child rest ih =>
    simp only [Batch.reconstructChildren, nextOperationId_bind, getStepData_bind]
    refine orders_unsettled rfl h fun counter _ _ h => orders_act rfl h.orderly fun a ha _ _ => ?_
    have h := h.quiet (e := .getStepData (ctx.hashId (ctx.operationId (some child.1) counter))) (a := a) rfl
    obtain rfl : a = loaded (ctx.hashId (ctx.operationId (some child.1) counter)) := ha.1
    cases hop : loaded (ctx.hashId (ctx.operationId (some child.1) counter)) with
    | none =>
      rw [hop] at h
      exact orders_ret h.orderly h
    | some op =>
      rw [hop] at h
      exact orders_andThen (orders_reconstructChild spec ctx cfg parent _ _ _ _ p hop h)
        (fun p _ _ h => ih p h) fun _ _ h => h

theorem orders_batch {spec : BatchSpec} (ctx : ExecutionContext) (name : Option String)
    (cfg : BatchConfig V) (itemNames : List String)
    {execute : (stepId hashedId : String) → Act V (DurableResult (BatchResult V))}
    (hexecute : ∀ stepId trace, Unsettled id trace →
      Orders loaded n id (Accounted loaded id (callId ctx name n)) (execute stepId (callId ctx name n))
        trace) :
    Orders loaded n id (Accounted loaded id (callId ctx name n))
      (Batch.run spec ctx name cfg itemNames execute) [] := by
  have hnil : Fresh id ([] : List (Event V)) := fresh_nil
  unfold Batch.run
  split
  · exact orders_ret hnil.orderly (concluded_error hnil.2 _).1
  · simp only [getMode_bind, nextOperationId_bind, getStepData_bind]
    refine orders_act rfl hnil.orderly fun mode _ _ _ => ?_
    have hmode : Fresh id [⟨Effect.getMode, mode⟩] := hnil.quiet rfl rfl
    refine orders_act rfl hmode.orderly fun counter hcounter _ _ => ?_
    obtain rfl : counter = n := hcounter.2 rfl counter rfl
    refine orders_getStepData (hmode.quiet rfl rfl) fun trace h => ?_
    refine orders_andThen (m := fun trace _ => Fresh id trace) ?_ (fun _ trace _ h => ?_)
      fun e trace h => (concluded_error h.2 e).1
    · cases loaded (callId ctx name counter) with
      | none => exact orders_checkpoint rfl h
      | some op => exact orders_ret h.orderly h
    · cases mode with
      | execution => exact hexecute _ _ h.1
      | replay =>
        refine orders_andThen (orders_batchReplay spec ctx name cfg itemNames _ h)
          (fun decision trace horder hdecision => ?_) fun e _ hr => (concluded_error hr e).1
        cases decision with
        | «return» result => exact orders_ret horder (hdecision.1.concluded hdecision.2 _).1
        | «continue» => exact hexecute _ _ hdecision.1
        | reconstruct totalCount =>
          obtain ⟨h, hterm⟩ := hdecision
          have haccounted : ∀ (trace : List (Event V)) (r : DurableResult (BatchResult V)),
              Unsettled id trace → Accounted loaded id (callId ctx name counter) trace r := fun _ r h =>
            ⟨h.consistent r, fun _ => Or.inl hterm⟩
          simp only [Batch.reconstructFromChildren, withParentId_bind]
          split
          · exact orders_ret horder (haccounted _ _ h.1)
          · refine orders_unsettled rfl h.1 fun _ _ _ h => ?_
            exact orders_andThen (orders_reconstructChildren spec ctx cfg _ _ _ h)
              (fun _ _ horder h => orders_ret horder (haccounted _ _ h)) fun _ _ h => haccounted _ _ h

theorem orders_runMapExecution (ctx : ExecutionContext) (name : Option String) (cfg : BatchConfig V)
    (itemNames : List String) (stepId hashedId : String) (h : Unsettled id trace) :
    Orders loaded n id (Accounted loaded id hashedId)
      (Batch.runMapExecution ctx name cfg itemNames stepId hashedId) trace := by
  unfold Batch.runMapExecution
  split
  · exact orders_complete _ _ _ _ _ _ _ _ h
  · refine orders_runLoop _ _ _ _ _ _ _ (fun p trace h => ?_) _ _ _ h
    exact orders_unsettled rfl h fun a => a.elim

/-! ## Every call -/

theorem orders_forget {p : Act V (DurableResult T)}
    (h : Orders loaded n id (Accounted loaded id i) p trace) :
    Orders loaded n id (Accounted loaded id i) (forget p) trace := by
  refine orders_bind h fun r trace horder hr => ?_
  cases r with
  | ok a => exact orders_ret horder ⟨hr.1, fun _ => hr.2 (Or.inl ⟨a, rfl⟩)⟩
  | error e => exact orders_ret horder hr.error

theorem orders_callback (ctx : ExecutionContext) (name : Option String)
    (config : Option (CallbackConfig V)) (codec : Codec V)
    {read : CallbackHandle V → Act V (DurableResult T)}
    (hread : ∀ (handle : CallbackHandle V) trace, Fresh id trace →
      Orders loaded n id (Concluded loaded id handle.hashedId) (read handle) trace) :
    Orders loaded n id (Accounted loaded id (callId ctx name n))
      (forget ((ctx.createCallback name config codec).andThen read)) [] := by
  have hcallback : Orders loaded n id (Concluded loaded id (callId ctx name n))
      ((ctx.createCallback name config codec).andThen read) [] := by
    refine orders_createCallback_andThen ctx name config codec fresh_nil
      (fun counter callbackId trace hn h => ?_) fun e trace h => concluded_error h.2 e
    obtain rfl := hn rfl
    exact hread ⟨callbackId, ctx.operationId name counter, callId ctx name counter, ctx, codec⟩
      trace h
  exact orders_forget (hcallback.mono fun _ _ hr => hr.1)

theorem orders_program (ctx : ExecutionContext) (name : Option String) (call : DurableCall V I)
    (hzero : ∀ duration, call = .wait duration → duration.isZero = false) :
    Orders loaded n (callId ctx name n) (Accounted loaded (callId ctx name n) (callId ctx name n))
      (call.program ctx name) [] := by
  have hnil : Fresh (callId ctx name n) ([] : List (Event V)) := fresh_nil
  cases call with
  | step config =>
    refine orders_forget ?_
    simp only [ExecutionContext.step, nextOperationId_bind, getStepData_bind]
    refine orders_act rfl hnil.orderly fun counter hcounter _ _ => ?_
    obtain rfl : counter = n := hcounter.2 rfl counter rfl
    refine orders_getStepData (hnil.quiet rfl rfl) fun trace h => ?_
    exact (orders_stepBody ctx name config _ (fun attempt trace h => orders_userStep _ attempt h)
      h).mono fun _ _ hr => hr.1
  | wait duration =>
    simp only [DurableCall.program, ExecutionContext.wait, nextOperationId_bind]
    refine orders_act rfl hnil.orderly fun counter hcounter _ _ => ?_
    obtain rfl : counter = n := hcounter.2 rfl counter rfl
    exact (orders_runWait ctx name _ _ (hzero duration rfl) (hnil.quiet rfl rfl)).mono
      fun _ _ hr => hr.1
  | waitForCondition config =>
    exact orders_forget ((orders_waitForCondition ctx name config).mono fun _ _ hr => hr.1)
  | callback config codec =>
    refine orders_callback ctx name config codec fun handle trace h => ?_
    refine orders_await handle (fun _ _ _ horder hf => orders_safeDeserialize_bind horder hf) h.orderly
      fun a r hterm => ?_
    exact (h.quiet (e := .getStepData handle.hashedId) (a := a) rfl rfl).concluded hterm r
  | callbackRaw config codec =>
    refine orders_callback ctx name config codec fun handle trace h => ?_
    refine orders_await handle (fun _ _ _ _ hf => hf _) h.orderly fun a r hterm => ?_
    exact (h.quiet (e := .getStepData handle.hashedId) (a := a) rfl rfl).concluded hterm r
  | waitForCallback config unitCodec rawCodec =>
    exact orders_forget
      ((orders_waitForCallback ctx name config unitCodec rawCodec).mono fun _ _ hr => hr.1)
  | invoke functionId input config =>
    exact orders_forget ((orders_invoke ctx name functionId input config).mono fun _ _ hr => hr.1)
  | runInChildContext config =>
    refine orders_forget ?_
    simp only [ExecutionContext.runInChildContext, nextOperationId_bind]
    refine orders_act rfl hnil.orderly fun counter hcounter _ _ => ?_
    obtain rfl : counter = n := hcounter.2 rfl counter rfl
    exact (orders_runInChildContextWithIds ctx _ _ name config
      (fun counter trace h => orders_userContext _ h) (hnil.quiet rfl rfl)).mono fun _ _ hr => hr.1
  | map items config =>
    refine orders_forget (orders_batch ctx name _ _ fun stepId trace h => ?_)
    exact orders_runMapExecution ctx name _ _ stepId _ h
  | parallel branches config =>
    refine orders_forget (orders_batch ctx name _ _ fun stepId trace h => ?_)
    exact orders_runLoop _ _ _ _ _ _ _ (fun p trace h => orders_complete _ _ _ _ _ _ _ p h) _ _ _ h

/-- A record of the older layout is not that of a context. -/
theorem orders_olderLayout (ctx : ExecutionContext) (name : Option String)
    (config : CallbackConfig V) (unitCodec : Codec Unit) (rawCodec : Codec String) {op : Operation}
    (hop : loaded (callId ctx name n) = some op) (htype : op.operationType = .callback) :
    Orders loaded n (callId ctx name n) (fun _ _ => loaded.terminal (callId ctx name n) = true)
      (forget (ctx.waitForCallback name config unitCodec rawCodec : Act V _)) [] := by
  refine orders_act rfl fresh_nil.orderly fun counter hcounter _ _ => ?_
  obtain rfl : counter = n := hcounter.2 rfl counter rfl
  refine orders_getStepData (fresh_nil.quiet rfl rfl) fun trace h => ?_
  change Orders loaded counter _ _ (forget (Callback.body ..)) trace
  rw [show loaded (ctx.hashId (ctx.operationId name counter)) = some op from hop, Callback.body,
    forget_andThen]
  simp only [Callback.handleReplay, htype, ne_eq, not_true, if_false]
  split
  · rename_i hfinished
    rw [Prog.andThen_assoc]
    refine orders_andThen (orders_callbackOutcome hop hfinished
      (q := fun _ _ => loaded.terminal (callId ctx name counter) = true)
      (fun payload f hf => orders_safeDeserialize_bind h.orderly hf) h.orderly fun _ hterm => hterm)
      (fun val trace horder hterm => orders_ret horder hterm) fun e _ hterm => hterm
  · simp only [setMode_bind, Prog.act_andThen, suspend_andThen]
    exact orders_act rfl h.orderly fun _ _ _ h => orders_suspend h

end

/-! ## Runs -/

/-- The type of the updates a call sends under its own ID. -/
def DurableCall.updateType : DurableCall V I → OperationType
  | .waitForCallback _ _ _ => .context
  | call => call.operationType

/-- A record the call may have left, in the layout of today or in the older one. -/
def DurableCall.Describes (call : DurableCall V I) (op : Operation) : Prop :=
  op.operationType = call.updateType ∨ op.operationType = call.operationType

/-- The status that stands for a result. -/
def recordedAs : DurableResult T → OperationStatus
  | .ok _ => .succeeded
  | .error _ => .failed

/-- A step in which no batch fails, no check and no join does, and nobody else sends an
update of the operation. -/
structure Accountable (call : DurableCall V I) (id : String)
    (s : Call.State V (DurableResult Unit)) (l : Call.Label V) : Prop where
  undisturbed : Undisturbed id s l
  own : ∀ e k, s.program = .act e k → ∀ u ∈ e.updates, u.id = id → u.operationType = call.updateType
  answered : ∀ choose e k a, l = .perform choose → s.program = .act e k → choose e = some a →
    skipsRecord e a = false

section

variable {token : String} {loaded : Table} {ctx : ExecutionContext} {name : Option String} {n : Nat}
  {call : DurableCall V I} {id : String} {s : Call.State V (DurableResult Unit)}

theorem skipsRecord_of_instant {mode : ExecutionMode} {choose : (e : Effect V) → Option (Answer e)}
    {e : Effect V} {a : Answer e} (h : instant loaded mode choose e = some a)
    (hchoose : choose e = some a → skipsRecord e a = false) : skipsRecord e a = false := by
  cases e with
  | checkFn _ _ | joinNext => exact hchoose h
  | _ => rfl

theorem skipsRecord_of_outcome {m : CheckpointManager.State} {k : Nat} {e : Effect V} {a : Answer e}
    (h : outcome m k e = some a) : skipsRecord e a = false := by
  cases e with
  | checkFn _ _ | joinNext => cases h
  | _ => rfl

theorem respects_accountable :
    Respects loaded (Accountable call id) fun _ e a => skipsRecord e a = false := by
  intro s l s' hl hmove e a htrace _
  cases hmove with
  | manager _ | setMode | service _ | request _ _ _ _ =>
    have hlength := congrArg List.length htrace
    simp [State.manage] at hlength
  | perform _ hprogram ha =>
    rw [State.answer_trace, State.touch_trace] at htrace
    cases (List.cons.inj htrace).1
    exact skipsRecord_of_instant ha (hl.answered _ _ _ _ rfl hprogram)
  | resume _ _ ha =>
    cases (List.cons.inj htrace).1
    exact skipsRecord_of_outcome ha

theorem sent_own (h : (machine token loaded (call.program ctx name)).ReachableBy (Accountable call id) s) :
    ∀ u ∈ naming id (sent s.trace), u.operationType = call.updateType := by
  refine h.invariant (I := fun s => ∀ u ∈ naming id (sent s.trace), u.operationType = call.updateType)
    ?_ ?_
  · rintro _ ⟨mode, rfl⟩ u hu
    exact (List.not_mem_nil hu).elim
  · intro s l s' _ hs hl hstep
    have hanswer : ∀ {e : Effect V} {k} {a : Answer e}, s.program = .act e k →
        ∀ u ∈ naming id (sent (⟨e, a⟩ :: s.trace)), u.operationType = call.updateType := by
      intro e k a hprogram u hu
      rw [sent, naming_append] at hu
      obtain hu | hu := List.mem_append.mp hu
      · exact hs u hu
      · exact hl.own e k hprogram u (List.mem_filter.mp hu).1 (naming_id hu)
    cases move_of_step hstep with
    | manager _ | setMode | service _ | request _ _ _ _ => exact hs
    | perform _ hprogram _ =>
      rw [State.answer_trace, State.touch_trace]
      exact hanswer hprogram
    | resume _ hprogram _ => exact hanswer hprogram

/-- A final update that a returned checkpoint has sent is among those the service has. -/
theorem accepted_of_acknowledged {α : Type} {s : Call.State V α} (hkept : s.Kept loaded id)
    {stepId : String} {u : OperationUpdate} {r : Answer (.checkpoint stepId u : Effect V)}
    (hmem : ⟨.checkpoint stepId u, r⟩ ∈ s.trace) (hid : u.id = id) :
    u ∈ naming id (s.accepted.map (·.update)) := by
  obtain ⟨later, earlier, htrace⟩ := List.append_of_mem hmem
  refine (hkept.delivered later earlier stepId u r htrace hid).subset ?_
  simp [naming, hid]

theorem not_external_of_acknowledged
    (h : (machine token loaded (call.program ctx name)).ReachableBy
      (Accountable call (callId ctx name n)) s)
    (hn : drawn s.trace = some n) {r : DurableResult Unit} (hr : s.program = .ret r)
    (hopen : loaded.terminal (callId ctx name n) = false)
    (hdescribes : ∀ op, loaded (callId ctx name n) = some op → call.Describes op)
    (htype : isExternal call.updateType = false) :
    Backend.external (loaded (callId ctx name n)) = false := by
  cases hop : loaded (callId ctx name n) with
  | none => rfl
  | some op =>
    rw [Backend.external, Option.any_some]
    obtain hupdate | holder := hdescribes op hop
    · rwa [hupdate]
    · cases call with
      | waitForCallback config unitCodec rawCodec =>
        have hmeets := meets_of_drawn respects_accountable
          (orders_olderLayout ctx name config unitCodec rawCodec hop holder) h hn
        rw [hr] at hmeets
        rw [hopen] at hmeets
        cases hmeets.2
      | _ => rwa [holder]

/-- What a call returns has been recorded. -/
theorem outcome_durable (hzero : ∀ duration, call = .wait duration → duration.isZero = false)
    (h : (machine token loaded (call.program ctx name)).ReachableBy
      (Accountable call (callId ctx name n)) s)
    (hn : drawn s.trace = some n) {r : DurableResult Unit} (hr : s.program = .ret r)
    (hout : (∃ v, r = .ok v) ∨ Failing s.trace) :
    ∃ op, s.backend (callId ctx name n) = some op ∧
      (op.status = .succeeded ∨ op.status = .failed) ∧
      (loaded.terminal (callId ctx name n) = false →
        (∀ old, loaded (callId ctx name n) = some old → call.Describes old) →
        op.status = recordedAs r) := by
  have hmeets := meets_of_drawn respects_accountable (orders_program ctx name call hzero) h hn
  rw [hr] at hmeets
  obtain ⟨horder, hconsistent, hrecorded⟩ := hmeets
  have hkept := kept_of_reachableBy (fun _ _ hl => hl.undisturbed) h
  have haccepted := hkept.accepted_prefix (ticket_of_ret h hr)
  have horder := List.Pairwise.sublist haccepted.sublist horder
  have hstatus : ∀ op : Operation, op.status.isTerminal = true →
      op.status = .succeeded ∨ op.status = .failed := by
    intro op hterm
    cases hs : op.status <;> simp [hs, OperationStatus.isTerminal] at hterm ⊢
  obtain hterm | ⟨stepId, u, answer, hmem, hid, hfinal, htype⟩ := hrecorded hout
  · obtain ⟨op, hop, hopterm⟩ := (Option.any_eq_true _ _).mp hterm
    refine ⟨op, (hkept.record.eq_of_terminal hterm).trans hop, hstatus op hopterm, fun hopen => ?_⟩
    rw [hterm] at hopen
    cases hopen
  · have hu := accepted_of_acknowledged hkept hmem hid
    obtain ⟨op, hop, hopterm⟩ := (Option.any_eq_true _ _).mp
      (hkept.record.terminal horder ⟨u, hu, hfinal⟩)
    refine ⟨op, hop, hstatus op hopterm, fun hopen hdescribes => ?_⟩
    have hown := sent_own h
    have hupdateType : isExternal call.updateType = false := by
      rw [← hown u (haccepted.subset hu)]
      exact htype
    have hexternal : ∀ v ∈ naming (callId ctx name n) (s.accepted.map (·.update)),
        isExternal v.operationType = false := fun v hv => by
      rw [hown v (haccepted.subset hv)]
      exact hupdateType
    have hloaded := not_external_of_acknowledged h hn hr hopen hdescribes hupdateType
    have hconcluded : ∀ action, Uniform (callId ctx name n) action s.trace →
        op.status = concluding action := by
      intro action huniform
      obtain ⟨op', hop', hstatus'⟩ := hkept.record.concluded hopen hloaded hexternal horder
        (fun v hv => huniform v (haccepted.subset hv)) ⟨u, hu, hfinal⟩
      rw [hop] at hop'
      rwa [Option.some.inj hop']
    cases r with
    | ok v => exact hconcluded .succeed hconsistent
    | error e =>
      obtain ⟨v, hv⟩ | hfailing := hout
      · cases hv
      · exact hconcluded .fail (hconsistent hfailing)

end

/-- A step whose closure returns 7. -/
def succeedingStep : DurableCall Nat Nat := .step { codec := .nat, semantics := .atMostOncePerRetry }

def answerSeven : (e : Effect Nat) → Option (Answer e)
  | .fetchAdd _ => some 0
  | .stepFn _ _ => some (.ok 7)
  | _ => none

def stepRun : List (Call.Label Nat) :=
  [.perform answerSeven, .perform answerSeven, .perform answerSeven, .request 0] ++
    (served 0).map .manager ++ [.resume, .perform answerSeven, .perform answerSeven, .request 1] ++
    (served 1).map .manager ++ [.resume]

/-- A condition whose check fails. -/
def failingCheck : DurableCall Nat Nat := .waitForCondition { initialState := 0, codec := .nat }

def failCheck : (e : Effect Nat) → Option (Answer e)
  | .fetchAdd _ => some 0
  | .checkFn _ _ => some (.error (.internal "no such host"))
  | _ => none

def checkRun : List (Call.Label Nat) :=
  [.perform failCheck, .perform failCheck, .perform failCheck, .perform failCheck,
    .perform failCheck, .request 0] ++ (served 0).map .manager ++
    [.resume, .perform failCheck, .perform failCheck]

def returned (s : Call.State Nat (DurableResult Unit)) : Option Bool :=
  match s.program with
  | .ret r => some r.toBool
  | _ => none

def undisturbed (s : Call.State Nat (DurableResult Unit)) : Call.Label Nat → Bool
  | .manager (.call _ _ _ _) => false
  | .manager l => !CheckpointManager.rejects s.manager l
  | _ => true

def accountable (s : Call.State Nat (DurableResult Unit)) (l : Call.Label Nat) : Bool :=
  undisturbed s l &&
    match s.program with
    | .ret _ => true
    | .act e _ => e.updates.all (·.operationType == .step) &&
      match l with
      | .perform choose => (choose e).all fun a => !skipsRecord e a
      | _ => true

theorem undisturbed_sound {id : String} {s : Call.State Nat (DurableResult Unit)} {l : Call.Label Nat}
    (h : undisturbed s l = true) : Undisturbed id s l := by
  rintro m rfl
  cases m with
  | call _ _ _ _ => cases h
  | _ => exact ⟨by simpa [undisturbed] using h, fun _ _ _ _ hcall => by cases hcall⟩

theorem accountable_sound {id : String} {s : Call.State Nat (DurableResult Unit)} {l : Call.Label Nat}
    (h : accountable s l = true) : Accountable succeedingStep id s l := by
  obtain ⟨hundisturbed, h⟩ := Bool.and_eq_true_iff.mp h
  refine ⟨undisturbed_sound hundisturbed, fun e k hprogram u hu _ => ?_, ?_⟩
  · rw [hprogram] at h
    obtain ⟨hown, -⟩ := Bool.and_eq_true_iff.mp h
    have htype : u.operationType = .step := by simpa using List.all_eq_true.mp hown u hu
    exact htype
  · rintro choose e k a rfl hprogram ha
    rw [hprogram] at h
    obtain ⟨-, hanswered⟩ := Bool.and_eq_true_iff.mp h
    simpa [ha] using hanswered

theorem outcome_durable_succeedingStep :
    ∃ op, op.status = .succeeded ∧ ∃ s : Call.State Nat (DurableResult Unit),
      s.program = .ret (.ok ()) ∧ s.backend "op_0" = some op := by
  have hend : ((machine "t0" (fun _ => none) (succeedingStep.program rootContext none)).checkedRun
      accountable (.new "t0" (fun _ => none) .execution (succeedingStep.program rootContext none))
      stepRun).map (fun s => (returned s, drawn s.trace)) = some (some true, some 0) := by
    decide +kernel
  obtain ⟨s, hrun, hs⟩ := Option.map_eq_some_iff.mp hend
  simp only [Prod.mk.injEq] at hs
  have hprogram : s.program = .ret (.ok ()) := by
    obtain ⟨hreturned, -⟩ := hs
    unfold returned at hreturned
    split at hreturned
    · rename_i r hr
      cases r with
      | ok v => exact hr
      | error e => cases hreturned
    · cases hreturned
  have hreach : (machine "t0" (fun _ => none) (succeedingStep.program rootContext none)).ReachableBy
      (Accountable succeedingStep "op_0") s :=
    Transition.Machine.checkedRun_reachableBy (fun _ _ _ hok => accountable_sound hok) _
      (.init ⟨_, rfl⟩) hrun
  obtain ⟨op, hop, -, hkind⟩ := @outcome_durable Nat Nat "t0" (fun _ => none) rootContext none 0
    succeedingStep s (fun _ hwait => by cases hwait) hreach hs.2 _ hprogram (Or.inl ⟨_, rfl⟩)
  have hstatus : op.status = .succeeded := hkind rfl fun old hold => by cases hold
  exact ⟨op, hstatus, s, hprogram, hop⟩

/-- A failed check is returned, and the record stays Started. -/
theorem failingCheck_unrecorded :
    ¬ ∀ (call : DurableCall Nat Nat) (token : String) (loaded : Table) (ctx : ExecutionContext)
      (name : Option String) (n : Nat) (s : Call.State Nat (DurableResult Unit))
      (r : DurableResult Unit), (∀ duration, call = .wait duration → duration.isZero = false) →
      (machine token loaded (call.program ctx name)).ReachableBy (Undisturbed (callId ctx name n)) s →
      drawn s.trace = some n → s.program = .ret r → (∃ v, r = .ok v) ∨ Failing s.trace →
      ∃ op, s.backend (callId ctx name n) = some op ∧
        (op.status = .succeeded ∨ op.status = .failed) := by
  intro h
  have hend : ((machine "t0" (fun _ => none) (failingCheck.program rootContext none)).checkedRun
      undisturbed (.new "t0" (fun _ => none) .execution (failingCheck.program rootContext none))
      checkRun).map (fun s => (returned s, drawn s.trace, s.trace.any (·.isUserError),
        (s.backend "op_0").map (·.status))) = some (some false, some 0, true, some .started) := by
    decide +kernel
  obtain ⟨s, hrun, hs⟩ := Option.map_eq_some_iff.mp hend
  simp only [Prod.mk.injEq] at hs
  obtain ⟨hreturned, hdrawn, hfailing, hstatus⟩ := hs
  obtain ⟨r, hr⟩ : ∃ r, s.program = .ret r := by
    unfold returned at hreturned
    split at hreturned
    · exact ⟨_, ‹_›⟩
    · cases hreturned
  have hreach : (machine "t0" (fun _ => none) (failingCheck.program rootContext none)).ReachableBy
      (Undisturbed "op_0") s :=
    Transition.Machine.checkedRun_reachableBy (fun _ _ _ hok => undisturbed_sound hok) _
      (.init ⟨_, rfl⟩) hrun
  obtain ⟨op, hop, hfinal⟩ := h failingCheck "t0" _ rootContext none 0 s r
    (fun _ hwait => by cases hwait) hreach hdrawn hr (Or.inr (List.any_eq_true.mp hfailing))
  have hop : s.backend "op_0" = some op := hop
  rw [hop] at hstatus
  rcases hfinal with hfinal | hfinal <;>
    rw [Option.map_some, hfinal] at hstatus <;> cases hstatus

end LambdaDurable
