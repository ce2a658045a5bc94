import LambdaDurable.Context.Suspended

/-!
# Every call is anchored

A child context, a map or a parallel never suspends by itself and sends updates of contexts only.
`wait_for_callback` is such a child context around a callback and a step.
-/

namespace LambdaDurable

open Effects Call Backend

variable {V I S T : Type}

def Mild : Effect V → Prop
  | .checkpoint _ u | .checkpointQueued _ u => u.operationType = .context ∧ u.action ≠ .retry
  | .terminate result => result.reason.isSuspension = false
  | _ => True

section

variable {loaded : Table} {base trace : List (Event V)}

theorem mild_failure {result : TerminationResult} (h : result.reason.isSuspension = false) :
    (suspend result : Act V S).Only Mild :=
  ⟨h, fun _ => ⟨trivial, fun a => a.elim⟩⟩

theorem mild_checkpoint (stepId what : String) {u : OperationUpdate}
    (htype : u.operationType = .context) (hu : u.action ≠ .retry) :
    (checkpoint stepId what u : Act V _).Only Mild := by
  rcases checkpoint_cases (V := V) stepId what u with h | ⟨e, h⟩ <;> rw [h]
  · exact ⟨⟨htype, hu⟩, fun _ => trivial⟩
  · trivial

theorem mild_safeSerialize (codec : Codec S) (value : Option S) (site : SerdesSite) :
    (safeSerialize codec value site : Act V _).Only Mild := by
  unfold safeSerialize
  split
  · trivial
  · exact mild_failure rfl

theorem mild_safeDeserialize (codec : Codec S) (data : Option String) (site : SerdesSite) :
    (safeDeserialize codec data site : Act V _).Only Mild := by
  unfold safeDeserialize
  split
  · trivial
  · exact mild_failure rfl

theorem mild_safeSerializeRequired (serdes : Serdes S) (value : S) (site : SerdesSite) :
    (safeSerializeRequiredWithSerdes serdes value site : Act V _).Only Mild := by
  unfold safeSerializeRequiredWithSerdes
  split
  · trivial
  · exact mild_failure rfl
  · exact mild_failure rfl

theorem mild_safeDeserializeRequired (serdes : Serdes S) (data : String) (site : SerdesSite) :
    (safeDeserializeRequiredWithSerdes serdes data site : Act V _).Only Mild := by
  unfold safeDeserializeRequiredWithSerdes
  split
  · trivial
  · exact mild_failure rfl
  · exact mild_failure rfl

theorem Mild.result {e : Effect V} (he : Mild e) :
    ∀ result, e = .terminate result → result.reason.isSuspension = false := by
  rintro result rfl
  exact he

theorem Mild.updates {e : Effect V} (he : Mild e) : e.updates = [] ∨
    ∃ u, e.updates = [u] ∧ u.operationType = .context ∧ u.action ≠ .retry := by
  cases e with
  | checkpoint stepId u | checkpointQueued stepId u => exact Or.inr ⟨u, rfl, he⟩
  | _ => exact Or.inl rfl

theorem Mild.anchored {e : Effect V} (he : Mild e) (h : Live trace) : Anchored loaded trace e := by
  obtain hnone | ⟨u, hu, -, haction⟩ := he.updates
  · exact .of_quiet h hnone he.result
  · exact .of_update h hu fun hretry => absurd hretry haction

theorem Mild.extends {e : Effect V} {a : Answer e} (he : Mild e) (h : Extends .context base trace) :
    Extends .context base (⟨e, a⟩ :: trace) := by
  obtain hnone | ⟨u, hu, htype, haction⟩ := he.updates
  · refine ⟨h.suffix.trans (List.suffix_cons _ _), fun other hother => ?_, h.live.quiet hnone he.result⟩
    rw [sent_cons_quiet hnone]
    exact h.others other hother
  · exact h.update hu haction htype

/-- A mild program is anchored, whatever has been done before it. -/
theorem anchors_of_mild {p : Act V S} (hp : p.Only Mild) (h : Extends .context base trace) :
    Anchors loaded (fun trace' _ => Extends .context base trace') p trace := by
  apply hp.meets (R := Extends .context base) ?_ ?_ h
  · exact fun _ _ h he => he.anchored h.live
  · exact fun _ _ _ h he _ => he.extends h

/-! ## Child contexts -/

theorem mild_fromPayload (codec : Codec S) (payload : Option String) (site : SerdesSite) :
    (Child.fromPayload codec payload site : Act V _).Only Mild := by
  cases payload with
  | none => trivial
  | some p => exact mild_safeDeserialize _ _ _

theorem mild_childReplay (ctx : ExecutionContext) (operation : Option Operation) (codec : Codec S)
    (hashedId stepId : String) (name : Option String) :
    (Child.evaluateReplay ctx operation codec hashedId stepId name : Act V _).Only Mild := by
  unfold Child.evaluateReplay
  cases operation with
  | none => trivial
  | some op =>
    dsimp only
    split
    · split
      · trivial
      · apply Prog.only_bind (mild_fromPayload _ _ _)
        rintro (_ | value)
        · apply Prog.only_bind (mild_fromPayload _ _ _)
          rintro (_ | value) <;> trivial
        · trivial
    · trivial
    · exact ⟨trivial, fun _ => trivial⟩

theorem childSucceed_mild (ctx : ExecutionContext) (name : Option String) (hashedId subType : String)
    (payload : Option String) :
    (Child.succeedUpdate ctx name hashedId subType payload).operationType = .context ∧
      (Child.succeedUpdate ctx name hashedId subType payload).action = .succeed := by
  unfold Child.succeedUpdate
  split <;> exact ⟨rfl, rfl⟩

theorem mild_finishChild (ctx : ExecutionContext) (stepId hashedId : String) (name : Option String)
    (subType : String) (codec : Codec S) (r : DurableResult S) :
    (Child.finishChild ctx stepId hashedId name subType codec r : Act V _).Only Mild := by
  cases r with
  | ok result =>
    apply Prog.only_bind (mild_safeSerialize _ _ _)
    intro payload
    obtain ⟨htype, haction⟩ := childSucceed_mild ctx name hashedId subType payload
    apply Prog.only_andThen
    · apply mild_checkpoint _ _ htype
      rw [haction]
      rintro ⟨⟩
    · exact fun _ => trivial
  | error e =>
    apply Prog.only_andThen
    · exact mild_checkpoint _ _ rfl (by rintro ⟨⟩)
    · exact fun _ => trivial

/-- The closure is run below a START that its context may have. -/
theorem anchors_runInChildContextWithIds (ctx : ExecutionContext) (stepId hashedId : String)
    (name : Option String) {contextFn : ExecutionContext → Act V (DurableResult S)}
    (config : ChildContextConfig S) (hfn : ∀ counter trace, Extends .context base trace →
      Anchors loaded (fun trace _ => Live trace)
        (contextFn { ctx with currentParentId := some hashedId, operationCounter := counter }) trace)
    (h : Extends .context base trace) :
    Anchors loaded (fun trace _ => Live trace)
      (ctx.runInChildContextWithIds stepId hashedId name contextFn config) trace := by
  simp only [ExecutionContext.runInChildContextWithIds, getStepData_bind]
  refine anchors_quiet rfl rfl h.live fun operation _ => ?_
  have h := h.quiet (e := .getStepData hashedId) (a := operation) rfl rfl
  refine Prog.Meets.andThen (anchors_of_mild (mild_childReplay ..) h) ?_ fun _ _ h => h.live
  intro decision trace h
  cases decision with
  | «return» value => exact h.live
  | replayChildren =>
    simp only [withParentId_bind]
    refine anchors_quiet rfl rfl h.live fun counter _ => ?_
    exact hfn counter _ (h.quiet rfl rfl)
  | «continue» =>
    simp only [Child.runChildExecution, getStepData_bind, withParentId_bind]
    refine anchors_quiet rfl rfl h.live fun operation _ => ?_
    have h := h.quiet (e := .getStepData hashedId) (a := operation) rfl rfl
    refine Prog.Meets.andThen (m := fun trace' _ => Extends .context base trace') ?_ ?_
      fun _ _ h => h.live
    · cases operation with
      | none => exact anchors_of_mild (mild_checkpoint _ _ rfl (by rintro ⟨⟩)) h
      | some op => exact h
    · intro _ trace h
      refine anchors_quiet rfl rfl h.live fun counter _ => ?_
      refine Prog.Meets.bind (hfn counter _ (h.quiet rfl rfl)) fun outcome trace h => ?_
      exact (anchors_of_mild (mild_finishChild ..) (.refl h)).mono fun _ _ h => h.live

theorem anchors_callbackReplay (ctx : ExecutionContext) (codec : Codec T)
    (hashedId stepId : String) (name : Option String) (h : Live trace)
    (hlook : lookedUp trace = some hashedId) (hnone : sent trace = []) :
    Anchors loaded (fun trace' r => Live trace' ∧ (r = .ok none → trace' = trace))
      (Callback.handleReplay ctx (loaded hashedId) codec hashedId stepId name : Act V _) trace := by
  unfold Callback.handleReplay
  cases hop : loaded hashedId with
  | none => exact ⟨h, fun _ => rfl⟩
  | some op =>
    dsimp only
    split
    · exact ⟨h, fun _ => rfl⟩
    · split
      · rename_i hfinished
        have houtcome : Anchors loaded (fun trace _ => Live trace) _ trace :=
          anchors_callbackOutcome hfinished h fun payload f hf => anchors_safeDeserialize h hf
        refine Prog.Meets.andThen houtcome ?_ fun _ _ h => ⟨h, by rintro ⟨⟩⟩
        exact fun _ _ h => ⟨h, by rintro ⟨⟩⟩
      · rename_i hunfinished
        refine anchors_quiet rfl rfl h fun a _ => ?_
        refine anchors_suspend (h.quiet rfl (by rintro _ ⟨⟩)).unsuspended rfl hlook ?_
        refine .loaded hop (callback_outcome_none hunfinished) (by rintro ⟨⟩) ?_
        rw [sent_cons_quiet rfl, hnone]
        rfl

theorem anchors_submit (config : CallbackConfig T) (unitCodec : Codec Unit) (child : ExecutionContext)
    (h : Live trace) (hcallback : ofKind .callback (sent trace) = [])
    (hstep : ofKind .step (sent trace) = []) :
    Anchors loaded (fun trace _ => Live trace) (Callback.submit config unitCodec child : Act V _)
      trace := by
  have hsubmitter : ∀ callbackId : String, Atomic fun _ attempt =>
      (.act (.submitter callbackId attempt) fun r => .ret r : Act V (Except BoxError Unit)) :=
    fun callbackId _ attempt => ⟨.submitter callbackId attempt, id, rfl, rfl⟩
  refine Prog.Meets.andThen (anchors_createCallback child none (some config) config.codec (.refl h)
    hcallback) ?_ fun _ _ hr => hr.1.live
  rintro handle created ⟨hcreated, hhandle⟩
  have hstep : ofKind .step (sent created) = [] := (hcreated.others .step (by rintro ⟨⟩)).trans hstep
  refine Prog.Meets.andThen (anchors_step child (some "submitter") (hsubmitter handle.callbackId)
    { codec := unitCodec } (.refl hcreated.live) hstep) ?_ fun _ _ hr => hr.live
  intro _ trace hextended
  have hopened := (hhandle handle rfl).extends (by rintro ⟨⟩) hextended
  exact anchors_await handle hopened hextended.live fun _ _ _ _ hf => hf _

theorem anchors_waitForCallback (ctx : ExecutionContext) (name : Option String)
    (config : CallbackConfig T) (unitCodec : Codec Unit) (rawCodec : Codec String) :
    Anchors loaded (fun trace _ => Live trace)
      (ctx.waitForCallback name config unitCodec rawCodec : Act V _) [] := by
  simp only [ExecutionContext.waitForCallback, nextOperationId_bind, getStepData_bind]
  refine anchors_quiet rfl rfl live_nil fun n _ => ?_
  have h : Extends .context [] [⟨Effect.fetchAdd ctx.operationCounter, n⟩] :=
    (Extends.refl live_nil).quiet rfl rfl
  refine anchors_quiet rfl rfl h.live fun operation hoperation => ?_
  obtain rfl : operation = loaded (ctx.hashId (ctx.operationId name n)) := hoperation
  have h := h.quiet (e := .getStepData (ctx.hashId (ctx.operationId name n)))
    (a := loaded (ctx.hashId (ctx.operationId name n))) rfl rfl
  refine Prog.Meets.andThen (anchors_callbackReplay ctx config.codec _ _ name h.live rfl rfl) ?_
    fun _ _ hr => hr.1
  rintro (_ | value) trace ⟨hlive, hcontinue⟩
  · obtain rfl := hcontinue rfl
    refine Prog.Meets.andThen (anchors_runInChildContextWithIds ctx _ _ name _ ?_ h) ?_ fun _ _ h => h
    · intro counter trace hextended
      refine anchors_submit config unitCodec _ hextended.live ?_ ?_
      · exact (hextended.others .callback (by rintro ⟨⟩)).trans rfl
      · exact (hextended.others .step (by rintro ⟨⟩)).trans rfl
    · intro rawPayload trace h
      refine anchors_safeDeserialize h fun value => ?_
      cases value <;> exact h
  · exact hlive

/-! ## Batches -/

variable (spec : BatchSpec) (ctx : ExecutionContext) (name : Option String) (cfg : BatchConfig V)

theorem mild_userContext (child : ExecutionContext) :
    (userContext child : Act V (DurableResult V)).Only Mild :=
  ⟨trivial, fun _ => trivial⟩

/-- A child context whose closure is user code. -/
theorem mild_runInChildContextWithIds (stepId hashedId : String) (config : ChildContextConfig V) :
    (ctx.runInChildContextWithIds stepId hashedId name userContext config).Only Mild := by
  simp only [ExecutionContext.runInChildContextWithIds, getStepData_bind]
  refine ⟨trivial, fun operation => ?_⟩
  apply Prog.only_andThen (mild_childReplay ..)
  intro decision
  cases decision with
  | «return» value => trivial
  | replayChildren => exact ⟨trivial, fun _ => mild_userContext _⟩
  | «continue» =>
    simp only [Child.runChildExecution, getStepData_bind, withParentId_bind]
    refine ⟨trivial, fun operation => ?_⟩
    apply Prog.only_andThen
    · cases operation with
      | none => exact mild_checkpoint _ _ rfl (by rintro ⟨⟩)
      | some op => trivial
    · intro _
      exact ⟨trivial, fun _ => Prog.only_bind (mild_userContext _) fun r => mild_finishChild ..⟩

theorem batchSucceed_mild (hashedId payload summary : String) :
    (Batch.succeedUpdate spec hashedId payload summary).operationType = .context ∧
      (Batch.succeedUpdate spec hashedId payload summary).action = .succeed := by
  unfold Batch.succeedUpdate
  dsimp only
  split <;> exact ⟨rfl, rfl⟩

theorem mild_complete (stepId hashedId : String) (totalItems : Nat) (p : Batch.Progress V) :
    (Batch.complete spec ctx name cfg stepId hashedId totalItems p).Only Mild := by
  apply Prog.only_bind (mild_safeSerializeRequired _ _ _)
  intro payload
  obtain ⟨htype, haction⟩ := batchSucceed_mild spec hashedId payload
    (spec.summary (p.completedCount + p.started.length) p.successes.length p.failures.length
      p.started.length (p.result cfg.completionConfig totalItems).completionReason)
  apply Prog.only_andThen
  · apply mild_checkpoint _ _ htype
    rw [haction]
    rintro ⟨⟩
  · exact fun _ => trivial

theorem mild_spawnChildren (totalItems : Nat) (p : Batch.Progress V)
    (children : List (String × Nat)) :
    (Batch.spawnChildren ctx cfg totalItems p children).Only Mild := by
  induction children generalizing p with
  | nil => trivial
  | cons child rest ih =>
    unfold Batch.spawnChildren
    split
    · exact ⟨trivial, fun _ => ⟨trivial, fun _ => ih _⟩⟩
    · trivial

theorem mild_runLoop (stepId hashedId : String) (totalItems : Nat)
    {afterLoop : Batch.Progress V → Act V (DurableResult (BatchResult V))}
    (hafter : ∀ p, (afterLoop p).Only Mild) (turns : Nat) (children : List (String × Nat))
    (p : Batch.Progress V) :
    (Batch.runLoop spec ctx name cfg stepId hashedId totalItems afterLoop turns children p).Only
      Mild := by
  induction turns generalizing children p with
  | zero => exact ⟨trivial, fun a => a.elim⟩
  | succ turns ih =>
    unfold Batch.runLoop
    apply Prog.only_bind (mild_spawnChildren ..)
    rintro ⟨rest, spawned⟩
    dsimp only
    split
    · exact hafter _
    · refine ⟨trivial, fun joined => ?_⟩
      cases joined with
      | error message => trivial
      | ok joined =>
        obtain ⟨index, res⟩ := joined
        dsimp only [Batch.joined]
        split
        · split
          · exact mild_complete ..
          · exact ⟨trivial, fun _ => mild_complete ..⟩
        · exact ih _ _

theorem mild_runChild (batchHashedId childStepId childHashedId itemName : String) :
    (Batch.runChild spec ctx cfg batchHashedId childStepId childHashedId itemName).Only Mild := by
  simp only [Batch.runChild, withParentId_bind]
  exact ⟨trivial, fun _ => mild_runInChildContextWithIds ..⟩

theorem mild_consumeIds (itemNames : List String) :
    (Batch.consumeIds ctx itemNames : Act V Unit).Only Mild := by
  induction itemNames with
  | nil => trivial
  | cons itemName rest ih => exact ⟨trivial, fun _ => ih⟩

theorem mild_batchReplay (itemNames : List String) (hashedId : String) :
    (Batch.evaluateReplay spec ctx name cfg itemNames hashedId).Only Mild := by
  simp only [Batch.evaluateReplay, getStepData_bind]
  refine ⟨trivial, fun operation => ?_⟩
  cases operation with
  | none => trivial
  | some op =>
    dsimp only
    split
    · trivial
    · split
      · trivial
      · split
        · split
          · trivial
          · split <;> trivial
        · apply Prog.only_bind (mild_safeDeserializeRequired _ _ _)
          intro batch
          split
          · trivial
          · exact Prog.only_bind (mild_consumeIds _ _) fun _ => trivial
    · exact ⟨trivial, fun _ => trivial⟩

theorem mild_reconstructChildren (parent : ExecutionContext) (children : List (String × Nat))
    (p : Batch.Progress V) :
    (Batch.reconstructChildren spec ctx cfg parent children p).Only Mild := by
  induction children generalizing p with
  | nil => trivial
  | cons child rest ih =>
    simp only [Batch.reconstructChildren, nextOperationId_bind, getStepData_bind]
    refine ⟨trivial, fun n => ⟨trivial, fun operation => ?_⟩⟩
    cases operation with
    | none => trivial
    | some op =>
      apply Prog.only_andThen
      · unfold Batch.reconstructChild
        split
        · split
          · apply Prog.only_bind
            · exact mild_runInChildContextWithIds ..
            · exact fun _ => trivial
          · apply Prog.only_bind (mild_safeDeserialize _ _ _)
            rintro (_ | value) <;> trivial
        · trivial
        · trivial
      · exact fun _ => ih _

theorem mild_batchRun (itemNames : List String)
    {execute : String → String → Act V (DurableResult (BatchResult V))}
    (hexecute : ∀ stepId hashedId, (execute stepId hashedId).Only Mild) :
    (Batch.run spec ctx name cfg itemNames execute).Only Mild := by
  unfold Batch.run
  split
  · trivial
  · simp only [getMode_bind, nextOperationId_bind, getStepData_bind]
    refine ⟨trivial, fun mode => ⟨trivial, fun n => ⟨trivial, fun operation => ?_⟩⟩⟩
    apply Prog.only_andThen
    · cases operation with
      | none => exact mild_checkpoint _ _ rfl (by rintro ⟨⟩)
      | some op => trivial
    · intro _
      cases mode with
      | execution => exact hexecute _ _
      | replay =>
        apply Prog.only_andThen (mild_batchReplay ..)
        rintro (result | totalCount | _)
        · trivial
        · dsimp only
          unfold Batch.reconstructFromChildren
          split
          · trivial
          · simp only [withParentId_bind]
            refine ⟨trivial, fun _ => ?_⟩
            exact Prog.only_andThen (mild_reconstructChildren ..) fun _ => trivial
        · exact hexecute _ _

theorem mild_runMapExecution (itemNames : List String) (stepId hashedId : String) :
    (Batch.runMapExecution ctx name cfg itemNames stepId hashedId).Only Mild := by
  unfold Batch.runMapExecution
  split
  · exact mild_complete ..
  · apply mild_runLoop
    exact fun _ => ⟨trivial, fun a => a.elim⟩

theorem mild_map (items : List I) (config : MapConfig I V) : (ctx.map name items config).Only Mild :=
  mild_batchRun _ _ _ _ _ fun _ _ => mild_runMapExecution ..

theorem mild_parallel (branches : List (Option String)) :
    (ctx.parallel name branches cfg).Only Mild := by
  apply mild_batchRun
  intro stepId hashedId
  apply mild_runLoop
  exact fun _ => mild_complete ..

/-! ## Every task -/

theorem anchors_returning {p : Act V (DurableResult S)} {f : S → T}
    (h : Anchors loaded (fun trace _ => Live trace) p trace) :
    Anchors loaded (fun trace _ => Live trace) (returning f p) trace :=
  Prog.Meets.andThen h (fun _ _ h => h) fun _ _ h => h

theorem live_of_mild {p : Act V S} (hp : p.Only Mild) :
    Anchors loaded (fun trace _ => Live trace) p [] :=
  (anchors_of_mild hp (.refl live_nil)).mono fun _ _ h => h.live

theorem anchors_run (call : DurableCall V I) :
    Anchors loaded (fun trace _ => Live trace) (call.run ctx name) [] := by
  have hcreate : ∀ {T' : Type} (config : Option (CallbackConfig V)) (codec : Codec V)
      (read : CallbackHandle V → String → Act V (Option T')),
      (∀ handle payload (f : Option T' → Act V (DurableResult T')) (trace : List (Event V)),
        Live trace → (∀ value, Anchors loaded (fun trace _ => Live trace) (f value) trace) →
        Anchors loaded (fun trace _ => Live trace) (read handle payload >>= f) trace) →
      Anchors loaded (fun trace _ => Live trace)
        ((ctx.createCallback name config codec).andThen fun handle =>
          Callback.await handle (read handle)) [] := by
    intro T' config codec read hread
    refine Prog.Meets.andThen (anchors_createCallback ctx name config codec (.refl live_nil) rfl) ?_
      fun _ _ hr => hr.1.live
    rintro handle trace ⟨hextended, hhandle⟩
    exact anchors_await handle (hhandle handle rfl) hextended.live (hread handle)
  cases call with
  | step config =>
    have huser : Atomic (userStep : String → Nat → Act V (Except BoxError V)) :=
      fun hashedId attempt => ⟨.stepFn hashedId attempt, id, rfl, rfl⟩
    apply anchors_returning
    exact (anchors_step ctx name huser config (.refl live_nil) rfl).mono fun _ _ h => h.live
  | wait duration => exact anchors_returning (anchors_wait ..)
  | waitForCondition config => exact anchors_returning (anchors_waitForCondition ..)
  | callback config codec =>
    exact anchors_returning (hcreate config codec _ fun _ _ _ _ h hf => anchors_safeDeserialize h hf)
  | callbackRaw config codec =>
    exact anchors_returning (hcreate config codec (fun _ payload => .ret (some payload))
      fun _ _ _ _ _ hf => hf _)
  | waitForCallback config unitCodec rawCodec => exact anchors_returning (anchors_waitForCallback ..)
  | invoke functionId input config => exact anchors_returning (anchors_invoke ..)
  | runInChildContext config =>
    apply anchors_returning
    apply live_of_mild
    simp only [ExecutionContext.runInChildContext, nextOperationId_bind]
    exact ⟨trivial, fun _ => mild_runInChildContextWithIds ..⟩
  | map items config => exact anchors_returning (live_of_mild (mild_map ..))
  | parallel branches config => exact anchors_returning (live_of_mild (mild_parallel ..))

end

end LambdaDurable
