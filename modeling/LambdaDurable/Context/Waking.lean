import LambdaDurable.Context.Agreement

/-!
# Which operations set the mode flag

An operation sets the flag to Execution when it finds a record of its own that is not final,
and a step also when it finds none. No operation sets it back.
-/

namespace LambdaDurable

open Effects Call

variable {V I T S : Type}

/-- With this record the operation sets the flag before it does anything. A callback never does. -/
def DurableCall.wakes (record : Option Operation) : DurableCall V I → Bool
  | .step _ => !record.any fun op => op.status.isTerminal
  | .callback _ _ | .callbackRaw _ _ => false
  | _ => record.any fun op => !op.status.isTerminal

/-- The effect only looks at the invocation, or draws a number. -/
def Effect.looks : Effect V → Bool
  | .newCounter | .fetchAdd _ | .getStepData _ | .getMode | .forceCheckpoint => true
  | _ => false

/-- The flag was Execution at some moment. -/
def Awake (trace : List (Event V)) : Prop :=
  ⟨.setMode .execution, ()⟩ ∈ trace ∨ ⟨.getMode, .execution⟩ ∈ trace

/-- An operation that wakes does nothing before the flag is Execution. -/
def Wakes (loaded : Table) (ctx : ExecutionContext) (name : Option String) (call : DurableCall V I)
    (trace : List (Event V)) (e : Effect V) : Prop :=
  e.looks = true ∨ e = .setMode .execution ∨ Awake trace ∨
    ∃ n, drawn trace = some n ∧ call.wakes (loaded (callId ctx name n)) = false

abbrev Stirs (loaded : Table) (ctx : ExecutionContext) (name : Option String) (call : DurableCall V I)
    (post : List (Event V) → S → Prop) (p : Act V S) (trace : List (Event V)) : Prop :=
  p.Meets (traced (fun _ => Answers loaded) (Wakes loaded ctx name call)) post trace

/-- When the program returns, the flag has been Execution. -/
abbrev Rouses (loaded : Table) (ctx : ExecutionContext) (name : Option String)
    (call : DurableCall V I) (p : Act V S) (trace : List (Event V)) : Prop :=
  Stirs loaded ctx name call (fun trace _ => Awake trace) p trace

section

variable {loaded : Table} {ctx : ExecutionContext} {name : Option String} {call : DurableCall V I}
  {trace trace' : List (Event V)} {n : Nat}

theorem Awake.later (h : Awake trace) (hsuffix : trace <:+ trace') : Awake trace' := by
  obtain h | h := h
  · exact Or.inl (hsuffix.subset h)
  · exact Or.inr (hsuffix.subset h)

theorem stirs_of_later {p : Act V S}
    (h : ∀ trace', trace <:+ trace' → ∀ e, Wakes loaded ctx name call trace' e) :
    Stirs loaded ctx name call (fun trace' _ => trace <:+ trace') p trace := by
  suffices ∀ trace', trace <:+ trace' →
      Stirs loaded ctx name call (fun later _ => trace <:+ later) p trace' from this _ List.suffix_rfl
  induction p with
  | ret a => exact fun _ hsuffix => hsuffix
  | act e k ih =>
    intro trace' hsuffix
    constructor
    · exact h trace' hsuffix e
    · exact fun a _ => ih a _ (hsuffix.trans (List.suffix_cons _ _))

theorem rouses_awake {p : Act V S} (h : Awake trace) : Rouses loaded ctx name call p trace := by
  apply Prog.Meets.mono (fun _ _ hsuffix => h.later hsuffix)
  apply stirs_of_later
  intro trace' hsuffix e
  exact Or.inr (Or.inr (Or.inl (h.later hsuffix)))

theorem stirs_asleep {p : Act V S} (hn : drawn trace = some n)
    (h : call.wakes (loaded (callId ctx name n)) = false) :
    Stirs loaded ctx name call (fun _ _ => True) p trace := by
  apply Prog.Meets.mono (fun _ _ _ => trivial)
  apply stirs_of_later
  intro trace' hsuffix e
  exact Or.inr (Or.inr (Or.inr ⟨n, drawn_later hn hsuffix, h⟩))

theorem rouses_bind {p : Act V S} {f : S → Act V T} (h : Rouses loaded ctx name call p trace) :
    Rouses loaded ctx name call (p >>= f) trace :=
  Prog.Meets.bind h fun _ _ => rouses_awake

theorem rouses_andThen {p : Act V (DurableResult S)} {f : S → Act V (DurableResult T)}
    (h : Rouses loaded ctx name call p trace) : Rouses loaded ctx name call (p.andThen f) trace :=
  rouses_bind h

theorem rouses_setMode {p : Act V S} :
    Rouses loaded ctx name call (.act (.setMode .execution) fun _ => p) trace := by
  constructor
  · exact Or.inr (Or.inl rfl)
  · intro a _
    exact rouses_awake (Or.inl List.mem_cons_self)

theorem unfinished_of_wakes {record : Option Operation}
    (h : (record.any fun op => !op.status.isTerminal) = true) :
    ∃ op, record = some op ∧ op.status ≠ .succeeded ∧ op.status ≠ .failed := by
  cases record with
  | none => cases h
  | some op =>
    refine ⟨op, rfl, ?_, ?_⟩ <;> intro hstatus <;> simp [hstatus, OperationStatus.isTerminal] at h

theorem childReplay_of_unfinished {op : Operation} (hs : op.status ≠ .succeeded)
    (hf : op.status ≠ .failed) (maker : ExecutionContext) (codec : Codec T)
    (hashedId stepId : String) (label : Option String) :
    (Child.evaluateReplay maker (some op) codec hashedId stepId label : Act V _) =
      .act (.setMode .execution) fun _ => .ret (.ok .continue) := by
  dsimp only [Child.evaluateReplay]
  split
  · contradiction
  · contradiction
  · rfl

theorem rouses_childContext {maker : ExecutionContext} {stepId hashedId : String}
    {label : Option String} {contextFn : ExecutionContext → Act V (DurableResult T)}
    {config : ChildContextConfig T} {op : Operation} (hop : loaded hashedId = some op)
    (hs : op.status ≠ .succeeded) (hf : op.status ≠ .failed) : Rouses loaded ctx name call
      (maker.runInChildContextWithIds stepId hashedId label contextFn config) trace := by
  simp only [ExecutionContext.runInChildContextWithIds, getStepData_bind]
  constructor
  · exact Or.inl rfl
  · rintro operation rfl
    apply rouses_andThen
    rw [hop, childReplay_of_unfinished hs hf]
    exact rouses_setMode

theorem rouses_stepBody {maker : ExecutionContext} {label : Option String}
    {stepFn : String → Nat → Act V (Except BoxError T)} {config : StepConfig T} {stepId : String}
    {operation : Option Operation} (h : (operation.any fun op => op.status.isTerminal) = false) :
    Rouses loaded ctx name call (Step.body maker label stepFn config stepId operation) trace := by
  unfold Step.body Step.handleReplay
  cases operation with
  | none => exact rouses_setMode
  | some op =>
    dsimp only
    split
    · simp [*, OperationStatus.isTerminal] at h
    · simp [*, OperationStatus.isTerminal] at h
    · exact rouses_setMode
    · split <;> exact rouses_setMode
    · exact rouses_setMode

theorem stirs_runWait {maker : ExecutionContext} {label : Option String} {duration : Duration}
    {stepId hashedId : String} {op : Operation} (hop : loaded hashedId = some op)
    (hs : op.status ≠ .succeeded) (hf : op.status ≠ .failed) : Stirs loaded ctx name call
      (fun _ _ => True) (Wait.runWait maker label duration stepId hashedId) trace := by
  unfold Wait.runWait
  split
  · trivial
  simp only [getStepData_bind]
  constructor
  · exact Or.inl rfl
  · rintro operation rfl
    rw [hop]
    dsimp only
    split
    · contradiction
    · contradiction
    · exact Prog.Meets.mono (fun _ _ _ => trivial) rouses_setMode

theorem rouses_conditionBody {maker : ExecutionContext} {label : Option String}
    {config : WaitConditionConfig V} {stepId : String} {op : Operation}
    (hs : op.status ≠ .succeeded) (hf : op.status ≠ .failed) : Rouses loaded ctx name call
      (WaitCondition.body maker label config stepId (some op)) trace := by
  unfold WaitCondition.body WaitCondition.handleReplay
  dsimp only
  split
  · contradiction
  · contradiction
  · exact rouses_setMode

theorem invoke_outcome_unfinished {maker : ExecutionContext} {op : Operation} {codec : Codec T}
    {hashedId functionId : String} {label : Option String} (hs : op.status ≠ .succeeded)
    (hf : op.status ≠ .failed) :
    (Invoke.outcome maker op codec hashedId label functionId : Option (Act V _)) = none := by
  unfold Invoke.outcome
  split
  · contradiction
  · contradiction
  · rfl

/-- A refresh changes nothing: the table is the loaded one. -/
theorem rouses_invokeBody {functionId : String} {input : Option I} {config : InvokeConfig I T}
    {stepId : String} {op : Operation} (hop : loaded (ctx.hashId stepId) = some op)
    (hs : op.status ≠ .succeeded) (hf : op.status ≠ .failed) : Rouses loaded ctx name call
      (Invoke.body ctx name functionId input config stepId (some op)) trace := by
  apply rouses_andThen
  simp only [Invoke.handleReplay, invoke_outcome_unfinished hs hf, getStepData_bind]
  refine ⟨Or.inl rfl, fun _ _ => ⟨Or.inl rfl, ?_⟩⟩
  rintro operation rfl
  simp only [hop, Option.bind_some, invoke_outcome_unfinished hs hf]
  exact rouses_setMode

/-- The record is of a callback in the older layout, or of a child context. -/
theorem rouses_callbackBody {config : CallbackConfig T} {unitCodec : Codec Unit}
    {rawCodec : Codec String} {stepId : String} {op : Operation}
    (hop : loaded (ctx.hashId stepId) = some op) (hs : op.status ≠ .succeeded)
    (hf : op.status ≠ .failed) : Rouses loaded ctx name call
      (Callback.body ctx name config unitCodec rawCodec stepId (some op)) trace := by
  unfold Callback.body Callback.handleReplay
  dsimp only
  split
  · rw [Prog.ret_ok_andThen]
    exact rouses_andThen (rouses_childContext hop hs hf)
  · apply rouses_andThen
    unfold Callback.outcome
    split
    · simp_all
    · exact rouses_setMode

theorem rouses_batchReplay {spec : BatchSpec} {maker : ExecutionContext} {label : Option String}
    {cfg : BatchConfig V} {itemNames : List String} {hashedId : String} {op : Operation}
    (hop : loaded hashedId = some op) (hs : op.status ≠ .succeeded) (hf : op.status ≠ .failed) :
    Rouses loaded ctx name call
      (Batch.evaluateReplay spec maker label cfg itemNames hashedId) trace := by
  simp only [Batch.evaluateReplay, getStepData_bind]
  constructor
  · exact Or.inl rfl
  · rintro operation rfl
    rw [hop]
    dsimp only
    split
    · contradiction
    · contradiction
    · exact rouses_setMode

theorem stirs_returning {p : Act V (DurableResult S)} {f : S → T}
    (h : Stirs loaded ctx name call (fun _ _ => True) p trace) :
    Stirs loaded ctx name call (fun _ _ => True) (returning f p) trace := by
  apply (Prog.meets_bind _ _ _).mpr
  apply Prog.Meets.mono (fun _ a _ => ?_) h
  cases a <;> trivial

theorem stirs_run {spec : BatchSpec} {cfg : BatchConfig V} {itemNames : List String}
    {execute : String → String → Act V (DurableResult (BatchResult V))}
    (hwakes : ∀ record, call.wakes record = record.any fun op => !op.status.isTerminal) :
    Stirs loaded ctx name call (fun _ _ => True) (Batch.run spec ctx name cfg itemNames execute) [] := by
  unfold Batch.run
  split
  · trivial
  simp only [getMode_bind, nextOperationId_bind, getStepData_bind]
  refine ⟨Or.inl rfl, fun mode _ => ?_⟩
  cases mode with
  | execution => exact Prog.Meets.mono (fun _ _ _ => trivial) (rouses_awake (Or.inr List.mem_cons_self))
  | replay =>
    refine ⟨Or.inl rfl, fun n _ => ⟨Or.inl rfl, ?_⟩⟩
    rintro operation rfl
    cases hrecord : call.wakes (loaded (callId ctx name n)) with
    | false => exact stirs_asleep rfl hrecord
    | true =>
      rw [hwakes] at hrecord
      obtain ⟨op, hop, hs, hf⟩ := unfinished_of_wakes hrecord
      rw [show loaded (ctx.hashId (ctx.operationId name n)) = some op from hop]
      dsimp only
      rw [Prog.ret_ok_andThen]
      exact Prog.Meets.mono (fun _ _ _ => trivial) (rouses_andThen (rouses_batchReplay hop hs hf))

theorem stirs_read {k : Nat → Option Operation → Act V S}
    (h : ∀ n trace, drawn trace = some n → call.wakes (loaded (callId ctx name n)) = true →
      Rouses loaded ctx name call (k n (loaded (callId ctx name n))) trace) :
    Stirs loaded ctx name call (fun _ _ => True) (.act (.fetchAdd ctx.operationCounter) fun n =>
      .act (.getStepData (callId ctx name n)) (k n)) [] := by
  refine ⟨Or.inl rfl, fun n _ => ⟨Or.inl rfl, ?_⟩⟩
  rintro operation rfl
  cases hrecord : call.wakes (loaded (callId ctx name n)) with
  | false => exact stirs_asleep rfl hrecord
  | true => exact Prog.Meets.mono (fun _ _ _ => trivial) (h n _ rfl hrecord)

theorem stirs_call (call : DurableCall V I) :
    Stirs loaded ctx name call (fun _ _ => True) (call.run ctx name) [] := by
  cases call with
  | step config =>
    apply stirs_returning
    apply stirs_read
    intro n trace _ hwakes
    exact rouses_stepBody (by simpa [DurableCall.wakes] using hwakes)
  | wait duration =>
    apply stirs_returning
    simp only [ExecutionContext.wait, nextOperationId_bind]
    refine ⟨Or.inl rfl, fun n _ => ?_⟩
    cases hrecord : DurableCall.wakes (loaded (callId ctx name n)) (.wait duration : DurableCall V I) with
    | false => exact stirs_asleep rfl hrecord
    | true =>
      obtain ⟨op, hop, hs, hf⟩ := unfinished_of_wakes hrecord
      exact stirs_runWait hop hs hf
  | waitForCondition config =>
    apply stirs_returning
    apply stirs_read
    intro n trace _ hwakes
    obtain ⟨op, hop, hs, hf⟩ := unfinished_of_wakes hwakes
    rw [hop]
    exact rouses_conditionBody hs hf
  | callback config codec | callbackRaw config codec =>
    exact ⟨Or.inl rfl, fun n _ => stirs_asleep rfl rfl⟩
  | waitForCallback config unitCodec rawCodec =>
    apply stirs_returning
    apply stirs_read
    intro n trace _ hwakes
    obtain ⟨op, hop, hs, hf⟩ := unfinished_of_wakes hwakes
    rw [hop]
    exact rouses_callbackBody hop hs hf
  | invoke functionId input config =>
    apply stirs_returning
    apply stirs_read
    intro n trace _ hwakes
    obtain ⟨op, hop, hs, hf⟩ := unfinished_of_wakes hwakes
    rw [hop]
    exact rouses_invokeBody hop hs hf
  | runInChildContext config =>
    apply stirs_returning
    refine ⟨Or.inl rfl, fun n _ => ?_⟩
    cases hrecord : DurableCall.wakes (loaded (callId ctx name n))
        (.runInChildContext config : DurableCall V I) with
    | false => exact stirs_asleep rfl hrecord
    | true =>
      obtain ⟨op, hop, hs, hf⟩ := unfinished_of_wakes hrecord
      exact Prog.Meets.mono (fun _ _ _ => trivial) (rouses_childContext hop hs hf)
  | map items config => exact stirs_returning (stirs_run fun _ => rfl)
  | parallel branches config => exact stirs_returning (stirs_run fun _ => rfl)

/-- A call that wakes and has done more than look has seen the flag at Execution. -/
theorem awake_of_permitted {event : Event V} (h : Permitted (Wakes loaded ctx name call) trace)
    (hn : drawn trace = some n) (hwakes : call.wakes (loaded (callId ctx name n)) = true)
    (hevent : event ∈ trace) (hlooks : event.1.looks = false) : Awake trace := by
  obtain ⟨later, earlier, rfl⟩ := List.append_of_mem hevent
  have hsuffix : event :: earlier <:+ later ++ event :: earlier := List.suffix_append _ _
  obtain hlook | hset | hawake | ⟨m, hm, hasleep⟩ := permitted_event h
  · rw [hlooks] at hlook
    cases hlook
  · left
    obtain ⟨e, a⟩ := event
    obtain rfl : e = .setMode .execution := hset
    exact hevent
  · exact hawake.later ((List.suffix_cons _ _).trans hsuffix)
  · rw [drawn_later hm ((List.suffix_cons _ _).trans hsuffix)] at hn
    obtain rfl := Option.some.inj hn
    rw [hwakes] at hasleep
    cases hasleep

end

/-! ## The flag of an invocation -/

namespace Tasks

variable {token : String} {loaded : Table} {root : ExecutionContext} {s s' : State V I}
  {l : Label V I} {task : Task V I} {allow : State V I → Label V I → Prop}

/-- The operation of the task wakes and has gone on from its record, or the task has called a
submitter. -/
inductive Task.Woken (loaded : Table) (task : Task V I) : Prop
  | record {name : Option String} {call : DurableCall V I} {n : Nat} {event : Event V} :
      task.origin = .call name call → drawn task.trace = some n →
      call.wakes (loaded (callId task.ctx name n)) = true → event ∈ task.trace →
      event.1.looks = false → Woken loaded task
  | submitter {callbackId : String} {attempt : Nat} {r : Except BoxError Unit} :
      ⟨.submitter callbackId attempt, r⟩ ∈ task.trace → Woken loaded task

def State.modeAfter (s : State V I) (l : Label V I) : ExecutionMode :=
  match s.performed l with
  | some (.setMode mode) => mode
  | _ => s.mode

theorem Move.mode_eq (hm : Move loaded s l s') : s'.mode = s.modeAfter l := by
  cases hm with
  | manager _ _ | service _ | begin _ | enter _ _ => rfl
  | @perform t choose task e r he hr =>
    have hperformed : s.performed (.perform t choose) = some e := by
      simp [State.performed, hr.mem, he]
    have hmode : (r.after t task e).mode = r.mode := by
      cases e <;> rfl
    rw [hmode, State.modeAfter, hperformed]
    obtain ⟨-, v, hv, rfl⟩ := hr
    cases Call.move_of_step hv with
    | @perform _ e' k a _ hprogram _ =>
      have hprogram' : task.program = .act e' k := hprogram
      rw [hprogram'] at he
      obtain rfl : e' = e := Option.some.inj he
      cases e' <;> rfl
  | @request t n task r hr =>
    obtain ⟨-, v, hv, rfl⟩ := hr
    cases Call.move_of_step hv with
    | request _ _ _ _ => rfl
  | @resume t task r hr =>
    obtain ⟨-, v, hv, rfl⟩ := hr
    cases Call.move_of_step hv with
    | resume _ _ _ => rfl
  | join hjoining _ _ _ _ hr | panic hjoining _ _ _ _ hr =>
    obtain ⟨k, hjoins⟩ := program_of_joining hjoining
    obtain ⟨-, v, hv, rfl⟩ := hr
    cases Call.move_of_step hv with
    | @perform _ e' k' a _ hprogram _ =>
      obtain ⟨rfl, -⟩ := Prog.act.inj (hjoins.symm.trans hprogram)
      rfl

/-- No task sets the flag back. -/
theorem mode_forward (h : (machine token loaded root).ReachableBy allow s) (hm : Move loaded s l s') :
    s'.mode = s.mode ∨ s'.mode = .execution := by
  rw [hm.mode_eq]
  unfold State.modeAfter
  split
  · rename_i mode hperformed
    cases l with
    | perform t choose =>
      obtain ⟨task, htask, he⟩ := Option.bind_eq_some_iff.mp hperformed
      exact Or.inr (placed h htask he)
    | _ => cases hperformed
  · exact Or.inl rfl

/-- A task that has seen the flag at Execution sees it so from then on. -/
theorem flag_of_awake (h : (machine token loaded root).ReachableBy allow s) (htask : task ∈ s.tasks)
    (hawake : Awake task.trace) : s.mode = .execution := by
  obtain ⟨j, hj⟩ := List.mem_iff_getElem?.mp htask
  rw [← traceOf_of_mem hj] at hawake
  refine h.invariant (I := fun s => ∀ j, Awake (s.traceOf j) → s.mode = .execution) ?_ ?_ j hawake
  · rintro _ ⟨-, mode, rfl⟩ j hawake
    rcases hawake with hmem | hmem <;> cases hmem
  · intro s l s' hr hs _ hstep j hawake
    have hm := move_of_step hstep
    have hkeeps : s.mode = .execution → s'.mode = .execution := by
      intro hmode
      obtain hsame | hset := mode_forward hr hm
      · exact hsame.trans hmode
      · exact hset
    obtain ⟨hsame, -⟩ | ⟨task, e, k, a, htask, hprogram, htrace, hanswered⟩ := hm.traceOf_cases j
    · rw [hsame] at hawake
      exact hkeeps (hs j hawake)
    · rw [htrace] at hawake
      have hnow : Awake (s.traceOf j) ∨ (⟨e, a⟩ : Event V) = ⟨.setMode .execution, ()⟩ ∨
          (⟨e, a⟩ : Event V) = ⟨.getMode, .execution⟩ := by
        rcases hawake with hmem | hmem <;> rcases List.mem_cons.mp hmem with heq | hmem
        · exact Or.inr (Or.inl heq.symm)
        · exact Or.inl (Or.inl hmem)
        · exact Or.inr (Or.inr heq.symm)
        · exact Or.inl (Or.inr hmem)
      obtain hbefore | hset | hget := hnow
      · exact hkeeps (hs j hbefore)
      · cases hset
        cases hanswered with
        | resume hanswer => cases hanswer
        | perform _ =>
          rw [hm.mode_eq]
          simp [State.modeAfter, State.performed, htask, hprogram, nextEffect]
      · cases hget
        cases hanswered with
        | resume hanswer => cases hanswer
        | perform hanswer => exact hkeeps (Option.some.inj hanswer)

theorem flag_of_woken (h : (machine token loaded root).ReachableBy allow s) (htask : task ∈ s.tasks)
    (hwoken : task.Woken loaded) : s.mode = .execution := by
  apply flag_of_awake h htask
  obtain ⟨j, hj⟩ := List.mem_iff_getElem?.mp htask
  have hview : (Call.machine token loaded task.start).ReachableBy (fun _ _ => True) (s.view task) :=
    view_reachableBy (fun _ _ _ _ _ _ => trivial) h hj
  cases hwoken with
  | @record name call n event horigin hn hwakes hevent hlooks =>
    have hstart := start_of_origin h htask horigin
    have hpermitted := permitted_of_reachableBy (respects_answers loaded _) (hstart ▸ stirs_call call) hview
    exact awake_of_permitted hpermitted hn hwakes hevent hlooks
  | @submitter callbackId attempt r hmem =>
    have hpermitted : Permitted _ task.trace :=
      permitted_of_reachableBy (respects_answers loaded _) (places_start h htask) hview
    obtain ⟨later, earlier, htrace⟩ := List.append_of_mem hmem
    rw [htrace] at hpermitted ⊢
    have hset : ⟨.setMode .execution, ()⟩ ∈ earlier := permitted_event hpermitted
    left
    exact List.mem_append_right _ (List.mem_cons_of_mem _ hset)

end Tasks

end LambdaDurable
