import LambdaDurable.Context.Executions

/-!
# The retry budget of a step

The closure's failure and the interruption of an at-most-once step ask the strategy with the
same number: the attempts that the service has counted, and one.
-/

namespace LambdaDurable

open Effects Call Backend

variable {V : Type}

/-- The closure's error, with the attempt the closure was told. -/
def Event.stepError : Event V → Option (BoxError × Nat)
  | ⟨.stepFn _ attempt, .error error⟩ => some (error, attempt)
  | _ => none

def stepErrors (trace : List (Event V)) : List (BoxError × Nat) := trace.filterMap Event.stepError

def Effect.suspends : Effect V → Bool
  | .terminate _ | .pending => true
  | _ => false

/-- The error and the attempt of a step that was interrupted when it must run at most once. -/
def interruption (semantics : StepSemantics) (stepId : String) (name : Option String) :
    Option Operation → Option (BoxError × Nat)
  | some op =>
    if semantics = .atMostOncePerRetry ∧ op.status = .started then
      some (Step.stepInterruptedError stepId name, op.attemptIdx + 1)
    else none
  | none => none

/-- In an invocation that loaded the table, the attempt with this number has failed. -/
def FailsAt (semantics : StepSemantics) (ctx : ExecutionContext) (name : Option String) (n : Nat)
    (loaded : Table) (trace : List (Event V)) (error : BoxError) (attempt : Nat) : Prop :=
  (error, attempt) ∈ stepErrors trace ∨
    interruption semantics (ctx.operationId name n) name (loaded (callId ctx name n)) =
      some (error, attempt)

/-- The answers of a strategy, and the number drawn. -/
def Grants (strategy : LimitedStrategy) (toLowercase : String → String) (n : Nat) :
    (e : Effect V) → Answer e → Prop
  | .fetchAdd _, counter => counter = n
  | .shouldRetry error attemptsMade, decision => ∃ calculateDelay,
      decision = strategy.shouldRetry toLowercase calculateDelay error attemptsMade
  | _, _ => True

theorem grants_of_not_chosen {strategy : LimitedStrategy} {toLowercase : String → String} {n : Nat}
    (e : Effect V) (a : Answer e) (h : e.chosen = false) : Grants strategy toLowercase n e a := by
  cases e with
  | fetchAdd _ | shouldRetry _ _ => cases h
  | _ => trivial

/-- RETRY is sent before the last attempt only. -/
def WithinBudget (maxAttempts attempt : Nat) (_ : List (Event V)) (u : OperationUpdate) : Prop :=
  u.action = .retry → attempt < maxAttempts

/-- What a step may do: an attempt that fails at the last is not retried. -/
structure Frugal (maxAttempts attempt : Nat) (loaded : Table) (id : String)
    (fails : List (Event V) → BoxError → Nat → Prop) (trace : List (Event V)) (e : Effect V) :
    Prop where
  stepWise : StepWise loaded id (WithinBudget maxAttempts attempt) trace e
  attempt : ∀ hashedId k, e = .stepFn hashedId k → k = attempt
  goesOn : ∀ error k, fails trace error k → maxAttempts ≤ k → e.suspends = false

section

variable {maxAttempts attempt : Nat} {loaded : Table} {id : String}
  {fails : List (Event V) → BoxError → Nat → Prop} {trace : List (Event V)}

/-- No failed attempt is the last. -/
def Spare (maxAttempts : Nat) (fails : List (Event V) → BoxError → Nat → Prop)
    (trace : List (Event V)) : Prop :=
  ∀ error k, fails trace error k → k < maxAttempts

theorem Frugal.of_quiet {e : Effect V} (hupdates : e.updates = [])
    (hattempt : ∀ hashedId k, e ≠ .stepFn hashedId k)
    (hsuspends : e.suspends = false ∨ Spare maxAttempts fails trace) :
    Frugal maxAttempts attempt loaded id fails trace e := by
  refine ⟨.of_quiet hupdates, fun _ _ he => absurd he (hattempt _ _), fun error k hfails hlast => ?_⟩
  refine hsuspends.resolve_right fun hspare => ?_
  have hlt := hspare error k hfails
  omega

theorem Frugal.of_update {e : Effect V} {u : OperationUpdate} (hupdates : e.updates = [u])
    (hattempt : ∀ hashedId k, e ≠ .stepFn hashedId k) (hsuspends : e.suspends = false)
    (htype : u.operationType = .step) (hopen : loaded.terminal id = false)
    (hsent : ∀ v ∈ naming id (sent trace), Opening v)
    (hu : Opening u ∨ WithinBudget maxAttempts attempt trace u) :
    Frugal maxAttempts attempt loaded id fails trace e := by
  have hmem : ∀ v ∈ e.updates, v = u := by
    intro v hv
    rw [hupdates] at hv
    exact List.mem_singleton.mp hv
  refine ⟨⟨fun v hv _ => ⟨hsent, ?_⟩, fun v hv _ => ?_, fun _ _ _ => hopen⟩,
    fun _ _ he => absurd he (hattempt _ _), fun _ _ _ _ => hsuspends⟩
  · rwa [hmem v hv]
  · rw [hmem v hv, htype]

end

section

variable {strategy : LimitedStrategy} {toLowercase : String → String} {n : Nat}
  {ctx : ExecutionContext} {name : Option String} {config : StepConfig V} {loaded : Table}
  {trace : List (Event V)} {T : Type}

/-- A part of the step that keeps the budget. -/
def Spends (strategy : LimitedStrategy) (toLowercase : String → String) (n : Nat)
    (ctx : ExecutionContext) (name : Option String) (semantics : StepSemantics) (loaded : Table)
    (post : List (Event V) → T → Prop) (p : Act V T) (trace : List (Event V)) : Prop :=
  Obeys loaded (Grants strategy toLowercase n)
    (Frugal strategy.maxAttempts ((standing (loaded (callId ctx name n))).attempts + 1) loaded
      (callId ctx name n) (FailsAt semantics ctx name n loaded)) post p trace

/-- What is returned after a failed attempt. -/
def Surrenders (ctx : ExecutionContext) (name : Option String) (n : Nat)
    (semantics : StepSemantics) (loaded : Table) (trace : List (Event V)) (r : DurableResult T) :
    Prop :=
  ∀ error k, FailsAt semantics ctx name n loaded trace error k →
    r = .error (.stepFailed (ctx.operationId name n) k error.message) ∧
      Step.failUpdate ctx name (callId ctx name n) error ∈ sent trace

theorem spends_suspend {post : List (Event V) → T → Prop} {semantics : StepSemantics}
    {result : TerminationResult}
    (h : Spare strategy.maxAttempts (FailsAt semantics ctx name n loaded) trace) :
    Spends strategy toLowercase n ctx name semantics loaded post (suspend result) trace := by
  apply obeys_suspend
  · exact .of_quiet rfl nofun (Or.inr h)
  · exact .of_quiet rfl nofun (Or.inr h)

theorem spends_decide {semantics : StepSemantics} {stepId : String} {error : BoxError} {k : Nat}
    (hstep : stepId = ctx.operationId name n)
    (hk : k = (standing (loaded (callId ctx name n))).attempts + 1)
    (hopen : loaded.terminal (callId ctx name n) = false)
    (hsent : ∀ v ∈ naming (callId ctx name n) (sent trace), Opening v)
    (hfails : ∀ error' k', FailsAt semantics ctx name n loaded trace error' k' →
      error' = error ∧ k' = k) :
    Spends strategy toLowercase n ctx name semantics loaded
      (Surrenders ctx name n semantics loaded)
      (.act (.shouldRetry error k) fun decision =>
        if decision.shouldRetry then
          (checkpoint stepId "step RETRY"
            (Step.retryUpdate ctx name (callId ctx name n) error decision.delay)).andThen fun _ =>
              suspend (.new .retryScheduled)
        else
          (checkpoint stepId "step FAIL"
            (Step.failUpdate ctx name (callId ctx name n) error)).andThen fun _ =>
              (.ret (.error (.stepFailed stepId k error.message)) : Act V (DurableResult T))) trace := by
  subst hstep
  refine obeys_act (.of_quiet rfl nofun (Or.inl rfl)) fun decision _ hdecision => ?_
  obtain ⟨calculateDelay, rfl⟩ := hdecision
  have hsent' : ∀ decision : RetryDecision, ∀ v ∈ naming (callId ctx name n)
      (sent (⟨Effect.shouldRetry error k, decision⟩ :: trace)), Opening v := by
    intro decision
    rwa [sent_cons_quiet rfl]
  split
  · rename_i hretry
    have hlt := LimitedStrategy.lt_of_shouldRetry hretry
    apply obeys_checkpoint (Step.retryUpdate_buildable ..)
    · apply Frugal.of_update rfl (fun _ _ he => by cases he) rfl rfl hopen (hsent' _)
      exact Or.inr fun _ => by omega
    · apply spends_suspend
      intro error' k' hfail
      obtain ⟨-, rfl⟩ := hfails error' k' hfail
      exact hlt
  · apply obeys_checkpoint (Step.failUpdate_buildable ..)
    · apply Frugal.of_update rfl (fun _ _ he => by cases he) rfl rfl hopen (hsent' _)
      exact Or.inr nofun
    · intro error' k' hfail
      obtain ⟨rfl, rfl⟩ := hfails error' k' hfail
      refine ⟨rfl, ?_⟩
      exact List.mem_append_right _ (List.mem_singleton.mpr rfl)

/-- Neither has the closure failed nor was the step interrupted. -/
def Unfailed (semantics : StepSemantics) (ctx : ExecutionContext) (name : Option String) (n : Nat)
    (loaded : Table) (trace : List (Event V)) : Prop :=
  stepErrors trace = [] ∧
    interruption semantics (ctx.operationId name n) name (loaded (callId ctx name n)) = none

theorem Unfailed.not_failsAt {semantics : StepSemantics} (h : Unfailed semantics ctx name n loaded trace)
    (error : BoxError) (k : Nat) : ¬ FailsAt semantics ctx name n loaded trace error k := by
  rintro (hmem | hinterrupted)
  · rw [h.1] at hmem
    cases hmem
  · rw [h.2] at hinterrupted
    cases hinterrupted

theorem Unfailed.spare {semantics : StepSemantics} (h : Unfailed semantics ctx name n loaded trace)
    (maxAttempts : Nat) : Spare maxAttempts (FailsAt semantics ctx name n loaded) trace :=
  fun error k hfails => absurd hfails (h.not_failsAt error k)

theorem Unfailed.surrenders {semantics : StepSemantics} (h : Unfailed semantics ctx name n loaded trace)
    (r : DurableResult T) : Surrenders ctx name n semantics loaded trace r :=
  fun error k hfails => absurd hfails (h.not_failsAt error k)

theorem Unfailed.cons {semantics : StepSemantics} (h : Unfailed semantics ctx name n loaded trace)
    {e : Effect V} {a : Answer e} (ha : Event.stepError ⟨e, a⟩ = none) :
    Unfailed semantics ctx name n loaded (⟨e, a⟩ :: trace) := by
  refine ⟨?_, h.2⟩
  unfold stepErrors
  rw [List.filterMap_cons_none ha]
  exact h.1

theorem spends_quit {semantics : StepSemantics} (h : Unfailed semantics ctx name n loaded trace)
    (result : TerminationResult) :
    let allows := Frugal strategy.maxAttempts ((standing (loaded (callId ctx name n))).attempts + 1)
      loaded (callId ctx name n) (FailsAt semantics ctx name n loaded)
    allows trace (.terminate result) ∧ allows (⟨.terminate result, ()⟩ :: trace) .pending :=
  ⟨.of_quiet rfl nofun (Or.inr (h.spare _)),
    .of_quiet rfl nofun (Or.inr ((h.cons rfl).spare _))⟩

theorem spends_act {semantics : StepSemantics} {post : List (Event V) → T → Prop} {e : Effect V}
    {k : Answer e → Act V T} (h : Unfailed semantics ctx name n loaded trace) (he : e.updates = [])
    (hattempt : ∀ hashedId attempt, e ≠ .stepFn hashedId attempt)
    (hk : ∀ a, Answers loaded e a → Grants strategy toLowercase n e a →
      Unfailed semantics ctx name n loaded (⟨e, a⟩ :: trace) →
      Spends strategy toLowercase n ctx name semantics loaded post (k a) (⟨e, a⟩ :: trace)) :
    Spends strategy toLowercase n ctx name semantics loaded post (.act e k) trace := by
  refine obeys_act (.of_quiet he hattempt (Or.inr (h.spare _))) fun a ha hgrants => ?_
  apply hk a ha hgrants
  apply h.cons
  cases e with
  | stepFn hashedId attempt => exact absurd rfl (hattempt hashedId attempt)
  | _ => rfl

theorem spends_finishStep {semantics : StepSemantics} {stepId : String} {codec : Codec V}
    (hstep : stepId = ctx.operationId name n)
    (hinterruption : interruption semantics (ctx.operationId name n) name
      (loaded (callId ctx name n)) = none)
    (hopen : loaded.terminal (callId ctx name n) = false)
    (hsent : ∀ v ∈ naming (callId ctx name n) (sent trace), Opening v)
    {outcome : Except BoxError V} {k : Nat}
    (hk : k = (standing (loaded (callId ctx name n))).attempts + 1)
    (herrors : stepErrors trace = (Event.stepError ⟨.stepFn (callId ctx name n) k, outcome⟩).toList) :
    Spends strategy toLowercase n ctx name semantics loaded (Surrenders ctx name n semantics loaded)
      (Step.finishStep ctx name stepId (callId ctx name n) k codec outcome) trace := by
  cases outcome with
  | ok result =>
    have hunfailed : Unfailed semantics ctx name n loaded trace := ⟨herrors, hinterruption⟩
    refine obeys_safeSerialize (spends_quit hunfailed) fun payload _ => ?_
    apply obeys_checkpoint (Step.succeedUpdate_buildable ..)
    · exact Frugal.of_update rfl (fun _ _ he => by cases he) rfl rfl hopen hsent (Or.inr nofun)
    · exact (hunfailed.cons rfl).surrenders _
  | error error =>
    apply spends_decide hstep hk hopen hsent
    rintro error' k' (hmem | hinterrupted)
    · rw [herrors] at hmem
      cases List.mem_singleton.mp hmem
      exact ⟨rfl, rfl⟩
    · rw [hinterruption] at hinterrupted
      cases hinterrupted

theorem spends_runStepExecution {semantics : StepSemantics} {stepId : String} {codec : Codec V}
    (hstep : stepId = ctx.operationId name n)
    (hopen : loaded.terminal (callId ctx name n) = false)
    (hsent : naming (callId ctx name n) (sent trace) = [])
    (h : Unfailed semantics ctx name n loaded trace) :
    Spends strategy toLowercase n ctx name semantics loaded (Surrenders ctx name n semantics loaded)
      (Step.runStepExecution ctx name userStep stepId (callId ctx name n)
        (loaded (callId ctx name n)) semantics codec) trace := by
  refine spends_act h rfl (fun _ _ he => by cases he) fun mode _ _ h => ?_
  have hclosure : ∀ {trace : List (Event V)}, Unfailed semantics ctx name n loaded trace →
      (∀ v ∈ naming (callId ctx name n) (sent trace), Opening v) →
      Spends strategy toLowercase n ctx name semantics loaded (Surrenders ctx name n semantics loaded)
        (do
          let attempt := ((loaded (callId ctx name n)).map (·.attemptIdx)).getD 0 + 1
          let _ ← getMode
          let outcome ← userStep (callId ctx name n) attempt
          Step.finishStep ctx name stepId (callId ctx name n) attempt codec outcome) trace := by
    intro trace h hsent
    refine spends_act h rfl (fun _ _ he => by cases he) fun mode _ _ h => ?_
    refine obeys_act ⟨.of_quiet rfl, fun _ _ he => ?_, fun error k hfails _ => ?_⟩ fun outcome _ _ => ?_
    · cases he
      rfl
    · exact absurd hfails (h.not_failsAt error k)
    · change Spends strategy toLowercase n ctx name semantics loaded _
        (Step.finishStep ctx name stepId (callId ctx name n) _ codec outcome) _
      refine spends_finishStep (k := _) hstep h.2 hopen ?_ rfl ?_
      · rwa [sent_cons_quiet rfl, sent_cons_quiet rfl]
      unfold stepErrors
      cases outcome with
      | ok v => exact h.1
      | error error => exact congrArg (_ :: ·) h.1
  have hnone : ∀ v ∈ naming (callId ctx name n) (sent (⟨Effect.setMode .execution, mode⟩ :: trace)),
      Opening v := by
    rw [sent_cons_quiet rfl, hsent]
    intro v hv
    cases hv
  split
  · exact hclosure h hnone
  · have hopened : ∀ {e : Effect V} {a : Answer e},
        e.updates = [Step.update ctx name (callId ctx name n) .start] →
        ∀ v ∈ naming (callId ctx name n) (sent (⟨e, a⟩ :: ⟨Effect.setMode .execution, mode⟩ :: trace)),
        Opening v := by
      intro e a he v hv
      rw [sent, he, naming_append] at hv
      obtain hv | hv := List.mem_append.mp hv
      · exact hnone v hv
      · rw [List.mem_singleton.mp (List.mem_filter.mp hv).1]
        exact ⟨rfl, rfl, rfl, rfl⟩
    have hstart : Opening (Step.update ctx name (callId ctx name n) .start) := ⟨rfl, rfl, rfl, rfl⟩
    cases semantics with
    | atMostOncePerRetry =>
      unfold Step.startStep
      apply obeys_checkpoint (Step.update_buildable ..)
      · exact Frugal.of_update rfl (fun _ _ he => by cases he) rfl rfl hopen hnone (Or.inl hstart)
      · exact hclosure (h.cons rfl) (hopened rfl)
    | atLeastOncePerRetry =>
      unfold Step.startStep
      apply obeys_checkpointQueued (Step.update_buildable ..)
      · exact Frugal.of_update rfl (fun _ _ he => by cases he) rfl rfl hopen hnone (Or.inl hstart)
      · exact hclosure (h.cons rfl) (hopened rfl)

/-- What `handle_replay` leaves to do. -/
def Resumes (ctx : ExecutionContext) (name : Option String) (n : Nat) (semantics : StepSemantics)
    (loaded : Table) (trace : List (Event V)) : DurableResult (Option V) → Prop
  | .ok none => loaded.terminal (callId ctx name n) = false ∧
      naming (callId ctx name n) (sent trace) = [] ∧ Unfailed semantics ctx name n loaded trace
  | .ok (some _) => Unfailed semantics ctx name n loaded trace
  | .error e => Surrenders ctx name n semantics loaded trace (.error e : DurableResult V)

theorem spends_handleReplay {semantics : StepSemantics} {stepId : String} {codec : Codec V}
    (hstep : stepId = ctx.operationId name n)
    (hsent : naming (callId ctx name n) (sent trace) = []) (herrors : stepErrors trace = []) :
    Spends strategy toLowercase n ctx name semantics loaded (Resumes ctx name n semantics loaded)
      (Step.handleReplay ctx (loaded (callId ctx name n)) stepId (callId ctx name n) name semantics
        codec) trace := by
  have huninterrupted : (∀ op, loaded (callId ctx name n) = some op → op.status ≠ .started) →
      Unfailed semantics ctx name n loaded trace := by
    intro hstatus
    refine ⟨herrors, ?_⟩
    cases hop : loaded (callId ctx name n) with
    | none => rfl
    | some op => exact if_neg fun h => hstatus op hop h.2
  have hrun : loaded.terminal (callId ctx name n) = false →
      Unfailed semantics ctx name n loaded trace →
      Resumes ctx name n semantics loaded trace (.ok none : DurableResult (Option V)) :=
    fun hopen h => ⟨hopen, hsent, h⟩
  cases hop : loaded (callId ctx name n) with
  | none =>
    apply hrun
    · simp [Table.terminal, hop]
    · exact huninterrupted fun op hsome => by simp [hop] at hsome
  | some op =>
    have hunfailed : op.status ≠ .started → Unfailed semantics ctx name n loaded trace := by
      intro hstatus
      apply huninterrupted
      intro op' hop'
      obtain rfl := Option.some.inj (hop.symm.trans hop')
      exact hstatus
    have hterminal : loaded.terminal (callId ctx name n) = op.status.isTerminal := by
      simp [Table.terminal, hop]
    simp only [Step.handleReplay]
    cases hstatus : op.status with
    | succeeded =>
      have h := hunfailed (by rw [hstatus]; decide)
      dsimp only
      split
      · refine obeys_safeDeserialize (spends_quit h) fun value _ => ?_
        cases value with
        | some val => exact h
        | none => exact h.surrenders _
      · exact h.surrenders _
    | failed => exact (hunfailed (by rw [hstatus]; decide)).surrenders _
    | pending =>
      have h := hunfailed (by rw [hstatus]; decide)
      refine spends_act h rfl (fun _ _ he => by cases he) fun _ _ _ h => ?_
      exact spends_suspend (h.spare _)
    | ready | unknown =>
      apply hrun
      · rw [hterminal, hstatus]
        rfl
      · exact hunfailed (by rw [hstatus]; decide)
    | started =>
      have hopen : loaded.terminal (callId ctx name n) = false := by
        rw [hterminal, hstatus]
        rfl
      cases semantics with
      | atLeastOncePerRetry =>
        refine hrun hopen ⟨herrors, ?_⟩
        simp [interruption, hop]
      | atMostOncePerRetry =>
        dsimp only
        refine obeys_act (.of_quiet rfl (fun _ _ he => by cases he) (Or.inl rfl)) fun mode _ _ => ?_
        have hinterruption : interruption .atMostOncePerRetry (ctx.operationId name n) name
            (loaded (callId ctx name n)) =
              some (Step.stepInterruptedError (ctx.operationId name n) name, op.attemptIdx + 1) := by
          rw [hop]
          exact if_pos ⟨rfl, hstatus⟩
        refine Prog.Meets.mono (fun trace r hr => ?_) (spends_decide hstep ?_ hopen ?_ ?_)
        · cases r with
          | error e => exact fun error k hfails => by simpa using hr error k hfails
          | ok v =>
            obtain ⟨hreturn, -⟩ := hr _ _ (Or.inr hinterruption)
            cases hreturn
        · simp [standing, hop]
        · rw [sent_cons_quiet rfl, hsent]
          intro v hv
          cases hv
        · rintro error' k' (hmem | hfound)
          · have hmem : (error', k') ∈ stepErrors trace := hmem
            rw [herrors] at hmem
            cases hmem
          · rw [hinterruption] at hfound
            cases hfound
            exact ⟨by rw [hstep], rfl⟩

theorem spends_step : Spends strategy toLowercase n ctx name config.semantics loaded
    (Surrenders ctx name n config.semantics loaded) (ctx.step name userStep config) [] := by
  simp only [ExecutionContext.step, nextOperationId_bind, getStepData_bind]
  refine obeys_act (.of_quiet rfl (fun _ _ he => by cases he) (Or.inl rfl)) fun counter _ hcounter => ?_
  obtain rfl : counter = n := hcounter
  refine obeys_act (.of_quiet rfl (fun _ _ he => by cases he) (Or.inl rfl)) fun operation hop _ => ?_
  obtain rfl : operation = loaded (callId ctx name counter) := hop
  refine Prog.Meets.andThen (spends_handleReplay rfl rfl rfl) (fun result trace hr => ?_)
    fun e trace hr => hr
  cases result with
  | some v => exact Unfailed.surrenders hr _
  | none => exact spends_runStepExecution rfl hr.1 hr.2.1 hr.2.2

end

/-! ## Executions -/

section

variable {strategy : LimitedStrategy} {toLowercase : String → String} {n : Nat}
  {ctx : ExecutionContext} {name : Option String} {config : StepConfig V} {token : String}
  {loaded : Table} {c : Call.State V (DurableResult V)}

/-- The step with its strategy, and nobody else with its ID. -/
def Budgeted (strategy : LimitedStrategy) (toLowercase : String → String) (n : Nat)
    (ctx : ExecutionContext) (name : Option String) :
    Call.State V (DurableResult V) → Call.Label V → Prop :=
  Plays (Grants strategy toLowercase n) (callId ctx name n)

/-- What one invocation adds to the attempts. -/
theorem attempts_of_call
    (h : (Call.machine token loaded (ctx.step name userStep config)).ReachableBy
      (Budgeted strategy toLowercase n ctx name) c)
    (hold : OfType .step (loaded (callId ctx name n))) :
    OfType .step (c.backend (callId ctx name n)) ∧
      (standing (c.backend (callId ctx name n))).attempts =
        (standing (loaded (callId ctx name n))).attempts + retries (c.acks (callId ctx name n)) ∧
      (retries (c.acks (callId ctx name n)) ≠ 0 → retries (c.acks (callId ctx name n)) = 1 ∧
        (standing (loaded (callId ctx name n))).attempts + 1 < strategy.maxAttempts) := by
  obtain ⟨hpermitted, hnext, -⟩ := obeys_of_reachable grants_of_not_chosen spends_step h
  have hnoted := noted_of_reachableBy (fun _ _ hl => hl.alone) h
  obtain ⟨closing, hsession, htype, hstanding, hclosing⟩ := hnoted.standing
    (hpermitted.mono fun _ _ he => he.stepWise) (fun e he => (hnext e he).stepWise) hold
  refine ⟨htype, ?_, fun hretried => ?_⟩
  · rw [hstanding, hsession.retries]
    cases closing with
    | none => rfl
    | some v =>
      obtain ⟨hverdict, -⟩ := hclosing v rfl
      cases haction : v.action <;> simp [Standing.after, hverdict, haction]
  · rw [hsession.retries] at hretried ⊢
    split at hretried
    · rename_i hretry
      rw [if_pos hretry]
      obtain ⟨v, rfl, haction⟩ := (Option.any_eq_true _ _).mp hretry
      obtain ⟨-, u, earlier, -, hbudget, hkept⟩ := hclosing v rfl
      refine ⟨rfl, hbudget ?_⟩
      have hsame : v.action = u.action := congrArg Prod.fst hkept
      rw [← hsame]
      simpa using haction
    · exact absurd rfl hretried

/-- The attempts counted are the RETRYs acknowledged, and these keep the budget. -/
def OnBudget (strategy : LimitedStrategy) (id : String)
    (past : List (Call.State V (DurableResult V))) (loaded : Table) : Prop :=
  OfType .step (loaded id) ∧
    (standing (loaded id)).attempts = retries (Execution.settled id past) ∧
    retries (Execution.settled id past) ≤ max strategy.maxAttempts 1 - 1

theorem OnBudget.retries_le {past : List (Call.State V (DurableResult V))}
    (hbudget : OnBudget strategy (callId ctx name n) past loaded)
    (h : (Call.machine token loaded (ctx.step name userStep config)).ReachableBy
      (Budgeted strategy toLowercase n ctx name) c) :
    retries (Execution.settled (callId ctx name n) past) + retries (c.acks (callId ctx name n)) ≤
      max strategy.maxAttempts 1 - 1 := by
  obtain ⟨htype, hattempts, hbound⟩ := hbudget
  obtain ⟨-, -, hretried⟩ := attempts_of_call h htype
  by_cases hzero : retries (c.acks (callId ctx name n)) = 0
  · omega
  · obtain ⟨hone, hlt⟩ := hretried hzero
    omega

theorem OnBudget.next {past : List (Call.State V (DurableResult V))}
    (hbudget : OnBudget strategy (callId ctx name n) past loaded)
    (h : (Call.machine token loaded (ctx.step name userStep config)).ReachableBy
      (Budgeted strategy toLowercase n ctx name) c) :
    OnBudget strategy (callId ctx name n) (c :: past) c.backend := by
  have hle := hbudget.retries_le h
  obtain ⟨htype, hattempts, -⟩ := hbudget
  obtain ⟨htype', hcount, -⟩ := attempts_of_call h htype
  have happend : retries (Execution.settled (callId ctx name n) (c :: past)) =
      retries (Execution.settled (callId ctx name n) past) + retries (c.acks (callId ctx name n)) := by
    rw [Execution.settled_cons]
    exact List.countP_append
  exact ⟨htype', by rw [hcount, hattempts, happend], by rw [happend]; exact hle⟩

end

/-! ## A step that fails twice -/

def twoAttempts : LimitedStrategy := .fixedRetry ⟨2⟩

def failingStep : StepConfig Nat := { codec := .nat, semantics := .atMostOncePerRetry }

def failTwice : (e : Effect Nat) → Option (Answer e)
  | .fetchAdd _ => some 0
  | .stepFn _ _ => some (.error { message := "no such host" })
  | .shouldRetry error k => some (twoAttempts.shouldRetry id (fun _ => .ofSeconds 1) error k)
  | _ => none

/-- The first attempt, up to the end of the delay after its RETRY. -/
def firstAttempt : List (Call.Label Nat) :=
  [.perform failTwice, .perform failTwice, .perform failTwice, .request 0] ++
    (served 0).map .manager ++
    [.resume, .perform failTwice, .perform failTwice, .perform failTwice, .request 1] ++
    (served 1).map .manager ++ [.resume, .service (.elapsed "op_0")]

def lastAttempt : List (Call.Label Nat) :=
  [.perform failTwice, .perform failTwice, .perform failTwice, .perform failTwice,
    .perform failTwice, .perform failTwice, .request 0] ++
    (served 0).map .manager ++ [.resume]

def failingRun : List (Execution.Label Nat) :=
  firstAttempt.map .call ++ [.invoke "t1" .replay] ++ lastAttempt.map .call

end LambdaDurable
