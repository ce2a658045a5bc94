import LambdaDurable.Context.Budget
import LambdaDurable.Context.Values

/-!
# The attempts of an at-most-once step

The closure is called for the attempt after those that the record counts, from a record that
is Ready or not there. START makes the record Started, and an invocation that finds it so
leaves the closure alone. A Ready record gets no START, and a START whose batch is rejected
leaves no trace: what is called then is called again, unless a later update is acknowledged.
-/

namespace LambdaDurable

open Effects Call Backend

variable {V : Type}

def Effect.attempt : Effect V → Option Nat
  | .stepFn _ attempt => some attempt
  | _ => none

/-- The attempts for which the closure has returned. -/
def attempted (trace : List (Event V)) : List Nat := trace.filterMap (·.1.attempt)

theorem attempted_of_quiet {e : Effect V} {a : Answer e} {trace : List (Event V)}
    (h : e.attempt = none) : attempted (⟨e, a⟩ :: trace) = attempted trace :=
  List.filterMap_cons_none h

theorem attempted_called {e : Effect V} {a : Answer e} {trace : List (Event V)} {k : Nat}
    (h : e.attempt = some k) : attempted (⟨e, a⟩ :: trace) = k :: attempted trace :=
  List.filterMap_cons_some h

/-- The attempts for which the closure was called, in an invocation and in all of them. -/
def Call.State.attempts {α : Type} (c : Call.State V α) : List Nat :=
  (c.program.next.bind (·.attempt)).toList ++ attempted c.trace

def Execution.State.attempts {α : Type} (s : Execution.State V α) : List Nat :=
  s.call.attempts ++ s.past.flatMap Call.State.attempts

/-- An invocation that loads such a record goes on to the closure. -/
def resumable : Option Operation → Bool
  | none => true
  | some op => op.status == .ready || op.status == .unknown

/-- An invocation that loads such a record leaves the closure alone. -/
def barred (r : Option Operation) : Bool :=
  r.any fun op => op.status == .started || op.status.isTerminal

theorem not_barred_of_resumable {r : Option Operation} (h : resumable r = true) :
    barred r = false := by
  cases r with
  | none => rfl
  | some op => cases hop : op.status <;> simp_all [resumable, barred, OperationStatus.isTerminal]

/-! ## One invocation -/

/-- The closure is called once, for the attempt after those counted. -/
def CallsOnce (r : Option Operation) (trace : List (Event V)) (e : Effect V) : Prop :=
  ∀ k, e.attempt = some k →
    attempted trace = [] ∧ resumable r = true ∧ k = (standing r).attempts + 1

theorem CallsOnce.of_quiet {r : Option Operation} {trace : List (Event V)} {e : Effect V}
    (h : e.attempt = none) : CallsOnce r trace e := by
  intro k hk
  rw [h] at hk
  cases hk

theorem attempted_of_permitted {r : Option Operation} {trace : List (Event V)}
    (h : Permitted (CallsOnce r) trace) :
    attempted trace = [] ∨ resumable r = true ∧ attempted trace = [(standing r).attempts + 1] := by
  induction trace with
  | nil => exact Or.inl rfl
  | cons event trace ih =>
    obtain ⟨e, a⟩ := event
    cases hattempt : e.attempt with
    | none =>
      rw [attempted_of_quiet hattempt]
      exact ih h.2
    | some k =>
      obtain ⟨hnone, hresumable, rfl⟩ := h.1 k hattempt
      refine Or.inr ⟨hresumable, ?_⟩
      rw [attempted_called hattempt, hnone]

section

variable {ctx : ExecutionContext} {name : Option String} {n : Nat} {config : StepConfig V}
  {loaded : Table} {trace : List (Event V)} {T : Type}

abbrev Attempting (ctx : ExecutionContext) (name : Option String) (n : Nat) (loaded : Table)
    (post : List (Event V) → T → Prop) (p : Act V T) (trace : List (Event V)) : Prop :=
  Obeys loaded (Numbered n) (CallsOnce (loaded (callId ctx name n))) post p trace

theorem attempting_quit (result : TerminationResult) :
    CallsOnce (loaded (callId ctx name n)) trace (.terminate result) ∧
      CallsOnce (loaded (callId ctx name n)) (⟨.terminate result, ()⟩ :: trace) .pending :=
  ⟨.of_quiet rfl, .of_quiet rfl⟩

theorem attempting_suspend {post : List (Event V) → T → Prop} {result : TerminationResult} :
    Attempting ctx name n loaded post (suspend result) trace :=
  obeys_suspend (.of_quiet rfl) (.of_quiet rfl)

theorem attempting_decide {stepId : String} {error : BoxError} {attempt : Nat}
    {post : List (Event V) → DurableResult T → Prop} (hpost : ∀ trace e, post trace (.error e)) :
    Attempting ctx name n loaded post
      (.act (.shouldRetry error attempt) fun decision =>
        if decision.shouldRetry then
          (checkpoint stepId "step RETRY"
            (Step.retryUpdate ctx name (callId ctx name n) error decision.delay)).andThen fun _ =>
              suspend (.new .retryScheduled)
        else
          (checkpoint stepId "step FAIL"
            (Step.failUpdate ctx name (callId ctx name n) error)).andThen fun _ =>
              (.ret (.error (.stepFailed stepId attempt error.message)) :
                Act V (DurableResult T))) trace := by
  refine obeys_act (.of_quiet rfl) fun decision _ _ => ?_
  split
  · apply obeys_checkpoint (Step.retryUpdate_buildable ..)
    · exact .of_quiet rfl
    · exact attempting_suspend
  · apply obeys_checkpoint (Step.failUpdate_buildable ..)
    · exact .of_quiet rfl
    · exact hpost _ _

theorem attempting_finishStep {stepId : String} {attempt : Nat} {outcome : Except BoxError V} :
    Attempting ctx name n loaded (fun _ _ => True)
      (Step.finishStep ctx name stepId (callId ctx name n) attempt config.codec outcome) trace := by
  cases outcome with
  | ok result =>
    refine obeys_safeSerialize attempting_quit fun payload _ => ?_
    apply obeys_checkpoint (Step.succeedUpdate_buildable ..)
    · exact .of_quiet rfl
    · trivial
  | error error => exact attempting_decide fun _ _ => trivial

theorem attempting_runStepExecution {stepId : String}
    (hresumable : resumable (loaded (callId ctx name n)) = true) (hnone : attempted trace = []) :
    Attempting ctx name n loaded (fun _ _ => True)
      (Step.runStepExecution ctx name userStep stepId (callId ctx name n)
        (loaded (callId ctx name n)) config.semantics config.codec) trace := by
  refine obeys_act (.of_quiet rfl) fun mode _ _ => ?_
  refine Prog.Meets.andThen (m := fun trace _ => attempted trace = []) ?_ ?_ fun _ _ _ => trivial
  · split
    · exact hnone
    · unfold Step.startStep
      split
      · rw [checkpoint_of_build (Step.update_buildable ..)]
        exact obeys_act (.of_quiet rfl) fun _ _ _ => hnone
      · rw [checkpointQueued_of_build (Step.update_buildable ..)]
        exact obeys_act (.of_quiet rfl) fun _ _ _ => hnone
  · intro _ trace hnone
    refine obeys_act (.of_quiet rfl) fun mode _ _ => ?_
    refine obeys_act ?_ fun outcome _ _ => attempting_finishStep
    rintro k ⟨⟩
    exact ⟨hnone, hresumable, rfl⟩

/-- Where `handle_replay` leaves something to do, the record is resumable. -/
theorem attempting_handleReplay {stepId : String} (hnone : attempted trace = [])
    (hsemantics : config.semantics = .atMostOncePerRetry) :
    Attempting ctx name n loaded
      (fun trace r => r = .ok none → attempted trace = [] ∧
        resumable (loaded (callId ctx name n)) = true)
      (Step.handleReplay ctx (loaded (callId ctx name n)) stepId (callId ctx name n) name
        config.semantics config.codec) trace := by
  cases hop : loaded (callId ctx name n) with
  | none => exact fun _ => ⟨hnone, rfl⟩
  | some op =>
    simp only [Step.handleReplay]
    cases hstatus : op.status with
    | succeeded =>
      dsimp only
      split
      · refine obeys_safeDeserialize attempting_quit fun value _ => ?_
        split <;> rintro ⟨⟩
      · rintro ⟨⟩
    | failed => rintro ⟨⟩
    | pending => exact obeys_act (.of_quiet rfl) fun _ _ _ => attempting_suspend
    | ready | unknown =>
      intro _
      refine ⟨hnone, ?_⟩
      rw [resumable, hstatus]
      rfl
    | started =>
      rw [hsemantics]
      refine obeys_act (.of_quiet rfl) fun mode _ _ => ?_
      exact attempting_decide fun _ _ => by rintro ⟨⟩

theorem attempting_step (hsemantics : config.semantics = .atMostOncePerRetry) :
    Attempting ctx name n loaded (fun _ _ => True) (ctx.step name userStep config) [] := by
  simp only [ExecutionContext.step, nextOperationId_bind, getStepData_bind]
  refine obeys_act (.of_quiet rfl) fun counter _ hcounter => ?_
  obtain rfl : counter = n := hcounter
  refine obeys_act (.of_quiet rfl) fun operation hop _ => ?_
  obtain rfl : operation = loaded (callId ctx name counter) := hop
  refine Prog.Meets.andThen (attempting_handleReplay rfl hsemantics) (fun result trace hr => ?_)
    fun _ _ _ => trivial
  cases result with
  | some value => trivial
  | none =>
    obtain ⟨hnone, hresumable⟩ := hr rfl
    exact attempting_runStepExecution hresumable hnone

/-- In one invocation the closure is called for the next attempt at most. -/
theorem attempts_of_reachable {token : String} {c : Call.State V (DurableResult V)}
    (hsemantics : config.semantics = .atMostOncePerRetry)
    (h : (Call.machine token loaded (ctx.step name userStep config)).ReachableBy
      (Plays (Numbered n) (callId ctx name n)) c) :
    c.attempts = [] ∨ resumable (loaded (callId ctx name n)) = true ∧
      c.attempts = [(standing (loaded (callId ctx name n))).attempts + 1] := by
  obtain ⟨hpermitted, hnext, -⟩ :=
    obeys_of_reachable numbered_of_not_chosen (attempting_step hsemantics) h
  have hreturned := attempted_of_permitted hpermitted
  unfold Call.State.attempts
  cases hcalled : c.program.next.bind (·.attempt) with
  | none => exact hreturned
  | some k =>
    obtain ⟨e, he, hattempt⟩ := Option.bind_eq_some_iff.mp hcalled
    obtain ⟨hnone, hresumable, rfl⟩ := hnext e he k hattempt
    refine Or.inr ⟨hresumable, ?_⟩
    rw [hnone]
    rfl

end

/-! ## The record after it -/

theorem barred_applied {r : Option Operation} {v : OperationUpdate} (hretry : v.action ≠ .retry) :
    applied r v = r ∨ barred (applied r v) = true := by
  unfold applied
  split
  · exact Or.inl rfl
  · unfold record
    cases haction : v.action with
    | retry => exact absurd haction hretry
    | cancel => exact Or.inl rfl
    | start => exact Or.inr rfl
    | succeed | fail =>
      refine Or.inr ?_
      simp only [barred, Option.any_some, finished_status]
      rfl

theorem not_pending_of_barred {op : Operation} (h : barred (some op) = true) :
    op.status ≠ .pending := by
  intro hpending
  simp [barred, hpending, OperationStatus.isTerminal] at h

/-- Without a RETRY the record of a step stays, or the step is barred. -/
theorem Backend.Follows.barred {old r : Option Operation} {vs : List OperationUpdate}
    (h : Follows old vs r) (hold : OfType .step old) (hvs : ∀ v ∈ vs, v.operationType = .step)
    (hretry : ∀ v ∈ vs, v.action ≠ .retry)
    (hpending : ∀ op, old = some op → op.status ≠ .pending) :
    r = old ∨ LambdaDurable.barred r = true := by
  induction h with
  | refl => exact Or.inl rfl
  | @ack vs r v hbefore ih =>
    have hr := ih (fun v hv => hvs v (List.mem_append_left _ hv))
      fun v hv => hretry v (List.mem_append_left _ hv)
    obtain hsame | hbarred := barred_applied (r := r) (hretry v (by simp))
    · rwa [hsame]
    · exact Or.inr hbarred
  | @event vs r r' hbefore hadvances ih =>
    have htype := hbefore.ofType hold rfl hvs
    have hr := ih hvs hretry
    cases hadvances with
    | elapsed hp =>
      obtain hsame | hbarred := hr
      · exact absurd hp (hpending _ hsame.symm)
      · exact absurd hp (not_pending_of_barred hbarred)
    | completed _ hexternal _ =>
      rw [htype _ rfl] at hexternal
      cases hexternal

theorem Backend.Standing.after_attempts {st : Standing} {v : OperationUpdate}
    (hretry : v.action ≠ .retry) : (st.after v).attempts = st.attempts := by
  unfold Standing.after
  split
  · rfl
  · cases haction : v.action with
    | retry => exact absurd haction hretry
    | _ => rfl

theorem Backend.Standing.after_retry {st : Standing} {v : OperationUpdate}
    (hopen : st.verdict = none) (hretry : v.action = .retry) :
    (st.after v).attempts = st.attempts + 1 := by
  unfold Standing.after
  rw [hopen, hretry]
  rfl

section

variable {ctx : ExecutionContext} {name : Option String} {n : Nat} {config : StepConfig V}
  {token : String} {loaded : Table} {c : Call.State V (DurableResult V)}

/-- An invocation counts one attempt more, or the record stays, or the step is barred. -/
theorem counted_of_reachable (hold : OfType .step (loaded (callId ctx name n)))
    (h : (Call.machine token loaded (ctx.step name userStep config)).ReachableBy
      (Plays (Numbered n) (callId ctx name n)) c) :
    OfType .step (c.backend (callId ctx name n)) ∧
      ((standing (c.backend (callId ctx name n))).attempts =
          (standing (loaded (callId ctx name n))).attempts + 1 ∨
        (standing (c.backend (callId ctx name n))).attempts =
          (standing (loaded (callId ctx name n))).attempts ∧
        ((∀ op, loaded (callId ctx name n) = some op → op.status ≠ .pending) →
          c.backend (callId ctx name n) = loaded (callId ctx name n) ∨
            barred (c.backend (callId ctx name n)) = true)) := by
  obtain ⟨hpermitted, hnext, -⟩ := obeys_of_reachable numbered_of_not_chosen remembers_step h
  have hnoted := noted_of_reachableBy (fun _ _ hl => hl.alone) h
  have hbefore := hpermitted.mono fun _ _ he => he.stepWise
  have hafter := fun e he => (hnext e he).stepWise
  obtain ⟨closing, ⟨starts, hacks, hstarts⟩, htype, hstanding, hclosing⟩ :=
    hnoted.standing hbefore hafter hold
  refine ⟨htype, ?_⟩
  have hstays : (∀ v ∈ closing, v.action ≠ .retry) → ∀ v ∈ c.acks (callId ctx name n),
      v.action ≠ .retry := by
    intro hclosing v hv
    rw [hacks] at hv
    obtain hv | hv := List.mem_append.mp hv
    · rw [(hstarts v hv).action]
      decide
    · exact hclosing v (Option.mem_toList.mp hv)
  have hquiet : (∀ v ∈ closing, v.action ≠ .retry) →
      (∀ op, loaded (callId ctx name n) = some op → op.status ≠ .pending) →
      c.backend (callId ctx name n) = loaded (callId ctx name n) ∨
        barred (c.backend (callId ctx name n)) = true := fun hnone =>
    hnoted.record.barred hold (fun v hv => (hnoted.stepLike hbefore hafter hv).1) (hstays hnone)
  rw [hstanding]
  cases closing with
  | none => exact Or.inr ⟨rfl, hquiet fun _ hv => by cases hv⟩
  | some v =>
    obtain ⟨hopen, -⟩ := hclosing v rfl
    by_cases hretry : v.action = .retry
    · exact Or.inl (Standing.after_retry hopen hretry)
    · refine Or.inr ⟨Standing.after_attempts hretry, hquiet ?_⟩
      rintro _ ⟨⟩
      exact hretry

end

/-! ## All invocations -/

/-- An invocation in which the closure was called is cut off only once the service has another
record of the step than the one loaded. -/
def Execution.Recorded {α : Type} (allow : Call.State V α → Call.Label V → Prop) (id : String)
    (s : Execution.State V α) : Execution.Label V → Prop
  | .call l => allow s.call l
  | .invoke _ _ => s.call.attempts ≠ [] → s.call.backend id ≠ s.loaded id

/-- Each attempt was made once, and the last of them only bars another one. -/
structure Spent (id : String) (past : List (Call.State V (DurableResult V))) (loaded : Table) :
    Prop where
  ofType : OfType .step (loaded id)
  nodup : (past.flatMap Call.State.attempts).Nodup
  counted : ∀ k ∈ past.flatMap Call.State.attempts, k ≤ (standing (loaded id)).attempts + 1
  last : (standing (loaded id)).attempts + 1 ∈ past.flatMap Call.State.attempts →
    barred (loaded id) = true

section

variable {ctx : ExecutionContext} {name : Option String} {n : Nat} {config : StepConfig V}
  {token : String} {table loaded : Table} {c : Call.State V (DurableResult V)}
  {past : List (Call.State V (DurableResult V))}

theorem Spent.nodup_of_reachable (hspent : Spent (callId ctx name n) past loaded)
    (hsemantics : config.semantics = .atMostOncePerRetry)
    (h : (Call.machine token loaded (ctx.step name userStep config)).ReachableBy
      (Plays (Numbered n) (callId ctx name n)) c) :
    (c.attempts ++ past.flatMap Call.State.attempts).Nodup := by
  obtain hnone | ⟨hresumable, hone⟩ := attempts_of_reachable hsemantics h
  · rw [hnone]
    exact hspent.nodup
  · rw [hone, List.singleton_append, List.nodup_cons]
    refine ⟨fun hmem => ?_, hspent.nodup⟩
    have hbarred := hspent.last hmem
    rw [not_barred_of_resumable hresumable] at hbarred
    cases hbarred

theorem Spent.next (hspent : Spent (callId ctx name n) past loaded)
    (hsemantics : config.semantics = .atMostOncePerRetry)
    (h : (Call.machine token loaded (ctx.step name userStep config)).ReachableBy
      (Plays (Numbered n) (callId ctx name n)) c)
    (hrecorded : c.attempts ≠ [] → c.backend (callId ctx name n) ≠ loaded (callId ctx name n)) :
    Spent (callId ctx name n) (c :: past) c.backend := by
  obtain ⟨htype, hcounted⟩ := counted_of_reachable hspent.ofType h
  have hcalled := attempts_of_reachable hsemantics h
  have hle : ∀ k ∈ c.attempts ++ past.flatMap Call.State.attempts,
      k ≤ (standing (loaded (callId ctx name n))).attempts + 1 := by
    intro k hk
    obtain hk | hk := List.mem_append.mp hk
    · obtain hnone | ⟨-, hone⟩ := hcalled
      · rw [hnone] at hk
        cases hk
      · rw [hone] at hk
        rw [List.mem_singleton.mp hk]
    · exact hspent.counted k hk
  refine ⟨htype, hspent.nodup_of_reachable hsemantics h, fun k hk => ?_, fun hlast => ?_⟩
  · have hk := hle k hk
    obtain hmore | ⟨hsame, -⟩ := hcounted
    · omega
    · rwa [hsame]
  · obtain hmore | ⟨hsame, hstays⟩ := hcounted
    · have := hle _ hlast
      omega
    · rw [hsame] at hlast
      obtain hlast | hlast := List.mem_append.mp hlast
      · obtain hnone | ⟨hresumable, hone⟩ := hcalled
        · rw [hnone] at hlast
          cases hlast
        · have hcalled : c.attempts ≠ [] := by
            rw [hone]
            exact List.cons_ne_nil _ _
          refine (hstays fun op hop hpending => ?_).resolve_left (hrecorded hcalled)
          rw [hop] at hresumable
          simp [resumable, hpending] at hresumable
      · have hbarred := hspent.last hlast
        have hkept := hstays fun op hop => not_pending_of_barred (hop ▸ hbarred)
        obtain hkept | hkept := hkept
        · rwa [hkept]
        · exact hkept

/-- While no invocation leaves a call of the closure unrecorded, the closure of an
at-most-once step is called once for each attempt. -/
theorem at_most_once {s : Execution.State V (DurableResult V)}
    (hsemantics : config.semantics = .atMostOncePerRetry)
    (htable : OfType .step (table (callId ctx name n)))
    (h : (Execution.machine token table (ctx.step name userStep config)).ReachableBy
      (Execution.Recorded (Plays (Numbered n) (callId ctx name n)) (callId ctx name n)) s) :
    s.attempts.Nodup ∧
      ∀ k ∈ s.call.attempts, k = (standing (s.loaded (callId ctx name n))).attempts + 1 := by
  have hwithin : ∀ {s}, (Execution.machine token table (ctx.step name userStep config)).ReachableBy
      (Execution.Recorded (Plays (Numbered n) (callId ctx name n)) (callId ctx name n)) s →
      ∃ token, (Call.machine token s.loaded (ctx.step name userStep config)).ReachableBy
        (Plays (Numbered n) (callId ctx name n)) s.call := by
    intro s h
    refine Execution.call_reachable (h.mono fun _ l hl => ?_)
    cases l with
    | call l => exact hl
    | invoke token mode => trivial
  have hspent : Spent (callId ctx name n) s.past s.loaded := by
    refine h.invariant (I := fun s => Spent (callId ctx name n) s.past s.loaded) ?_ ?_
    · rintro _ ⟨mode, rfl⟩
      exact ⟨htable, List.nodup_nil, nofun, nofun⟩
    · intro s l s' hr hs hl hstep
      cases l with
      | call l =>
        obtain ⟨call, -, rfl⟩ := Option.map_eq_some_iff.mp hstep
        exact hs
      | invoke token' mode =>
        obtain rfl := Option.some.inj hstep
        obtain ⟨token'', hcall⟩ := hwithin hr
        exact hs.next hsemantics hcall hl
  obtain ⟨token', hcall⟩ := hwithin h
  refine ⟨hspent.nodup_of_reachable hsemantics hcall, fun k hk => ?_⟩
  obtain hnone | ⟨-, hone⟩ := attempts_of_reachable hsemantics hcall
  · rw [hnone] at hk
    cases hk
  · rw [hone] at hk
    exact List.mem_singleton.mp hk

end

/-! ## The attempts in `u32` -/

section

variable {program : Act V (DurableResult V)} {codec : Codec V} {site : SerdesSite}
  {ctx : ExecutionContext} {name : Option String} {missing id token : String} {n : Nat}
  {table : Table} {s : Execution.State V (DurableResult V)} {op : Operation}

theorem nextAttempt_of_steplike
    (hcall : ∀ token loaded c, (Call.machine token loaded program).ReachableBy
      (Plays (Numbered n) id) c → Steplike codec site missing loaded id c)
    (hnew : table id = none)
    (h : (Execution.machine token table program).ReachableBy
      (Execution.Within (Plays (Numbered n) id)) s)
    (hfew : s.past.length + 1 < 2 ^ 32) (hop : s.loaded id = some op) :
    op.nextAttempt.toNat = op.attemptIdx + 1 := by
  obtain ⟨-, hle⟩ := Execution.attempts_le_past (fun _ => Keeps codec site)
    (fun token loaded c hreach => (hcall token loaded c hreach).stepWise) hnew h
  have hcount : (standing (s.loaded id)).attempts = op.attemptIdx := by
    rw [hop]
    rfl
  apply Operation.nextAttempt_toNat
  omega

/-- In the first `2 ^ 32 - 1` invocations the next attempt of a step fits a `u32`. -/
theorem step_nextAttempt {config : StepConfig V} (hnew : table (callId ctx name n) = none)
    (h : (Execution.machine token table (ctx.step name userStep config)).ReachableBy
      (Execution.Within (Plays (Numbered n) (callId ctx name n))) s)
    (hfew : s.past.length + 1 < 2 ^ 32) (hop : s.loaded (callId ctx name n) = some op) :
    op.nextAttempt.toNat = op.attemptIdx + 1 :=
  nextAttempt_of_steplike (fun _ _ _ hcall => steplike_of_step hcall) hnew h hfew hop

/-- So does the next attempt of a condition. -/
theorem waitForCondition_nextAttempt {config : WaitConditionConfig V}
    (hnew : table (callId ctx name n) = none)
    (h : (Execution.machine token table (ctx.waitForCondition name config)).ReachableBy
      (Execution.Within (Plays (Numbered n) (callId ctx name n))) s)
    (hfew : s.past.length + 1 < 2 ^ 32) (hop : s.loaded (callId ctx name n) = some op) :
    op.nextAttempt.toNat = op.attemptIdx + 1 :=
  nextAttempt_of_steplike (fun _ _ _ hcall => steplike_of_waitForCondition hcall) hnew h hfew hop

end

/-! ## Runs -/

/-- `handle_replay` and `run_step_execution` up to the closure, without a START. -/
def resumed : List (Execution.Label Nat) :=
  List.replicate 4 (.call (.perform failTwice))

/-- The closure is called from a Ready record, and again in the next invocation. -/
def rerunReady : List (Execution.Label Nat) :=
  firstAttempt.map .call ++ [.invoke "t1" .replay] ++ resumed ++ [.invoke "t2" .replay] ++ resumed

/-- The way of a checkpoint whose batch the service rejects, up to its caller's return. -/
def refused (c : Nat) : List CheckpointManager.Label :=
  [.checkTerminating c, .checkAncestor c, .track c, .push c, .maybeStart c c, .takeBatch c,
    .readToken (.worker c), .send (.worker c), .respond (.worker c) (.error (.awsSdk "throttled")),
    .finishBatch c, .notify c, .wake c]

/-- `checkpoint` returns although the batch with the START is rejected. -/
def unrecorded : List (Call.Label Nat) :=
  [.perform failTwice, .perform failTwice, .perform failTwice, .request 0] ++
    (refused 0).map .manager ++ [.resume, .perform failTwice]

def rerunUnrecorded : List (Execution.Label Nat) :=
  unrecorded.map .call ++ [.invoke "t1" .execution] ++ unrecorded.map .call

def played : Execution.State Nat (DurableResult Nat) → Execution.Label Nat → Bool
  | _, .call (.manager (.call _ _ _ _)) => false
  | s, .call (.perform choose) =>
    match s.call.program with
    | .act (.fetchAdd c) _ => (choose (.fetchAdd c)).all (· == 0)
    | _ => true
  | _, _ => true

theorem plays_of_played {s : Execution.State Nat (DurableResult Nat)} {l : Call.Label Nat}
    (h : played s (.call l) = true) : Plays (Numbered 0) "op_0" s.call l := by
  constructor
  · rintro c kind stepId u rfl
    cases h
  · rintro choose e k a rfl hprogram ha
    cases e with
    | fetchAdd c =>
      have hzero : a = 0 := by simpa [played, hprogram, ha] using h
      exact hzero
    | _ => trivial

/-- The runs in which every call of the closure is recorded. -/
def recordedOnly (s : Execution.State Nat (DurableResult Nat)) (l : Execution.Label Nat) : Bool :=
  played s l && match l with
  | .call _ => true
  | .invoke _ _ => s.call.attempts == [] || s.call.backend "op_0" != s.loaded "op_0"

theorem recordedOnly_sound {s : Execution.State Nat (DurableResult Nat)} {l : Execution.Label Nat}
    (h : recordedOnly s l = true) :
    Execution.Recorded (Plays (Numbered 0) "op_0") "op_0" s l := by
  obtain ⟨hplayed, hrecorded⟩ := Bool.and_eq_true_iff.mp h
  cases l with
  | call l => exact plays_of_played hplayed
  | invoke token mode =>
    intro hcalled
    simpa [hcalled] using hrecorded

theorem at_most_once_failingRun : ∃ s : Execution.State Nat (DurableResult Nat),
    s.attempts = [2, 1] ∧ s.attempts.Nodup ∧
      ∀ k ∈ s.call.attempts, k = (standing (s.loaded (callId rootContext none 0))).attempts + 1 := by
  let program : Act Nat (DurableResult Nat) := rootContext.step none userStep failingStep
  let start : Execution.State Nat (DurableResult Nat) :=
    { loaded := fun _ => none, call := .new "t0" (fun _ => none) .execution program }
  have hend : ((Execution.machine "t0" (fun _ => none) program).checkedRun recordedOnly start
      failingRun).map (·.attempts) = some [2, 1] := by decide +kernel
  obtain ⟨s, hrun, hs⟩ := Option.map_eq_some_iff.mp hend
  have hreach : (Execution.machine "t0" (fun _ => none) program).ReachableBy
      (Execution.Recorded (Plays (Numbered 0) "op_0") "op_0") s :=
    Transition.Machine.checkedRun_reachableBy (fun _ _ _ hok => recordedOnly_sound hok) _
      (.init ⟨_, rfl⟩) hrun
  have hnew : OfType .step none := fun _ hop => by cases hop
  exact ⟨s, hs, @at_most_once Nat rootContext none 0 failingStep "t0" (fun _ => none) s rfl hnew
    hreach⟩

/-- The second attempt is made twice without a failing call, the first one where the service
rejects the START. -/
theorem attempt_rerun :
    (∃ s, (Execution.machine "t0" (fun _ => none)
      (rootContext.step none userStep failingStep)).ReachableBy
        (Execution.Within (Plays (Numbered 0) "op_0")) s ∧ s.attempts = [2, 2, 1]) ∧
    (∃ s, (Execution.machine "t0" (fun _ => none)
      (rootContext.step none userStep failingStep)).ReachableBy
        (Execution.Within (Plays (Numbered 0) "op_0")) s ∧ s.attempts = [1, 1]) := by
  let start : Execution.State Nat (DurableResult Nat) :=
    { loaded := fun _ => none
      call := .new "t0" (fun _ => none) .execution (rootContext.step none userStep failingStep) }
  have hruns : ∀ {labels s}, (Execution.machine "t0" (fun _ => none)
      (rootContext.step none userStep failingStep)).checkedRun played start labels = some s →
      (Execution.machine "t0" (fun _ => none)
        (rootContext.step none userStep failingStep)).ReachableBy
          (Execution.Within (Plays (Numbered 0) "op_0")) s := by
    intro labels s hrun
    refine Transition.Machine.checkedRun_reachableBy (fun s l _ hok => ?_) _ (.init ⟨_, rfl⟩) hrun
    cases l with
    | call l => exact plays_of_played hok
    | invoke token mode => trivial
  have hready : ((Execution.machine "t0" (fun _ => none)
      (rootContext.step none userStep failingStep)).checkedRun played start rerunReady).map
        (·.attempts) = some [2, 2, 1] := by decide +kernel
  have hunrecorded : ((Execution.machine "t0" (fun _ => none)
      (rootContext.step none userStep failingStep)).checkedRun played start rerunUnrecorded).map
        (·.attempts) = some [1, 1] := by decide +kernel
  obtain ⟨s, hrun, hs⟩ := Option.map_eq_some_iff.mp hready
  obtain ⟨s', hrun', hs'⟩ := Option.map_eq_some_iff.mp hunrecorded
  exact ⟨⟨s, hruns hrun, hs⟩, s', hruns hrun', hs'⟩

end LambdaDurable
