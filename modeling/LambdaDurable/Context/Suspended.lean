import LambdaDurable.Checkpoint.Due
import LambdaDurable.Context.Await
import LambdaDurable.Context.Executions
import LambdaDurable.Context.Tasks

/-!
# What a suspension rests on

A call that suspends has looked up an operation last. Its record was not final when it was loaded
and no update of its type has been sent, or its START has returned, or its RETRY has.
-/

namespace LambdaDurable

open Effects Call Backend

variable {V I S T : Type}

/-- The type of the operations that a suspension waits for. -/
def TerminationReason.awaitedType : TerminationReason → Option OperationType
  | .retryScheduled => some .step
  | .waitScheduled => some .wait
  | .callbackPending => some .callback
  | .invokePending => some .chainedInvoke
  | _ => none

def ofKind (type : OperationType) (us : List OperationUpdate) : List OperationUpdate :=
  us.filter (·.operationType == type)

inductive Rests (loaded : Table) (type : OperationType) (id : String) (trace : List (Event V)) : Prop
  | loaded {op : Operation} : loaded id = some op → op.status.isTerminal = false →
      (type = .step → op.status = .pending) → ofKind type (sent trace) = [] →
      Rests loaded type id trace
  | started {stepId : String} {u : OperationUpdate} {r : Except DurableError Unit} :
      loaded id = none → isExternal type = true → ofKind type (sent trace) = [u] → u.id = id →
      u.action = .start → ⟨.checkpoint stepId u, r⟩ ∈ trace → Rests loaded type id trace
  | retried {stepId : String} {u : OperationUpdate} {r : Except DurableError Unit}
      {earlier : List (Event V)} : type = .step → trace = ⟨.checkpoint stepId u, r⟩ :: earlier →
      u.id = id → u.action = .retry → Rests loaded type id trace

/-- The program has not suspended. -/
def Unsuspended (trace : List (Event V)) : Prop :=
  ∀ result, ⟨.terminate result, ()⟩ ∈ trace → result.reason.isSuspension = false

/-- What a call may do, with what it has done so far. -/
structure Anchored (loaded : Table) (trace : List (Event V)) (e : Effect V) : Prop where
  last : Unsuspended trace ∨ e = .pending
  closed : e.updates ≠ [] → ∀ v ∈ sent trace, v.action ≠ .retry
  retries : ∀ u ∈ e.updates, u.action = .retry → u.operationType = .step ∧
    loaded.terminal u.id = false ∧ ∀ v ∈ ofKind .step (sent trace), Opening v
  suspends : ∀ result, e = .terminate result → result.reason.isSuspension = true →
    ∃ type id, result.reason.awaitedType = some type ∧ lookedUp trace = some id ∧
      Rests loaded type id trace

/-- The program has neither suspended nor sent a RETRY. -/
structure Live (trace : List (Event V)) : Prop where
  unsuspended : Unsuspended trace
  unretried : ∀ v ∈ sent trace, v.action ≠ .retry

/-- A part of a call, done with updates of one type only. -/
structure Extends (type : OperationType) (base trace : List (Event V)) : Prop where
  suffix : base <:+ trace
  others : ∀ other, other ≠ type → ofKind other (sent trace) = ofKind other (sent base)
  live : Live trace

abbrev Anchors (loaded : Table) (post : List (Event V) → T → Prop) (p : Act V T)
    (trace : List (Event V)) : Prop :=
  p.Meets (traced (fun _ => Answers loaded) (Anchored loaded)) post trace

section

variable {loaded : Table} {type : OperationType} {base trace : List (Event V)} {id : String}
  {post : List (Event V) → T → Prop}

/-! ## Traces -/

theorem ofKind_append (us vs : List OperationUpdate) :
    ofKind type (us ++ vs) = ofKind type us ++ ofKind type vs :=
  List.filter_append ..

theorem Unsuspended.cons {e : Effect V} {a : Answer e} (h : Unsuspended trace)
    (he : ∀ result, e = .terminate result → result.reason.isSuspension = false) :
    Unsuspended (⟨e, a⟩ :: trace) := by
  intro result hmem
  obtain heq | hmem := List.mem_cons.mp hmem
  · exact he result (congrArg Sigma.fst heq).symm
  · exact h result hmem

theorem live_nil : Live ([] : List (Event V)) where
  unsuspended _ hmem := by cases hmem
  unretried _ hv := by cases hv

theorem Live.quiet {e : Effect V} {a : Answer e} (h : Live trace) (he : e.updates = [])
    (hresult : ∀ result, e = .terminate result → result.reason.isSuspension = false) :
    Live (⟨e, a⟩ :: trace) where
  unsuspended := h.unsuspended.cons hresult
  unretried := by
    rw [sent_cons_quiet he]
    exact h.unretried

theorem Live.update {e : Effect V} {a : Answer e} {u : OperationUpdate} (h : Live trace)
    (he : e.updates = [u]) (hu : u.action ≠ .retry) : Live (⟨e, a⟩ :: trace) where
  unsuspended := by
    apply h.unsuspended.cons
    rintro result rfl
    cases he
  unretried := by
    rw [sent, he]
    intro v hv
    obtain hv | hv := List.mem_append.mp hv
    · exact h.unretried v hv
    · rwa [List.mem_singleton.mp hv]

theorem Extends.refl (h : Live trace) : Extends type trace trace :=
  ⟨List.suffix_refl _, fun _ _ => rfl, h⟩

theorem Extends.quiet {e : Effect V} {a : Answer e} (h : Extends type base trace)
    (he : e.updates = []) (hterm : e.isTerminate = false) : Extends type base (⟨e, a⟩ :: trace) where
  suffix := h.suffix.trans (List.suffix_cons _ _)
  others other hother := by
    rw [sent_cons_quiet he]
    exact h.others other hother
  live := by
    apply h.live.quiet he
    rintro result rfl
    cases hterm

theorem Extends.update {e : Effect V} {a : Answer e} {u : OperationUpdate}
    (h : Extends type base trace) (he : e.updates = [u]) (hu : u.action ≠ .retry)
    (htype : u.operationType = type) : Extends type base (⟨e, a⟩ :: trace) where
  suffix := h.suffix.trans (List.suffix_cons _ _)
  others other hother := by
    have hnone : ofKind other [u] = [] := by simp [ofKind, htype, hother.symm]
    rw [sent, he, ofKind_append, hnone, List.append_nil]
    exact h.others other hother
  live := h.live.update he hu

/-! ## Rules -/

theorem Anchored.of_quiet {e : Effect V} (h : Live trace) (he : e.updates = [])
    (hresult : ∀ result, e = .terminate result → result.reason.isSuspension = false) :
    Anchored loaded trace e where
  last := Or.inl h.unsuspended
  closed hsome := absurd he hsome
  retries u hu := by
    rw [he] at hu
    cases hu
  suspends result heq hsuspension := by
    rw [hresult result heq] at hsuspension
    cases hsuspension

theorem Anchored.of_update {e : Effect V} {u : OperationUpdate} (h : Live trace)
    (he : e.updates = [u]) (hretry : u.action = .retry → u.operationType = .step ∧
      loaded.terminal u.id = false ∧ ∀ v ∈ ofKind .step (sent trace), Opening v) :
    Anchored loaded trace e where
  last := Or.inl h.unsuspended
  closed _ := h.unretried
  retries v hv := by
    rw [he] at hv
    obtain rfl := List.mem_singleton.mp hv
    exact hretry
  suspends result heq := by
    subst heq
    cases he

theorem anchors_quiet {e : Effect V} {k : Answer e → Act V T} (he : e.updates = [])
    (hterm : e.isTerminate = false) (h : Live trace)
    (hk : ∀ a, Answers loaded e a → Anchors loaded post (k a) (⟨e, a⟩ :: trace)) :
    Anchors loaded post (.act e k) trace := by
  refine ⟨.of_quiet h he ?_, hk⟩
  rintro result rfl
  cases hterm

theorem anchors_checkpoint {stepId what : String} {u : OperationUpdate}
    {f : Unit → Act V (DurableResult T)} {post : List (Event V) → DurableResult T → Prop}
    (h : Live trace) (hu : u.action ≠ .retry)
    (hf : Anchors loaded post (f ()) (⟨.checkpoint stepId u, .ok ()⟩ :: trace))
    (herror : ∀ e, post trace (.error e)) :
    Anchors loaded post ((checkpoint stepId what u).andThen f) trace := by
  rcases checkpoint_cases (V := V) stepId what u with hact | ⟨e, hret⟩
  · rw [hact]
    refine ⟨.of_update h rfl fun hretry => absurd hretry hu, fun r hr => ?_⟩
    obtain rfl : r = .ok () := hr
    exact hf
  · rw [hret]
    exact herror e

theorem anchors_checkpointQueued {stepId what : String} {u : OperationUpdate}
    {f : Unit → Act V (DurableResult T)} {post : List (Event V) → DurableResult T → Prop}
    (h : Live trace) (hu : u.action ≠ .retry)
    (hf : Anchors loaded post (f ()) (⟨.checkpointQueued stepId u, .ok ()⟩ :: trace))
    (herror : ∀ e, post trace (.error e)) :
    Anchors loaded post ((checkpointQueued stepId what u).andThen f) trace := by
  rcases checkpointQueued_cases (V := V) stepId what u with hact | ⟨e, hret⟩
  · rw [hact]
    refine ⟨.of_update h rfl fun hretry => absurd hretry hu, fun r hr => ?_⟩
    obtain rfl : r = .ok () := hr
    exact hf
  · rw [hret]
    exact herror e

theorem anchors_pending : Anchors loaded post (.act .pending Empty.elim : Act V T) trace := by
  constructor
  · constructor
    · exact Or.inr rfl
    · exact fun hsome => absurd rfl hsome
    · rintro _ ⟨⟩
    · rintro _ ⟨⟩
  · exact fun a => a.elim

theorem anchors_failure (h : Live trace) {result : TerminationResult}
    (hresult : result.reason.isSuspension = false) :
    Anchors loaded post (suspend result : Act V T) trace := by
  refine ⟨.of_quiet h rfl ?_, fun _ _ => anchors_pending⟩
  rintro _ ⟨⟩
  exact hresult

theorem anchors_suspend (h : Unsuspended trace) {result : TerminationResult}
    (htype : result.reason.awaitedType = some type) (hlook : lookedUp trace = some id)
    (hrests : Rests loaded type id trace) :
    Anchors loaded post (suspend result : Act V T) trace := by
  constructor
  · constructor
    · exact Or.inl h
    · exact fun hsome => absurd rfl hsome
    · rintro _ ⟨⟩
    · rintro _ ⟨⟩ -
      exact ⟨type, id, htype, hlook, hrests⟩
  · exact fun _ _ => anchors_pending

theorem anchors_suspend_andThen {post : List (Event V) → DurableResult S → Prop}
    (h : Unsuspended trace) {result : TerminationResult}
    (htype : result.reason.awaitedType = some type) (hlook : lookedUp trace = some id)
    (hrests : Rests loaded type id trace) {f : T → Act V (DurableResult S)} :
    Anchors loaded post ((suspend result : Act V (DurableResult T)).andThen f) trace := by
  rw [suspend_andThen]
  exact anchors_suspend h htype hlook hrests

theorem anchors_safeSerialize {codec : Codec S} {value : Option S} {site : SerdesSite}
    {f : Option String → Act V T} (h : Live trace)
    (hf : ∀ payload, Anchors loaded post (f payload) trace) :
    Anchors loaded post (safeSerialize codec value site >>= f) trace := by
  unfold safeSerialize
  split
  · exact hf _
  · rw [terminateForSerdesFailure, suspend_bind]
    exact anchors_failure h rfl

theorem anchors_safeDeserialize {codec : Codec S} {data : Option String} {site : SerdesSite}
    {f : Option S → Act V T} (h : Live trace)
    (hf : ∀ value, Anchors loaded post (f value) trace) :
    Anchors loaded post (safeDeserialize codec data site >>= f) trace := by
  unfold safeDeserialize
  split
  · exact hf _
  · rw [terminateForSerdesFailure, suspend_bind]
    exact anchors_failure h rfl

/-! ## Steps -/

/-- Effects that send nothing, look nothing up and do not terminate. -/
def Effect.isPassive : Effect V → Bool
  | .getStepData _ | .checkpoint _ _ | .checkpointQueued _ _ | .terminate _ => false
  | _ => true

theorem updates_of_passive {e : Effect V} (h : e.isPassive = true) : e.updates = [] := by
  cases e <;> first | rfl | cases h

theorem isTerminate_of_passive {e : Effect V} (h : e.isPassive = true) : e.isTerminate = false := by
  cases e <;> first | rfl | cases h

theorem lookedUp_of_passive {e : Effect V} {a : Answer e} (h : e.isPassive = true) :
    lookedUp (⟨e, a⟩ :: trace) = lookedUp trace := by
  cases e <;> first | rfl | cases h

/-- A step that has looked its record up and sent STARTs at most. -/
structure Stepping (base : List (Event V)) (id : String) (trace : List (Event V)) : Prop where
  extended : Extends .step base trace
  looked : lookedUp trace = some id
  opening : ∀ v ∈ ofKind .step (sent trace), Opening v

theorem Stepping.passive {e : Effect V} {a : Answer e} (h : Stepping base id trace)
    (he : e.isPassive = true) : Stepping base id (⟨e, a⟩ :: trace) where
  extended := h.extended.quiet (updates_of_passive he) (isTerminate_of_passive he)
  looked := (lookedUp_of_passive he).trans h.looked
  opening := by
    rw [sent_cons_quiet (updates_of_passive he)]
    exact h.opening

theorem Stepping.getStepData {a : Option Operation} (h : Stepping base id trace) :
    Stepping base id (⟨.getStepData id, a⟩ :: trace) where
  extended := h.extended.quiet rfl rfl
  looked := rfl
  opening := by
    rw [sent_cons_quiet rfl]
    exact h.opening

theorem Stepping.start {e : Effect V} {a : Answer e} {u : OperationUpdate}
    (h : Stepping base id trace) (he : e.updates = [u]) (hu : Opening u)
    (htype : u.operationType = .step) (hlook : lookedUp (⟨e, a⟩ :: trace) = lookedUp trace) :
    Stepping base id (⟨e, a⟩ :: trace) where
  extended := by
    refine h.extended.update he ?_ htype
    rw [hu.action]
    rintro ⟨⟩
  looked := hlook.trans h.looked
  opening := by
    rw [sent, he, ofKind_append]
    intro v hv
    obtain hv | hv := List.mem_append.mp hv
    · exact h.opening v hv
    · obtain rfl := List.mem_singleton.mp (List.mem_filter.mp hv).1
      exact hu

theorem anchors_retry {post : List (Event V) → DurableResult T → Prop} (h : Stepping base id trace)
    {stepId what : String} {u : OperationUpdate} (hbuild : u.Buildable) (hu : u.action = .retry)
    (htype : u.operationType = .step) (hid : u.id = id) (hopen : loaded.terminal id = false) :
    Anchors loaded post ((checkpoint stepId what u).andThen fun _ => suspend (.new .retryScheduled))
      trace := by
  rw [checkpoint_of_build hbuild]
  refine ⟨.of_update h.extended.live rfl fun _ => ⟨htype, hid ▸ hopen, h.opening⟩, fun r hr => ?_⟩
  obtain rfl : r = .ok () := hr
  have hlook : lookedUp (⟨.checkpoint stepId u, .ok ()⟩ :: trace) = some id := h.looked
  refine anchors_suspend ?_ rfl hlook (.retried rfl rfl hid hu)
  apply h.extended.live.unsuspended.cons
  rintro _ ⟨⟩

/-- A failed attempt ends the step, with an error if it does not suspend. -/
theorem anchors_decideStep (ctx : ExecutionContext) (name : Option String) (stepId : String)
    (error : BoxError) (attempt : Nat) (h : Stepping base id trace)
    (hopen : loaded.terminal id = false) :
    Anchors loaded (fun trace' r => Extends .step base trace' ∧ ∃ e, r = .error e)
      (.act (.shouldRetry error attempt) fun decision =>
        if decision.shouldRetry then
          (checkpoint stepId "step RETRY"
            (Step.retryUpdate ctx name id error decision.delay)).andThen fun _ =>
              suspend (.new .retryScheduled)
        else
          (checkpoint stepId "step FAIL" (Step.failUpdate ctx name id error)).andThen fun _ =>
            (.ret (.error (.stepFailed stepId attempt error.message)) : Act V (DurableResult T)))
      trace := by
  refine anchors_quiet rfl rfl h.extended.live fun decision _ => ?_
  have h := h.passive (e := .shouldRetry error attempt) (a := decision) rfl
  split
  · exact anchors_retry h (Step.retryUpdate_buildable ..) rfl rfl rfl hopen
  · refine anchors_checkpoint h.extended.live ?_ ?_ fun e => ⟨h.extended, e, rfl⟩
    · rintro ⟨⟩
    · exact ⟨h.extended.update rfl (by rintro ⟨⟩) rfl, _, rfl⟩

theorem anchors_stepReplay (ctx : ExecutionContext) (stepId : String) (name : Option String)
    (semantics : StepSemantics) (codec : Codec T) (h : Stepping base id trace)
    (hnone : ofKind .step (sent trace) = []) :
    Anchors loaded (fun trace' r => Extends .step base trace' ∧
        (r = .ok none → Stepping base id trace' ∧ loaded.terminal id = false))
      (Step.handleReplay ctx (loaded id) stepId id name semantics codec : Act V _) trace := by
  have hended : ∀ r : DurableResult (Option T), r ≠ .ok none → Extends .step base trace ∧
      (r = .ok none → Stepping base id trace ∧ loaded.terminal id = false) :=
    fun r hr => ⟨h.extended, fun heq => absurd heq hr⟩
  unfold Step.handleReplay
  cases hop : loaded id with
  | none => exact ⟨h.extended, fun _ => ⟨h, not_terminal_of_absent hop⟩⟩
  | some op =>
    dsimp only
    split
    · split
      · refine anchors_safeDeserialize h.extended.live fun value => ?_
        cases value with
        | none => exact hended _ (by rintro ⟨⟩)
        | some value => exact hended _ (by rintro ⟨⟩)
      · exact hended _ (by rintro ⟨⟩)
    · exact hended _ (by rintro ⟨⟩)
    · rename_i hpending
      refine anchors_quiet rfl rfl h.extended.live fun a _ => ?_
      have hquiet := h.passive (e := .setMode .execution) (a := a) rfl
      refine anchors_suspend hquiet.extended.live.unsuspended rfl hquiet.looked
        (.loaded hop ?_ (fun _ => hpending) ?_)
      · rw [hpending]
        rfl
      · rwa [sent_cons_quiet rfl]
    · rename_i hstarted
      have hopen : loaded.terminal id = false := not_terminal_of_status hop (by rw [hstarted]; rfl)
      cases semantics with
      | atLeastOncePerRetry => exact ⟨h.extended, fun _ => ⟨h, hopen⟩⟩
      | atMostOncePerRetry =>
        refine anchors_quiet rfl rfl h.extended.live fun a _ => ?_
        have hquiet := h.passive (e := .setMode .execution) (a := a) rfl
        refine (anchors_decideStep ctx name stepId _ _ hquiet hopen).mono ?_
        rintro trace' _ ⟨hextended, e, rfl⟩
        exact ⟨hextended, by rintro ⟨⟩⟩
    · rename_i hsucceeded hfailed hpending hstarted
      refine ⟨h.extended, fun _ => ⟨h, not_terminal_of_status hop ?_⟩⟩
      cases hs : op.status <;> simp_all [OperationStatus.isTerminal]

/-- The closure is a single effect. -/
def Atomic (stepFn : String → Nat → Act V (Except BoxError T)) : Prop :=
  ∀ hashedId attempt, ∃ (e : Effect V) (outcome : Answer e → Except BoxError T),
    e.isPassive = true ∧ stepFn hashedId attempt = .act e fun a => .ret (outcome a)

theorem anchors_runStep (ctx : ExecutionContext) (name : Option String)
    {stepFn : String → Nat → Act V (Except BoxError T)} (hfn : Atomic stepFn) (stepId : String)
    (operation : Option Operation) (semantics : StepSemantics) (codec : Codec T)
    (h : Stepping base id trace) (hopen : loaded.terminal id = false) :
    Anchors loaded (fun trace' _ => Extends .step base trace')
      (Step.runStepExecution ctx name stepFn stepId id operation semantics codec) trace := by
  have hrest : ∀ (attempt : Nat) (trace : List (Event V)), Stepping base id trace →
      Anchors loaded (fun trace' _ => Extends .step base trace') (getMode >>= fun _ =>
        stepFn id attempt >>= fun outcome =>
          Step.finishStep ctx name stepId id attempt codec outcome) trace := by
    intro attempt trace h
    refine anchors_quiet rfl rfl h.extended.live fun mode _ => ?_
    have h := h.passive (e := .getMode) (a := mode) rfl
    obtain ⟨e, outcome, he, hstep⟩ := hfn id attempt
    simp only [hstep, Prog.act_bind, Prog.ret_bind]
    refine anchors_quiet (updates_of_passive he) (isTerminate_of_passive he) h.extended.live
      fun a _ => ?_
    have h := h.passive (a := a) he
    cases outcome a with
    | ok result =>
      refine anchors_safeSerialize h.extended.live fun payload => ?_
      refine anchors_checkpoint h.extended.live (by rintro ⟨⟩) ?_ fun _ => h.extended
      exact h.extended.update rfl (by rintro ⟨⟩) rfl
    | error error =>
      exact (anchors_decideStep ctx name stepId error attempt h hopen).mono fun _ _ hr => hr.1
  have hstart : Opening (Step.update ctx name id .start) := ⟨rfl, rfl, rfl, rfl⟩
  simp only [Step.runStepExecution, setMode_bind]
  refine anchors_quiet rfl rfl h.extended.live fun a _ => ?_
  have h := h.passive (e := .setMode .execution) (a := a) rfl
  split
  · exact hrest _ _ h
  · unfold Step.startStep
    cases semantics with
    | atMostOncePerRetry =>
      refine anchors_checkpoint h.extended.live (by rintro ⟨⟩) ?_ fun _ => h.extended
      exact hrest _ _ (h.start rfl hstart rfl rfl)
    | atLeastOncePerRetry =>
      refine anchors_checkpointQueued h.extended.live (by rintro ⟨⟩) ?_ fun _ => h.extended
      exact hrest _ _ (h.start rfl hstart rfl rfl)

theorem anchors_step (ctx : ExecutionContext) (name : Option String)
    {stepFn : String → Nat → Act V (Except BoxError T)} (hfn : Atomic stepFn) (config : StepConfig T)
    (h : Extends .step base trace) (hnone : ofKind .step (sent trace) = []) :
    Anchors loaded (fun trace' _ => Extends .step base trace') (ctx.step name stepFn config) trace := by
  refine anchors_quiet rfl rfl h.live fun n _ => ?_
  have h := h.quiet (e := .fetchAdd ctx.operationCounter) (a := n) rfl rfl
  refine anchors_quiet rfl rfl h.live fun operation hoperation => ?_
  obtain rfl : operation = loaded (ctx.hashId (ctx.operationId name n)) := hoperation
  have hstepping : Stepping base (ctx.hashId (ctx.operationId name n))
      (⟨.getStepData (ctx.hashId (ctx.operationId name n)),
        loaded (ctx.hashId (ctx.operationId name n))⟩ :: ⟨.fetchAdd ctx.operationCounter, n⟩ :: trace) := by
    refine ⟨h.quiet rfl rfl, rfl, ?_⟩
    rw [sent_cons_quiet rfl, sent_cons_quiet rfl, hnone]
    intro v hv
    cases hv
  refine Prog.Meets.andThen (anchors_stepReplay ctx _ name config.semantics config.codec hstepping ?_)
    ?_ fun _ _ hr => hr.1
  · rwa [sent_cons_quiet rfl, sent_cons_quiet rfl]
  · rintro (_ | value) trace' ⟨hextended, hcontinue⟩
    · obtain ⟨hstepping, hopen⟩ := hcontinue rfl
      exact anchors_runStep ctx name hfn _ _ _ _ hstepping hopen
    · exact hextended

/-! ## Conditions -/

theorem anchors_conditionReplay (ctx : ExecutionContext) (codec : Codec V) (stepId : String)
    (name : Option String) (h : Stepping base id trace) :
    Anchors loaded (fun trace' r => Extends .step base trace' ∧
        (r = .ok none → Stepping base id trace' ∧ loaded.terminal id = false))
      (WaitCondition.handleReplay ctx (loaded id) codec id stepId name) trace := by
  have hended : ∀ r : DurableResult (Option V), r ≠ .ok none → Extends .step base trace ∧
      (r = .ok none → Stepping base id trace ∧ loaded.terminal id = false) :=
    fun r hr => ⟨h.extended, fun heq => absurd heq hr⟩
  unfold WaitCondition.handleReplay
  cases hop : loaded id with
  | none => exact ⟨h.extended, fun _ => ⟨h, not_terminal_of_absent hop⟩⟩
  | some op =>
    dsimp only
    split
    · split
      · refine anchors_safeDeserialize h.extended.live fun value => ?_
        cases value with
        | none => exact hended _ (by rintro ⟨⟩)
        | some value => exact hended _ (by rintro ⟨⟩)
      · exact hended _ (by rintro ⟨⟩)
    · exact hended _ (by rintro ⟨⟩)
    · rename_i hsucceeded hfailed
      refine anchors_quiet rfl rfl h.extended.live fun a _ => ?_
      have h := h.passive (e := .setMode .execution) (a := a) rfl
      refine ⟨h.extended, fun _ => ⟨h, not_terminal_of_status hop ?_⟩⟩
      cases hs : op.status <;> simp_all [OperationStatus.isTerminal]

theorem anchors_decide (ctx : ExecutionContext) (name : Option String)
    (config : WaitConditionConfig V) (stepId : String) (attempt : Nat) (state : V)
    (h : Stepping base id trace) (hopen : loaded.terminal id = false) :
    Anchors loaded (fun trace' _ => Extends .step base trace')
      (WaitCondition.decide ctx name config stepId id attempt state) trace := by
  refine anchors_safeSerialize h.extended.live fun payload => ?_
  refine anchors_quiet rfl rfl h.extended.live fun decision _ => ?_
  have h := h.passive (e := .waitStrategy state attempt) (a := decision) rfl
  cases decision with
  | stop =>
    refine anchors_checkpoint h.extended.live (by rintro ⟨⟩) ?_ fun _ => h.extended
    exact h.extended.update rfl (by rintro ⟨⟩) rfl
  | «continue» delay =>
    exact anchors_retry h (WaitCondition.retryUpdate_buildable ..) rfl rfl rfl hopen

theorem anchors_runAttempt (ctx : ExecutionContext) (name : Option String)
    (config : WaitConditionConfig V) (stepId : String) (attempt : Nat) (state : V)
    (h : Stepping base id trace) (hopen : loaded.terminal id = false) :
    Anchors loaded (fun trace' _ => Extends .step base trace')
      (WaitCondition.runAttempt ctx name config stepId id attempt state) trace := by
  have hrest : ∀ (trace : List (Event V))
      (f : Answer (.checkFn state id : Effect V) → Act V (DurableResult V)), Stepping base id trace →
      (∀ newState, f (.ok newState) = WaitCondition.decide ctx name config stepId id attempt newState) →
      (∀ e, ∃ r, f (.error e) = .ret r) → Anchors loaded (fun trace' _ => Extends .step base trace')
        (getMode >>= fun _ => .act (.checkFn state id) f) trace := by
    intro trace f h hok hfail
    refine anchors_quiet rfl rfl h.extended.live fun mode _ => ?_
    have h := h.passive (e := .getMode) (a := mode) rfl
    refine anchors_quiet rfl rfl h.extended.live fun outcome _ => ?_
    have h := h.passive (e := .checkFn state id) (a := outcome) rfl
    cases outcome with
    | ok newState =>
      rw [hok]
      exact anchors_decide ctx name config stepId attempt newState h hopen
    | error e =>
      obtain ⟨r, hr⟩ := hfail e
      rw [hr]
      exact h.extended
  unfold WaitCondition.runAttempt
  split
  · refine anchors_checkpoint h.extended.live (by rintro ⟨⟩) ?_ fun _ => h.extended
    exact h.extended.update rfl (by rintro ⟨⟩) rfl
  · simp only [WaitCondition.runCheck, getStepData_bind]
    refine anchors_quiet rfl rfl h.extended.live fun operation _ => ?_
    have h := h.getStepData (a := operation)
    cases operation with
    | none =>
      refine anchors_checkpoint h.extended.live (by rintro ⟨⟩) ?_ fun _ => h.extended
      exact hrest _ _ (h.start rfl ⟨rfl, rfl, rfl, rfl⟩ rfl rfl) (fun _ => rfl) fun _ => ⟨_, rfl⟩
    | some op => exact hrest _ _ h (fun _ => rfl) fun _ => ⟨_, rfl⟩

theorem anchors_waitForCondition (ctx : ExecutionContext) (name : Option String)
    (config : WaitConditionConfig V) :
    Anchors loaded (fun trace _ => Live trace) (ctx.waitForCondition name config) [] := by
  refine anchors_quiet rfl rfl live_nil fun n _ => ?_
  have h : Extends .step [] [⟨Effect.fetchAdd ctx.operationCounter, n⟩] :=
    (Extends.refl live_nil).quiet rfl rfl
  refine anchors_quiet rfl rfl h.live fun operation hoperation => ?_
  obtain rfl : operation = loaded (ctx.hashId (ctx.operationId name n)) := hoperation
  have hstepping : Stepping [] (ctx.hashId (ctx.operationId name n))
      [⟨Effect.getStepData (ctx.hashId (ctx.operationId name n)),
        loaded (ctx.hashId (ctx.operationId name n))⟩, ⟨Effect.fetchAdd ctx.operationCounter, n⟩] :=
    ⟨h.quiet rfl rfl, rfl, by rintro v ⟨⟩⟩
  refine Prog.Meets.andThen (anchors_conditionReplay ctx config.codec _ name hstepping) ?_
    fun _ _ hr => hr.1.live
  rintro (_ | value) trace ⟨hextended, hcontinue⟩
  · obtain ⟨h, hopen⟩ := hcontinue rfl
    change Anchors _ _ (WaitCondition.runWaitCondition ..) _
    simp only [WaitCondition.runWaitCondition, getStepData_bind]
    refine anchors_quiet rfl rfl h.extended.live fun operation _ => ?_
    have h := h.getStepData (a := operation)
    have hrest : ∀ state, Anchors loaded (fun trace _ => Live trace)
        (getStepData (ctx.hashId (ctx.operationId name n)) >>= fun stored =>
          WaitCondition.runAttempt ctx name config (ctx.operationId name n)
            (ctx.hashId (ctx.operationId name n)) ((stored.map (·.attemptIdx)).getD 0 + 1) state)
        (⟨.getStepData (ctx.hashId (ctx.operationId name n)), operation⟩ :: trace) := by
      intro state
      refine anchors_quiet rfl rfl h.extended.live fun stored _ => ?_
      refine (anchors_runAttempt ctx name config _ _ state (h.getStepData (a := stored)) hopen).mono ?_
      exact fun _ _ hextended => hextended.live
    unfold WaitCondition.currentState
    split
    · rw [Prog.bind_assoc]
      exact anchors_safeDeserialize h.extended.live fun value => hrest _
    · exact hrest _
  · exact hextended.live

/-! ## Waits, callbacks and invokes -/

theorem anchors_wait (ctx : ExecutionContext) (name : Option String) (duration : Duration) :
    Anchors loaded (fun trace _ => Live trace) (ctx.wait name duration : Act V _) [] := by
  refine anchors_quiet rfl rfl live_nil fun n _ => ?_
  have h : Extends .wait [] [⟨Effect.fetchAdd ctx.operationCounter, n⟩] :=
    (Extends.refl live_nil).quiet rfl rfl
  simp only [Wait.runWait, getStepData_bind, setMode_bind]
  split
  · exact h.live
  · refine anchors_quiet rfl rfl h.live fun operation hoperation => ?_
    obtain rfl : operation = loaded (ctx.hashId (ctx.operationId name n)) := hoperation
    have h := h.quiet (e := .getStepData (ctx.hashId (ctx.operationId name n)))
      (a := loaded (ctx.hashId (ctx.operationId name n))) rfl rfl
    cases hop : loaded (ctx.hashId (ctx.operationId name n)) with
    | some op =>
      rw [hop] at h
      dsimp only
      split
      · exact h.live
      · exact h.live
      · rename_i hsucceeded hfailed
        refine anchors_quiet rfl rfl h.live fun a _ => ?_
        refine anchors_suspend (h.quiet rfl rfl).live.unsuspended rfl rfl
          (.loaded hop ?_ (by rintro ⟨⟩) rfl)
        cases hs : op.status <;> simp_all [OperationStatus.isTerminal]
    | none =>
      rw [hop] at h
      refine anchors_checkpoint h.live (by rintro ⟨⟩) ?_ fun _ => h.live
      have h := h.update (e := .checkpoint (ctx.operationId name n)
        (Wait.startUpdate ctx name (ctx.hashId (ctx.operationId name n)) duration)) (a := .ok ())
        rfl (by rintro ⟨⟩) rfl
      refine anchors_quiet rfl rfl h.live fun stored hstored => ?_
      obtain rfl : stored = loaded (ctx.hashId (ctx.operationId name n)) := hstored
      simp only [hop, Option.map_none]
      have h := h.quiet (e := .getStepData (ctx.hashId (ctx.operationId name n))) (a := none) rfl rfl
      refine anchors_quiet rfl rfl h.live fun a _ => ?_
      refine anchors_suspend (h.quiet rfl rfl).live.unsuspended rfl rfl
        (.started hop rfl rfl rfl rfl
          (List.mem_cons_of_mem _ (List.mem_cons_of_mem _ List.mem_cons_self)))

theorem anchors_invokeOutcome {ctx : ExecutionContext} {op : Operation} {codec : Codec T}
    {hashedId functionId : String} {name : Option String}
    {finished : Act V (DurableResult (Option T))}
    (hfinished : Invoke.outcome ctx op codec hashedId name functionId = some finished)
    (h : Live trace) {f : Option T → Act V (DurableResult S)}
    (hf : ∀ value, Anchors loaded (fun trace _ => Live trace) (f (some value)) trace) :
    Anchors loaded (fun trace _ => Live trace) (finished.andThen f) trace := by
  unfold Invoke.outcome at hfinished
  split at hfinished
  · obtain rfl := Option.some.inj hfinished
    split
    · rw [Prog.andThen, Prog.bind_assoc]
      refine anchors_safeDeserialize h fun value => ?_
      cases value with
      | some value => exact hf value
      | none => exact h
    · exact h
  · obtain rfl := Option.some.inj hfinished
    exact h
  · cases hfinished

theorem anchors_invoke (ctx : ExecutionContext) (name : Option String) (functionId : String)
    (input : Option I) (config : InvokeConfig I T) :
    Anchors loaded (fun trace _ => Live trace)
      (ctx.invokeWithConfig name functionId input config : Act V _) [] := by
  refine anchors_quiet rfl rfl live_nil fun n _ => ?_
  have h : Extends .chainedInvoke [] [⟨Effect.fetchAdd ctx.operationCounter, n⟩] :=
    (Extends.refl live_nil).quiet rfl rfl
  refine anchors_quiet rfl rfl h.live fun operation hoperation => ?_
  obtain rfl : operation = loaded (ctx.hashId (ctx.operationId name n)) := hoperation
  have h := h.quiet (e := .getStepData (ctx.hashId (ctx.operationId name n)))
    (a := loaded (ctx.hashId (ctx.operationId name n))) rfl rfl
  change Anchors _ _ (Invoke.body ctx name functionId input config _ _) _
  cases hop : loaded (ctx.hashId (ctx.operationId name n)) with
  | none =>
    rw [hop] at h
    refine anchors_safeSerialize h.live fun payload => ?_
    refine anchors_checkpoint h.live (by rintro ⟨⟩) ?_ fun _ => h.live
    refine anchors_suspend (h.update rfl (by rintro ⟨⟩) rfl).live.unsuspended rfl rfl
      (.started hop rfl rfl rfl rfl List.mem_cons_self)
  | some op =>
    rw [hop] at h
    simp only [Invoke.body, Invoke.handleReplay, getStepData_bind, setMode_bind]
    split
    · rename_i hfinished
      exact anchors_invokeOutcome hfinished h.live fun _ => h.live
    · rename_i hunfinished
      rw [Prog.act_andThen]
      refine anchors_quiet rfl rfl h.live fun forced _ => ?_
      have h := h.quiet (e := .forceCheckpoint) (a := forced) rfl rfl
      refine anchors_quiet rfl rfl h.live fun refreshed hrefreshed => ?_
      obtain rfl : refreshed = loaded (ctx.hashId (ctx.operationId name n)) := hrefreshed
      have h := h.quiet (e := .getStepData (ctx.hashId (ctx.operationId name n)))
        (a := loaded (ctx.hashId (ctx.operationId name n))) rfl rfl
      rw [hop] at h
      simp only [hop, Option.bind_some, hunfinished]
      refine anchors_quiet rfl rfl h.live fun a _ => ?_
      refine anchors_suspend_andThen (h.quiet rfl rfl).live.unsuspended rfl rfl ?_
      exact .loaded hop (invoke_outcome_none hunfinished) (by rintro ⟨⟩) rfl

/-- The callback is on record, or its START is the only one of its type. -/
inductive Created (loaded : Table) (id : String) (trace : List (Event V)) : Prop
  | recorded {op : Operation} : loaded id = some op → ofKind .callback (sent trace) = [] →
      Created loaded id trace
  | started {stepId : String} {u : OperationUpdate} {r : Except DurableError Unit} :
      loaded id = none → ofKind .callback (sent trace) = [u] → u.id = id → u.action = .start →
      ⟨.checkpoint stepId u, r⟩ ∈ trace → Created loaded id trace

theorem Created.extends (h : Created loaded id base) (htype : type ≠ .callback)
    (hextends : Extends type base trace) : Created loaded id trace := by
  have hsame := hextends.others .callback htype.symm
  cases h with
  | recorded hop hnone => exact .recorded hop (hsame.trans hnone)
  | started hop hstart hid haction hmem =>
    exact .started hop (hsame.trans hstart) hid haction (hextends.suffix.subset hmem)

theorem Created.quiet {e : Effect V} {a : Answer e} (h : Created loaded id trace)
    (he : e.updates = []) : Created loaded id (⟨e, a⟩ :: trace) := by
  have hsame : sent (⟨e, a⟩ :: trace) = sent trace := sent_cons_quiet he
  cases h with
  | recorded hop hnone => exact .recorded hop (hsame ▸ hnone)
  | started hop hstart hid haction hmem =>
    exact .started hop (hsame ▸ hstart) hid haction (List.mem_cons_of_mem _ hmem)

theorem Created.rests (h : Created loaded id trace) (hopen : loaded.terminal id = false) :
    Rests loaded .callback id trace := by
  cases h with
  | recorded hop hnone =>
    refine .loaded hop ?_ (by rintro ⟨⟩) hnone
    simpa [Table.terminal, hop] using hopen
  | started hop hstart hid haction hmem => exact .started hop rfl hstart hid haction hmem

/-- The callback of the handle is there. -/
def Creates (loaded : Table) (base trace : List (Event V)) (r : DurableResult (CallbackHandle T)) :
    Prop :=
  Extends .callback base trace ∧ ∀ handle, r = .ok handle → Created loaded handle.hashedId trace

theorem anchors_createCallback (ctx : ExecutionContext) (name : Option String)
    (config : Option (CallbackConfig T)) (codec : Codec T) (h : Extends .callback base trace)
    (hnone : ofKind .callback (sent trace) = []) :
    Anchors loaded (Creates loaded base) (ctx.createCallback name config codec : Act V _) trace := by
  simp only [ExecutionContext.createCallback, nextOperationId_bind, getStepData_bind]
  refine anchors_quiet rfl rfl h.live fun n _ => ?_
  have h := h.quiet (e := .fetchAdd ctx.operationCounter) (a := n) rfl rfl
  refine anchors_quiet rfl rfl h.live fun operation hoperation => ?_
  have h := h.quiet (e := .getStepData (ctx.hashId (ctx.operationId name n))) (a := operation) rfl rfl
  have hnone : ofKind .callback (sent (⟨Effect.getStepData (ctx.hashId (ctx.operationId name n)),
      operation⟩ :: ⟨Effect.fetchAdd ctx.operationCounter, n⟩ :: trace)) = [] := by
    rwa [sent_cons_quiet rfl, sent_cons_quiet rfl]
  have hrest : ∀ trace' : List (Event V), Extends .callback base trace' →
      Created loaded (ctx.hashId (ctx.operationId name n)) trace' →
      Anchors loaded (Creates loaded base)
        (getStepData (ctx.hashId (ctx.operationId name n)) >>= fun stored =>
          .ret (.ok ⟨(stored.bind fun op => op.callbackDetails.bind (·.callbackId)).getD
            s!"{ctx.durableExecutionArn}:{ctx.hashId (ctx.operationId name n)}",
            ctx.operationId name n, ctx.hashId (ctx.operationId name n), ctx, codec⟩)) trace' := by
    intro trace' h hcreated
    refine anchors_quiet rfl rfl h.live fun stored _ => ⟨h.quiet rfl rfl, ?_⟩
    rintro _ ⟨⟩
    exact hcreated.quiet rfl
  cases operation with
  | none =>
    refine anchors_checkpoint h.live (by rintro ⟨⟩) ?_ fun e => ⟨h, by rintro _ ⟨⟩⟩
    apply hrest _ (h.update rfl (by rintro ⟨⟩) rfl)
    refine .started hoperation.symm ?_ rfl rfl List.mem_cons_self
    rw [sent, ofKind_append, hnone]
    rfl
  | some op => exact hrest _ h (.recorded hoperation.symm hnone)

theorem anchors_callbackOutcome {op : Operation} {stepId : String}
    {read : String → Act V (Option T)} {finished : Act V (DurableResult T)}
    (hfinished : Callback.outcome op stepId read = some finished) (h : Live trace)
    (hread : ∀ payload (f : Option T → Act V (DurableResult T)),
      (∀ value, Anchors loaded (fun trace _ => Live trace) (f value) trace) →
      Anchors loaded (fun trace _ => Live trace) (read payload >>= f) trace) :
    Anchors loaded (fun trace _ => Live trace) finished trace := by
  unfold Callback.outcome at hfinished
  split at hfinished
  · obtain rfl := Option.some.inj hfinished
    split
    · apply hread
      rintro (_ | value) <;> exact h
    · exact h
  · obtain rfl := Option.some.inj hfinished
    exact h
  · cases hfinished

theorem anchors_await (handle : CallbackHandle S) {read : String → Act V (Option T)}
    (hcreated : Created loaded handle.hashedId trace) (h : Live trace)
    (hread : ∀ payload (f : Option T → Act V (DurableResult T)) (trace : List (Event V)), Live trace →
      (∀ value, Anchors loaded (fun trace _ => Live trace) (f value) trace) →
      Anchors loaded (fun trace _ => Live trace) (read payload >>= f) trace) :
    Anchors loaded (fun trace _ => Live trace) (Callback.await handle read) trace := by
  simp only [Callback.await, getStepData_bind]
  refine anchors_quiet rfl rfl h fun operation hoperation => ?_
  obtain rfl : operation = loaded handle.hashedId := hoperation
  have h := h.quiet (e := .getStepData handle.hashedId) (a := loaded handle.hashedId) rfl
    (by rintro _ ⟨⟩)
  have hcreated := hcreated.quiet (e := .getStepData handle.hashedId) (a := loaded handle.hashedId) rfl
  split
  · rename_i hfinished
    obtain ⟨op, -, hout⟩ := Option.bind_eq_some_iff.mp hfinished
    exact anchors_callbackOutcome hout h fun payload f hf => hread payload f _ h hf
  · rename_i hunfinished
    refine anchors_quiet rfl rfl h fun a _ => ?_
    refine anchors_suspend (h.quiet rfl (by rintro _ ⟨⟩)).unsuspended rfl rfl
      ((hcreated.quiet rfl).rests ?_)
    cases hop : loaded handle.hashedId with
    | none => exact not_terminal_of_absent hop
    | some op =>
      rw [hop] at hunfinished
      exact not_terminal_of_status hop (callback_outcome_none hunfinished)

end

end LambdaDurable
