import LambdaDurable.Context.Ledger
import LambdaDurable.Context.Operations
import LambdaDurable.Context.Pending

/-!
# In which order a call sends the updates of its operation

No update of an operation follows a final one, and a call that has to return the outcome
of user code returns once a final update is acknowledged, unless it found a final record.
-/

namespace LambdaDurable

open Effects Call Backend

variable {V I T S : Type}

/-- User code failed: a closure returned an error, or a child task did or panicked. -/
def Event.isUserError : Event V → Bool
  | ⟨.stepFn _ _, .error _⟩ | ⟨.submitter _ _, .error _⟩ | ⟨.checkFn _ _, .error _⟩
  | ⟨.contextFn _ _, .error _⟩ | ⟨.joinNext, .error _⟩ | ⟨.joinNext, .ok (_, .error _)⟩ => true
  | _ => false

/-- The answers that skip the final update: a failed check and a failed join. -/
def skipsRecord : (e : Effect V) → Answer e → Bool
  | .checkFn _ _, .error _ => true
  | .joinNext, .error _ => true
  | _, _ => false

/-- User code has failed. -/
def Failing (trace : List (Event V)) : Prop := ∃ event ∈ trace, event.isUserError = true

/-- No final update of the operation has been sent. -/
def Unsettled (id : String) (trace : List (Event V)) : Prop :=
  ∀ u ∈ naming id (sent trace), u.action.isTerminal = false

/-- Nor has user code failed. -/
def Fresh (id : String) (trace : List (Event V)) : Prop := Unsettled id trace ∧ ¬ Failing trace

/-- All final updates of the operation agree. -/
def Uniform (id : String) (action : OperationAction) (trace : List (Event V)) : Prop :=
  ∀ u ∈ naming id (sent trace), u.action.isTerminal = true → u.action = action

/-- The record was final at the start, or a final update has been acknowledged. -/
def Recorded (loaded : Table) (id : String) (trace : List (Event V)) : Prop :=
  loaded.terminal id = true ∨ ∃ stepId u r, ⟨.checkpoint stepId u, r⟩ ∈ trace ∧ u.id = id ∧
    u.action.isTerminal = true ∧ isExternal u.operationType = false

/-- A value goes with SUCCEED and an error of user code with FAIL. -/
def Consistent (id : String) (trace : List (Event V)) : DurableResult T → Prop
  | .ok _ => Uniform id .succeed trace
  | .error _ => Failing trace → Uniform id .fail trace

/-- A value comes from user code that has not failed. -/
def Clean (trace : List (Event V)) (r : DurableResult T) : Prop :=
  ∀ v, r = .ok v → ¬ Failing trace

/-- A result that is recorded if it has to be. -/
def Accounted (loaded : Table) (id i : String) (trace : List (Event V)) (r : DurableResult T) : Prop :=
  Consistent id trace r ∧ ((∃ v, r = .ok v) ∨ Failing trace → Recorded loaded i trace)

/-- The result of an operation with one closure. -/
def Concluded (loaded : Table) (id i : String) (trace : List (Event V)) (r : DurableResult T) : Prop :=
  Accounted loaded id i trace r ∧ Clean trace r

/-- A program that sends the updates of the operation `id` in order, in the runs in which
no failed check or join occurs. -/
def Orders (loaded : Table) (n : Nat) (id : String) (q : List (Event V) → T → Prop)
    (p : Act V T) (trace : List (Event V)) : Prop :=
  p.Meets (traced (fun trace e a => Drawing loaded n trace e a ∧ skipsRecord e a = false)
    fun trace e => Orderly (naming id (sent trace ++ e.updates)))
    (fun trace a => Orderly (naming id (sent trace)) ∧ q trace a) trace

section

variable {loaded : Table} {n : Nat} {id i : String} {trace : List (Event V)}
  {q : List (Event V) → T → Prop}

theorem Unsettled.orderly (h : Unsettled id trace) : Orderly (naming id (sent trace)) :=
  List.pairwise_iff_forall_sublist.mpr fun {u v} hsub hu => by
    rw [h u (hsub.subset List.mem_cons_self)] at hu
    cases hu

theorem Unsettled.quiet {e : Effect V} {a : Answer e} (h : Unsettled id trace)
    (he : e.updates = []) : Unsettled id (⟨e, a⟩ :: trace) := by
  rwa [Unsettled, sent, he, List.append_nil]

theorem Unsettled.cons {e : Effect V} {a : Answer e} (h : Unsettled id trace)
    (he : ∀ u ∈ e.updates, u.action.isTerminal = false) : Unsettled id (⟨e, a⟩ :: trace) := by
  intro u hu
  rw [sent, naming_append] at hu
  obtain hu | hu := List.mem_append.mp hu
  · exact h u hu
  · exact he u (List.mem_filter.mp hu).1

theorem orderly_snoc {us : List OperationUpdate} (h : Orderly (naming id us)) {u : OperationUpdate}
    (hu : u.action.isTerminal = true ∨ ∀ v ∈ naming id us, v.action.isTerminal = false) :
    Orderly (naming id (us ++ [u])) := by
  rw [naming_append]
  refine List.pairwise_append.mpr ⟨h, ?_, fun v hv w hw hvfinal => ?_⟩
  · exact List.Pairwise.filter _ (List.pairwise_singleton _ _)
  · obtain rfl : w = u := List.mem_singleton.mp (List.mem_filter.mp hw).1
    obtain hu | hu := hu
    · exact hu
    · rw [hu v hv] at hvfinal
      cases hvfinal

theorem orders_ret {a : T} (h : Orderly (naming id (sent trace))) (ha : q trace a) :
    Orders loaded n id q (.ret a) trace := ⟨h, ha⟩

/-- An effect that sends nothing. -/
theorem orders_act {e : Effect V} {k : Answer e → Act V T} (he : e.updates = [])
    (h : Orderly (naming id (sent trace)))
    (hk : ∀ a, Drawing loaded n trace e a → skipsRecord e a = false →
      Orderly (naming id (sent (⟨e, a⟩ :: trace))) → Orders loaded n id q (k a) (⟨e, a⟩ :: trace)) :
    Orders loaded n id q (.act e k) trace := by
  have hsame : sent trace ++ e.updates = sent trace := by rw [he, List.append_nil]
  refine ⟨by rwa [← hsame] at h, fun a ha => hk a ha.1 ha.2 ?_⟩
  rw [sent, hsame]
  exact h

theorem orders_bind {p : Act V S} {f : S → Act V T} {m : List (Event V) → S → Prop}
    (h : Orders loaded n id m p trace)
    (hf : ∀ a trace, Orderly (naming id (sent trace)) → m trace a →
      Orders loaded n id q (f a) trace) : Orders loaded n id q (p >>= f) trace :=
  Prog.Meets.bind h fun a trace ha => hf a trace ha.1 ha.2

theorem orders_suspend {result : TerminationResult} (h : Orderly (naming id (sent trace))) :
    Orders loaded n id q (suspend result : Act V T) trace :=
  orders_act rfl h fun _ _ _ h => orders_act rfl h fun a => a.elim

theorem Orders.mono {q' : List (Event V) → T → Prop} {p : Act V T}
    (h : Orders loaded n id q p trace) (hpost : ∀ trace a, q trace a → q' trace a) :
    Orders loaded n id q' p trace :=
  Prog.Meets.mono (fun trace a ha => ⟨ha.1, hpost trace a ha.2⟩) h

theorem Failing.of_cons {e : Effect V} {a : Answer e} (h : Failing (⟨e, a⟩ :: trace))
    (ha : Event.isUserError ⟨e, a⟩ = false) : Failing trace := by
  obtain ⟨event, hevent, herror⟩ := h
  obtain rfl | hevent := List.mem_cons.mp hevent
  · rw [ha] at herror
    cases herror
  · exact ⟨event, hevent, herror⟩

theorem Unsettled.uniform (h : Unsettled id trace) (action : OperationAction) :
    Uniform id action trace := by
  intro u hu hfinal
  rw [h u hu] at hfinal
  cases hfinal

theorem Unsettled.consistent (h : Unsettled id trace) (r : DurableResult T) :
    Consistent id trace r := by
  cases r with
  | ok v => exact h.uniform .succeed
  | error e => exact fun _ => h.uniform .fail

theorem Fresh.orderly (h : Fresh id trace) : Orderly (naming id (sent trace)) := h.1.orderly

theorem Fresh.cons {e : Effect V} {a : Answer e} (h : Fresh id trace)
    (he : ∀ u ∈ e.updates, u.action.isTerminal = false)
    (ha : Event.isUserError ⟨e, a⟩ = false) : Fresh id (⟨e, a⟩ :: trace) := by
  exact ⟨h.1.cons he, fun hfailing => h.2 (hfailing.of_cons ha)⟩

theorem Fresh.quiet {e : Effect V} {a : Answer e} (h : Fresh id trace) (he : e.updates = [])
    (ha : Event.isUserError ⟨e, a⟩ = false) : Fresh id (⟨e, a⟩ :: trace) := by
  refine h.cons (fun u hu => ?_) ha
  rw [he] at hu
  cases hu

theorem fresh_nil : Fresh id ([] : List (Event V)) :=
  ⟨fun _ hu => (List.not_mem_nil hu).elim, fun ⟨_, hevent, _⟩ => (List.not_mem_nil hevent).elim⟩

theorem concluded_error (h : ¬ Failing trace) (e : DurableError) :
    Concluded loaded id i trace (.error e : DurableResult T) := by
  refine ⟨⟨fun hfailing => absurd hfailing h, ?_⟩, nofun⟩
  rintro (⟨v, ⟨⟩⟩ | hfailing)
  exact absurd hfailing h

theorem Fresh.concluded (h : Fresh id trace) (hterm : loaded.terminal i = true)
    (r : DurableResult T) : Concluded loaded id i trace r :=
  ⟨⟨h.1.consistent r, fun _ => Or.inl hterm⟩, fun _ _ => h.2⟩

theorem Accounted.error {e : DurableError}
    (h : Accounted loaded id i trace (.error e : DurableResult S)) :
    Accounted loaded id i trace (.error e : DurableResult T) := by
  refine ⟨h.1, ?_⟩
  rintro (⟨v, ⟨⟩⟩ | hfailing)
  exact h.2 (Or.inr hfailing)

theorem Concluded.error {e : DurableError}
    (h : Concluded loaded id i trace (.error e : DurableResult S)) :
    Concluded loaded id i trace (.error e : DurableResult T) :=
  ⟨h.1.error, nofun⟩

theorem orders_andThen {p : Act V (DurableResult S)} {f : S → Act V (DurableResult T)}
    {m : List (Event V) → DurableResult S → Prop}
    {q : List (Event V) → DurableResult T → Prop} (h : Orders loaded n id m p trace)
    (hok : ∀ a trace, Orderly (naming id (sent trace)) → m trace (.ok a) →
      Orders loaded n id q (f a) trace)
    (herror : ∀ e trace, m trace (.error e) → q trace (.error e)) :
    Orders loaded n id q (p.andThen f) trace := by
  refine orders_bind h fun r trace horder hr => ?_
  cases r with
  | ok a => exact hok a trace horder hr
  | error e => exact orders_ret horder (herror e trace hr)

theorem orders_checkpoint {stepId what : String} {u : OperationUpdate}
    (hu : u.action.isTerminal = false) (h : Fresh id trace) :
    Orders loaded n id (fun trace _ => Fresh id trace) (checkpoint stepId what u) trace := by
  obtain heq | ⟨e, heq⟩ := checkpoint_cases (V := V) stepId what u
  · rw [heq]
    have hfresh : ∀ r, Fresh id (⟨.checkpoint stepId u, r⟩ :: trace) := fun r =>
      h.cons (fun v hv => by rwa [List.mem_singleton.mp hv]) rfl
    exact ⟨orderly_snoc h.orderly (Or.inr h.1), fun r _ => ⟨(hfresh r).orderly, hfresh r⟩⟩
  · rw [heq]
    exact orders_ret h.orderly h

theorem orders_checkpointQueued {stepId what : String} {u : OperationUpdate}
    (hu : u.action.isTerminal = false) (h : Fresh id trace) :
    Orders loaded n id (fun trace _ => Fresh id trace) (checkpointQueued stepId what u) trace := by
  obtain heq | ⟨e, heq⟩ := checkpointQueued_cases (V := V) stepId what u
  · rw [heq]
    have hfresh : ∀ r, Fresh id (⟨.checkpointQueued stepId u, r⟩ :: trace) := fun r =>
      h.cons (fun v hv => by rwa [List.mem_singleton.mp hv]) rfl
    exact ⟨orderly_snoc h.orderly (Or.inr h.1), fun r _ => ⟨(hfresh r).orderly, hfresh r⟩⟩
  · rw [heq]
    exact orders_ret h.orderly h

theorem Uniform.quiet {action : OperationAction} {e : Effect V} {a : Answer e}
    (h : Uniform id action trace) (he : e.updates = []) : Uniform id action (⟨e, a⟩ :: trace) := by
  rwa [Uniform, sent, he, List.append_nil]

theorem Uniform.snoc {stepId : String} {u : OperationUpdate} {r : Except DurableError Unit}
    (h : Uniform id u.action trace) : Uniform id u.action (⟨.checkpoint stepId u, r⟩ :: trace) := by
  intro v hv hfinal
  rw [sent, naming_append] at hv
  obtain hv | hv := List.mem_append.mp hv
  · exact h v hv hfinal
  · rw [List.mem_singleton.mp (List.mem_filter.mp hv).1]

theorem orders_final {q : List (Event V) → DurableResult T → Prop} {stepId what : String}
    {u : OperationUpdate} {r : DurableResult T} (hbuild : u.Buildable)
    (hu : u.action.isTerminal = true) (htype : isExternal u.operationType = false)
    (h : Orderly (naming id (sent trace))) (huniform : Uniform id u.action trace)
    (hq : ∀ trace', (Failing trace' → Failing trace) → Recorded loaded u.id trace' →
      Uniform id u.action trace' → q trace' r) :
    Orders loaded n id q ((checkpoint stepId what u).andThen fun _ => .ret r) trace := by
  rw [checkpoint_of_build hbuild]
  have horder := orderly_snoc (u := u) h (Or.inl hu)
  refine ⟨horder, fun a ha => ?_⟩
  obtain rfl : a = .ok () := ha.1.1
  exact ⟨horder, hq _ (fun hfailing => hfailing.of_cons rfl)
    (Or.inr ⟨stepId, u, .ok (), List.mem_cons_self, rfl, hu, htype⟩) huniform.snoc⟩

theorem orders_succeed {stepId what : String} {u : OperationUpdate} {v : T} (hbuild : u.Buildable)
    (hu : u.action = .succeed) (hid : u.id = i) (htype : isExternal u.operationType = false)
    (h : Orderly (naming id (sent trace))) (huniform : Uniform id .succeed trace) :
    Orders loaded n id (fun trace' r => Accounted loaded id i trace' r ∧
        (¬ Failing trace → Clean trace' r))
      ((checkpoint stepId what u).andThen fun _ => .ret (.ok v)) trace := by
  refine orders_final hbuild (by rw [hu]; rfl) htype h (by rwa [hu]) fun trace' hsame hr hall => ?_
  rw [hid] at hr
  rw [hu] at hall
  exact ⟨⟨hall, fun _ => hr⟩, fun hclean _ _ hfailing => hclean (hsame hfailing)⟩

theorem orders_fail {stepId what : String} {u : OperationUpdate} {e : DurableError}
    (hbuild : u.Buildable) (hu : u.action = .fail) (hid : u.id = i)
    (htype : isExternal u.operationType = false) (h : Orderly (naming id (sent trace)))
    (huniform : Uniform id .fail trace) :
    Orders loaded n id (Concluded loaded id i)
      ((checkpoint stepId what u).andThen fun _ => .ret (.error e : DurableResult T)) trace := by
  refine orders_final hbuild (by rw [hu]; rfl) htype h (by rwa [hu]) fun trace' _ hr hall => ?_
  rw [hid] at hr
  rw [hu] at hall
  exact ⟨⟨fun _ => hall, fun _ => hr⟩, nofun⟩

/-- A retry, after which the call does not return. -/
theorem orders_retry {q : List (Event V) → DurableResult T → Prop} {stepId what : String}
    {u : OperationUpdate} {result : TerminationResult} (hbuild : u.Buildable) (h : Unsettled id trace) :
    Orders loaded n id q ((checkpoint stepId what u).andThen fun _ => suspend result) trace := by
  rw [checkpoint_of_build hbuild]
  have horder := orderly_snoc (u := u) h.orderly (Or.inr h)
  refine ⟨horder, fun a ha => ?_⟩
  obtain rfl : a = .ok () := ha.1.1
  exact orders_suspend horder

theorem orders_safeSerialize_bind {codec : Codec S} {value : Option S} {site : SerdesSite}
    {f : Option String → Act V T} (h : Orderly (naming id (sent trace)))
    (hf : ∀ payload, Orders loaded n id q (f payload) trace) :
    Orders loaded n id q (safeSerialize codec value site >>= f) trace := by
  unfold safeSerialize
  split
  · exact hf _
  · rw [terminateForSerdesFailure, suspend_bind]
    exact orders_suspend h

theorem orders_safeDeserialize_bind {codec : Codec S} {data : Option String} {site : SerdesSite}
    {f : Option S → Act V T} (h : Orderly (naming id (sent trace)))
    (hf : ∀ value, Orders loaded n id q (f value) trace) :
    Orders loaded n id q (safeDeserialize codec data site >>= f) trace := by
  unfold safeDeserialize
  split
  · exact hf _
  · rw [terminateForSerdesFailure, suspend_bind]
    exact orders_suspend h

theorem orders_getStepData {hashedId : String} {k : Option Operation → Act V T}
    (h : Fresh id trace) (hk : ∀ trace, Fresh id trace →
      Orders loaded n id q (k (loaded hashedId)) trace) :
    Orders loaded n id q (.act (.getStepData hashedId) k) trace := by
  refine orders_act rfl h.orderly fun a ha _ _ => ?_
  obtain rfl : a = loaded hashedId := ha.1
  exact hk _ (h.quiet rfl rfl)

/-- An effect that cannot fail user code. -/
theorem orders_quiet {e : Effect V} {k : Answer e → Act V T} (he : e.updates = [])
    (ha : ∀ a, Event.isUserError ⟨e, a⟩ = false) (h : Fresh id trace)
    (hk : ∀ a trace, Fresh id trace → Orders loaded n id q (k a) trace) :
    Orders loaded n id q (.act e k) trace :=
  orders_act he h.orderly fun a _ _ _ => hk a _ (h.quiet he (ha a))

theorem terminal_of_status {op : Operation} (hop : loaded i = some op)
    (h : op.status.isTerminal = true) : loaded.terminal i = true := by
  simp [Table.terminal, hop, h]

/-! ## Steps and child contexts -/

/-- A closure that sends no final update and succeeds only where nothing has failed. -/
def Attempted (id : String) (trace : List (Event V)) (outcome : Except BoxError T) : Prop :=
  Unsettled id trace ∧ ∀ v, outcome = .ok v → ¬ Failing trace

theorem orders_finishStep (ctx : ExecutionContext) (name : Option String) (stepId hashedId : String)
    (attempt : Nat) (codec : Codec T) (outcome : Except BoxError T)
    (h : Attempted id trace outcome) :
    Orders loaded n id (Concluded loaded id hashedId)
      (Step.finishStep ctx name stepId hashedId attempt codec outcome) trace := by
  cases outcome with
  | ok result =>
    refine orders_safeSerialize_bind h.1.orderly fun payload => ?_
    exact (orders_succeed (Step.succeedUpdate_buildable ..) rfl rfl rfl h.1.orderly
      (h.1.uniform .succeed)).mono fun _ _ hr => ⟨hr.1, hr.2 (h.2 result rfl)⟩
  | error error =>
    refine orders_act rfl h.1.orderly fun decision _ _ horder => ?_
    have h := h.1.quiet (e := .shouldRetry error attempt) (a := decision) rfl
    split
    · exact orders_retry (Step.retryUpdate_buildable ..) h
    · exact orders_fail (Step.failUpdate_buildable ..) rfl rfl rfl horder (h.uniform .fail)

/-- A replay that settles the call, or leaves it as it was. -/
def Settles (loaded : Table) (id i : String) (trace : List (Event V)) :
    DurableResult (Option T) → Prop
  | .ok none => Fresh id trace
  | .ok (some _) => Fresh id trace ∧ loaded.terminal i = true
  | .error _ => ¬ Failing trace

theorem orders_stepReplay (ctx : ExecutionContext) {operation : Option Operation}
    (stepId : String) {hashedId : String} (name : Option String) (semantics : StepSemantics)
    (codec : Codec T) (hop : loaded hashedId = operation) (h : Fresh id trace) :
    Orders loaded n id (Settles loaded id hashedId)
      (Step.handleReplay ctx operation stepId hashedId name semantics codec) trace := by
  unfold Step.handleReplay
  cases operation with
  | none => exact orders_ret h.orderly h
  | some op =>
    dsimp only
    split
    · rename_i hstatus
      have hterm := terminal_of_status hop (by rw [hstatus]; rfl)
      split
      · refine orders_safeDeserialize_bind h.orderly fun val => ?_
        cases val with
        | some val => exact orders_ret h.orderly ⟨h, hterm⟩
        | none => exact orders_ret h.orderly h.2
      · exact orders_ret h.orderly h.2
    · exact orders_ret h.orderly h.2
    · exact orders_quiet rfl (fun _ => rfl) h fun _ _ h => orders_suspend h.orderly
    · cases semantics with
      | atLeastOncePerRetry => exact orders_ret h.orderly h
      | atMostOncePerRetry =>
        refine orders_quiet rfl (fun _ => rfl) h fun _ _ h => ?_
        refine orders_quiet rfl (fun _ => rfl) h fun decision _ h => ?_
        split
        · exact orders_retry (Step.retryUpdate_buildable ..) h.1
        · exact orders_final (Step.failUpdate_buildable ..) rfl rfl h.orderly (h.1.uniform .fail)
            fun _ hsame _ _ hfailing => h.2 (hsame hfailing)
    · exact orders_ret h.orderly h

theorem orders_replay {p : Act V (DurableResult (Option T))}
    {f : Option T → Act V (DurableResult S)} (h : Orders loaded n id (Settles loaded id i) p trace)
    (hsome : ∀ val, ∃ r, f (some val) = .ret r)
    (hnone : ∀ trace, Fresh id trace → Orders loaded n id (Concluded loaded id i) (f none) trace) :
    Orders loaded n id (Concluded loaded id i) (p.andThen f) trace := by
  refine orders_andThen h (fun val trace horder hval => ?_) fun e trace hr => concluded_error hr e
  cases val with
  | none => exact hnone trace hval
  | some val =>
    obtain ⟨r, hr⟩ := hsome val
    rw [hr]
    exact orders_ret horder (hval.1.concluded hval.2 r)

theorem orders_startStep (ctx : ExecutionContext) (name : Option String) (stepId hashedId : String)
    (semantics : StepSemantics) (h : Fresh id trace) :
    Orders loaded n id (fun trace _ => Fresh id trace)
      (Step.startStep ctx name stepId hashedId semantics) trace := by
  unfold Step.startStep
  cases semantics with
  | atMostOncePerRetry => exact orders_checkpoint rfl h
  | atLeastOncePerRetry => exact orders_checkpointQueued rfl h

theorem orders_runStepExecution (ctx : ExecutionContext) (name : Option String)
    {stepFn : String → Nat → Act V (Except BoxError T)} (stepId : String) {hashedId : String}
    (operation : Option Operation) (semantics : StepSemantics) (codec : Codec T)
    (hfn : ∀ attempt trace, Fresh id trace →
      Orders loaded n id (Attempted id) (stepFn hashedId attempt) trace)
    (h : Fresh id trace) :
    Orders loaded n id (Concluded loaded id hashedId)
      (Step.runStepExecution ctx name stepFn stepId hashedId operation semantics codec) trace := by
  simp only [Step.runStepExecution, setMode_bind, getMode_bind]
  refine orders_quiet rfl (fun _ => rfl) h fun _ trace h => ?_
  refine orders_andThen (m := fun trace _ => Fresh id trace) ?_ (fun _ trace _ h => ?_)
    fun e trace h => concluded_error h.2 e
  · split
    · exact orders_ret h.orderly h
    · exact orders_startStep _ _ _ _ _ h
  · refine orders_quiet rfl (fun _ => rfl) h fun _ trace h => ?_
    exact orders_bind (hfn _ _ h) fun outcome trace _ h => orders_finishStep _ _ _ _ _ _ _ h

theorem orders_stepBody (ctx : ExecutionContext) (name : Option String)
    {stepFn : String → Nat → Act V (Except BoxError T)} (config : StepConfig T) (stepId : String)
    (hfn : ∀ attempt trace, Fresh id trace →
      Orders loaded n id (Attempted id) (stepFn (ctx.hashId stepId) attempt) trace)
    (h : Fresh id trace) :
    Orders loaded n id (Concluded loaded id (ctx.hashId stepId))
      (Step.body ctx name stepFn config stepId (loaded (ctx.hashId stepId))) trace := by
  refine orders_replay (orders_stepReplay ctx stepId name config.semantics config.codec rfl h)
    (fun val => ⟨_, rfl⟩) fun trace h => ?_
  exact orders_runStepExecution ctx name stepId _ config.semantics config.codec hfn h

theorem attempted_cons {e : Effect V} {a : Answer e} {outcome : Except BoxError T}
    (h : Fresh id trace) (he : e.updates = [])
    (ha : ∀ v, outcome = .ok v → Event.isUserError ⟨e, a⟩ = false) :
    Attempted id (⟨e, a⟩ :: trace) outcome :=
  ⟨h.1.quiet he, fun v hv hfailing => h.2 (hfailing.of_cons (ha v hv))⟩

theorem orders_userStep (hashedId : String) (attempt : Nat) (h : Fresh id trace) :
    Orders loaded n id (Attempted id) (userStep hashedId attempt : Act V _) trace := by
  refine orders_act rfl h.orderly fun outcome _ _ horder => ⟨horder, ?_⟩
  exact attempted_cons h rfl fun v hv => by rw [hv]; rfl

theorem orders_userContext (child : ExecutionContext) (h : Fresh id trace) :
    Orders loaded n id (fun trace r => Consistent id trace r ∧ Clean trace r)
      (userContext child : Act V _) trace := by
  refine orders_act rfl h.orderly fun outcome _ _ horder => ⟨horder, (h.1.quiet rfl).consistent _, ?_⟩
  rintro v rfl hfailing
  exact h.2 (hfailing.of_cons rfl)

/-- What a child context does with its record. -/
def Evaluates (loaded : Table) (id i : String) (trace : List (Event V)) :
    DurableResult (Child.ReplayDecision T) → Prop
  | .ok .continue => Fresh id trace
  | .ok _ => Fresh id trace ∧ loaded.terminal i = true
  | .error _ => ¬ Failing trace

theorem orders_fromPayload_bind {codec : Codec S} {payload : Option String} {site : SerdesSite}
    {f : Option S → Act V T} (h : Orderly (naming id (sent trace)))
    (hf : ∀ value, Orders loaded n id q (f value) trace) :
    Orders loaded n id q (Child.fromPayload codec payload site >>= f) trace := by
  cases payload with
  | none => exact hf none
  | some p => exact orders_safeDeserialize_bind h hf

theorem orders_evaluateReplay (ctx : ExecutionContext) {operation : Option Operation}
    (codec : Codec T) {hashedId : String} (stepId : String) (name : Option String)
    (hop : loaded hashedId = operation) (h : Fresh id trace) :
    Orders loaded n id (Evaluates loaded id hashedId)
      (Child.evaluateReplay ctx operation codec hashedId stepId name) trace := by
  unfold Child.evaluateReplay
  cases operation with
  | none => exact orders_ret h.orderly h
  | some op =>
    dsimp only
    split
    · rename_i hstatus
      have hterm := terminal_of_status hop (by rw [hstatus]; rfl)
      split
      · exact orders_ret h.orderly ⟨h, hterm⟩
      · refine orders_fromPayload_bind h.orderly fun val => ?_
        cases val with
        | some val => exact orders_ret h.orderly ⟨h, hterm⟩
        | none =>
          refine orders_fromPayload_bind h.orderly fun val => ?_
          cases val with
          | some val => exact orders_ret h.orderly ⟨h, hterm⟩
          | none => exact orders_ret h.orderly h
    · exact orders_ret h.orderly h.2
    · exact orders_quiet rfl (fun _ => rfl) h fun _ _ h => orders_ret h.orderly h

theorem orders_finishChild (ctx : ExecutionContext) (stepId hashedId : String) (name : Option String)
    (subType : String) (codec : Codec T) (outcome : DurableResult T)
    (h : Orderly (naming id (sent trace))) (hconsistent : Consistent id trace outcome)
    (hclean : Clean trace outcome) :
    Orders loaded n id (Concluded loaded id hashedId)
      (Child.finishChild ctx stepId hashedId name subType codec outcome) trace := by
  cases outcome with
  | ok result =>
    refine orders_safeSerialize_bind h fun payload => ?_
    have hupdate : (Child.succeedUpdate ctx name hashedId subType payload).action = .succeed ∧
        (Child.succeedUpdate ctx name hashedId subType payload).id = hashedId ∧
        isExternal (Child.succeedUpdate ctx name hashedId subType payload).operationType = false := by
      unfold Child.succeedUpdate
      split <;> exact ⟨rfl, rfl, rfl⟩
    exact (orders_succeed (Child.succeedUpdate_buildable ..) hupdate.1 hupdate.2.1 hupdate.2.2 h
      hconsistent).mono fun _ _ hr => ⟨hr.1, hr.2 (hclean result rfl)⟩
  | error error =>
    by_cases hfailing : Failing trace
    · exact orders_fail (Child.failUpdate_buildable ..) rfl rfl rfl h (hconsistent hfailing)
    · rw [Child.finishChild, checkpoint_of_build (Child.failUpdate_buildable ..)]
      have horder := orderly_snoc (u := Child.failUpdate ctx name hashedId subType error) h
        (Or.inl rfl)
      exact ⟨horder, fun a ha => by
        obtain rfl : a = .ok () := ha.1.1
        exact ⟨horder, concluded_error (fun hsame => hfailing (hsame.of_cons rfl)) _⟩⟩

theorem orders_runChildExecution (ctx : ExecutionContext) (stepId hashedId : String)
    (name : Option String) {contextFn : ExecutionContext → Act V (DurableResult T)}
    (subType : String) (codec : Codec T)
    (hfn : ∀ counter trace, Fresh id trace →
      Orders loaded n id (fun trace r => Consistent id trace r ∧ Clean trace r)
        (contextFn { ctx with currentParentId := some hashedId, operationCounter := counter }) trace)
    (h : Fresh id trace) :
    Orders loaded n id (Concluded loaded id hashedId)
      (Child.runChildExecution ctx stepId hashedId name contextFn subType codec) trace := by
  simp only [Child.runChildExecution, getStepData_bind, withParentId_bind]
  refine orders_getStepData h fun trace h => ?_
  refine orders_andThen (m := fun trace _ => Fresh id trace) ?_ (fun _ trace _ h => ?_)
    fun e trace h => concluded_error h.2 e
  · cases loaded hashedId with
    | none => exact orders_checkpoint rfl h
    | some op => exact orders_ret h.orderly h
  · refine orders_quiet rfl (fun _ => rfl) h fun counter trace h => ?_
    exact orders_bind (hfn counter _ h) fun outcome trace horder hr =>
      orders_finishChild _ _ _ _ _ _ _ horder hr.1 hr.2

theorem orders_runInChildContextWithIds (ctx : ExecutionContext) (stepId hashedId : String)
    (name : Option String) {contextFn : ExecutionContext → Act V (DurableResult T)}
    (config : ChildContextConfig T)
    (hfn : ∀ counter trace, Fresh id trace →
      Orders loaded n id (fun trace r => Consistent id trace r ∧ Clean trace r)
        (contextFn { ctx with currentParentId := some hashedId, operationCounter := counter }) trace)
    (h : Fresh id trace) :
    Orders loaded n id (Concluded loaded id hashedId)
      (ctx.runInChildContextWithIds stepId hashedId name contextFn config) trace := by
  refine orders_getStepData h fun trace h => ?_
  refine orders_andThen (orders_evaluateReplay ctx config.codec stepId name rfl h)
    (fun decision trace horder hdecision => ?_) fun e trace hr => concluded_error hr e
  cases decision with
  | «return» val => exact orders_ret horder (hdecision.1.concluded hdecision.2 _)
  | replayChildren =>
    obtain ⟨h, hterm⟩ := hdecision
    refine orders_quiet rfl (fun _ => rfl) h fun counter trace h => ?_
    exact (hfn counter _ h).mono fun _ _ hr => ⟨⟨hr.1, fun _ => Or.inl hterm⟩, hr.2⟩
  | «continue» => exact orders_runChildExecution _ _ _ _ _ _ hfn hdecision

/-! ## Waits, callbacks and invokes -/

theorem orders_runWait (ctx : ExecutionContext) (name : Option String) {duration : Duration}
    (stepId hashedId : String) (hzero : duration.isZero = false) (h : Fresh id trace) :
    Orders loaded n id (Concluded loaded id hashedId)
      (Wait.runWait ctx name duration stepId hashedId : Act V _) trace := by
  simp only [Wait.runWait, hzero, Bool.false_eq_true, if_false, getStepData_bind, setMode_bind]
  refine orders_getStepData h fun trace h => ?_
  cases hop : loaded hashedId with
  | some op =>
    dsimp only
    split
    · rename_i hstatus
      exact orders_ret h.orderly (h.concluded (terminal_of_status hop (by rw [hstatus]; rfl)) _)
    · exact orders_ret h.orderly (concluded_error h.2 _)
    · exact orders_quiet rfl (fun _ => rfl) h fun _ _ h => orders_suspend h.orderly
  | none =>
    refine orders_andThen (orders_checkpoint rfl h) (fun _ trace _ h => ?_) fun e _ h => concluded_error h.2 e
    refine orders_getStepData h fun trace h => ?_
    simp only [hop, Option.map_none]
    exact orders_quiet rfl (fun _ => rfl) h fun _ _ h => orders_suspend h.orderly

theorem orders_callbackOutcome {q : List (Event V) → DurableResult T → Prop} {op : Operation}
    {stepId : String} {read : String → Act V (Option T)} {finished : Act V (DurableResult T)}
    (hop : loaded i = some op) (hfinished : Callback.outcome op stepId read = some finished)
    (hread : ∀ payload (f : Option T → Act V (DurableResult T)),
      (∀ val, Orders loaded n id q (f val) trace) → Orders loaded n id q (read payload >>= f) trace)
    (h : Orderly (naming id (sent trace))) (hq : ∀ r, loaded.terminal i = true → q trace r) :
    Orders loaded n id q finished trace := by
  unfold Callback.outcome at hfinished
  split at hfinished
  · rename_i hstatus
    have hterm := terminal_of_status hop (by rw [hstatus]; rfl)
    obtain rfl := Option.some.inj hfinished
    split
    · refine hread _ _ fun val => ?_
      cases val <;> exact orders_ret h (hq _ hterm)
    · exact orders_ret h (hq _ hterm)
  · rename_i hstatus
    obtain rfl := Option.some.inj hfinished
    exact orders_ret h (hq _ (terminal_of_status hop (by rw [hstatus]; rfl)))
  · cases hfinished

theorem orders_await {q : List (Event V) → DurableResult T → Prop} (handle : CallbackHandle S)
    {read : String → Act V (Option T)}
    (hread : ∀ payload trace (f : Option T → Act V (DurableResult T)),
      Orderly (naming id (sent trace)) → (∀ val, Orders loaded n id q (f val) trace) →
      Orders loaded n id q (read payload >>= f) trace)
    (h : Orderly (naming id (sent trace)))
    (hq : ∀ a r, loaded.terminal handle.hashedId = true →
      q (⟨.getStepData handle.hashedId, a⟩ :: trace) r) :
    Orders loaded n id q (Callback.await handle read) trace := by
  simp only [Callback.await, getStepData_bind]
  refine orders_act rfl h fun a ha _ h => ?_
  obtain rfl : a = loaded handle.hashedId := ha.1
  split
  · rename_i finished hfinished
    obtain ⟨op, hop, hout⟩ := Option.bind_eq_some_iff.mp hfinished
    exact orders_callbackOutcome hop hout (fun payload f => hread payload _ f h) h (hq _)
  · exact orders_act rfl h fun _ _ _ h => orders_suspend h

theorem orders_createCallback_andThen (ctx : ExecutionContext) (name : Option String)
    (config : Option (CallbackConfig T)) (codec : Codec T)
    {f : CallbackHandle T → Act V (DurableResult S)}
    {q : List (Event V) → DurableResult S → Prop} (h : Fresh id trace)
    (hf : ∀ counter callbackId trace', (drawn trace = none → counter = n) → Fresh id trace' →
      Orders loaded n id q (f ⟨callbackId, ctx.operationId name counter, callId ctx name counter,
        ctx, codec⟩) trace')
    (herror : ∀ e trace, Fresh id trace → q trace (.error e)) :
    Orders loaded n id q ((ctx.createCallback name config codec).andThen f) trace := by
  simp only [ExecutionContext.createCallback, nextOperationId_bind, getStepData_bind,
    Prog.act_andThen]
  refine orders_act rfl h.orderly fun counter hcounter _ _ => ?_
  have hn : drawn trace = none → counter = n := fun hnone => hcounter.2 hnone counter rfl
  refine orders_getStepData (h.quiet rfl rfl) fun trace h => ?_
  rw [Prog.andThen_assoc]
  refine orders_andThen (m := fun trace _ => Fresh id trace) ?_ (fun _ trace _ h => ?_) herror
  · cases loaded (callId ctx name counter) with
    | none => exact orders_checkpoint rfl h
    | some op => exact orders_ret h.orderly h
  · exact orders_getStepData h fun trace h => hf _ _ _ hn h

theorem orders_submit (config : CallbackConfig T) (unitCodec : Codec Unit) (child : ExecutionContext)
    (h : Fresh id trace) :
    Orders loaded n id (fun trace r => Consistent id trace r ∧ Clean trace r)
      (Callback.submit config unitCodec child : Act V _) trace := by
  refine orders_createCallback_andThen child none _ _ h (fun counter callbackId trace _ h => ?_)
    fun e _ h => ⟨h.1.consistent _, nofun⟩
  refine orders_andThen (m := fun trace r => Consistent id trace r ∧ Clean trace r) ?_
    (fun _ trace horder hr => ?_) fun e _ hr => ⟨hr.1, nofun⟩
  · refine orders_quiet rfl (fun _ => rfl) h fun inner trace h => ?_
    refine orders_getStepData h fun trace h => ?_
    refine (orders_stepBody child _ _ _ (fun attempt trace h => ?_) h).mono fun _ _ hr =>
      ⟨hr.1.1, hr.2⟩
    refine orders_act rfl h.orderly fun outcome _ _ horder => ⟨horder, ?_⟩
    exact attempted_cons h rfl fun v hv => by rw [hv]; rfl
  · have hclean := hr.2 _ rfl
    refine orders_await _ (fun _ _ f _ hf => hf _) horder fun a r _ => ?_
    have hquiet : ¬ Failing (⟨.getStepData _, a⟩ :: trace) := fun hsame => hclean (hsame.of_cons rfl)
    refine ⟨?_, fun _ _ => hquiet⟩
    cases r with
    | ok v => exact Uniform.quiet hr.1 rfl
    | error e => exact fun hfailing => absurd hfailing hquiet

theorem orders_callbackReplay (ctx : ExecutionContext) {operation : Option Operation}
    (codec : Codec T) {hashedId : String} (stepId : String) (name : Option String)
    (hop : loaded hashedId = operation) (h : Fresh id trace) :
    Orders loaded n id (Settles loaded id hashedId)
      (Callback.handleReplay ctx operation codec hashedId stepId name) trace := by
  unfold Callback.handleReplay
  cases operation with
  | none => exact orders_ret h.orderly h
  | some op =>
    dsimp only
    split
    · exact orders_ret h.orderly h
    · split
      · rename_i hfinished
        refine orders_andThen (orders_callbackOutcome hop hfinished
          (q := fun trace _ => Fresh id trace ∧ loaded.terminal hashedId = true)
          (fun payload f hf => orders_safeDeserialize_bind h.orderly hf) h.orderly
          fun _ hterm => ⟨h, hterm⟩) (fun val trace horder hr => ?_) fun e _ hr => hr.1.2
        exact orders_ret horder hr
      · exact orders_quiet rfl (fun _ => rfl) h fun _ _ h => orders_suspend h.orderly

theorem orders_waitForCallback (ctx : ExecutionContext) (name : Option String)
    (config : CallbackConfig V) (unitCodec : Codec Unit) (rawCodec : Codec String) :
    Orders loaded n id (Concluded loaded id (callId ctx name n))
      (ctx.waitForCallback name config unitCodec rawCodec : Act V _) [] := by
  refine orders_act rfl fresh_nil.orderly fun counter hcounter _ _ => ?_
  obtain rfl : counter = n := hcounter.2 rfl counter rfl
  refine orders_getStepData (fresh_nil.quiet rfl rfl) fun trace h => ?_
  refine orders_replay (orders_callbackReplay ctx config.codec _ name rfl h) (fun val => ⟨_, rfl⟩)
    fun trace h => ?_
  refine orders_andThen (orders_runInChildContextWithIds _ _ _ _ _ (fun _ _ h => ?_) h)
    (fun rawPayload trace horder hr => ?_) fun e _ hr => hr.error
  · exact orders_submit config unitCodec _ h
  · refine orders_safeDeserialize_bind horder fun val => ?_
    cases val with
    | some val => exact orders_ret horder ⟨⟨hr.1.1, fun _ => hr.1.2 (Or.inl ⟨_, rfl⟩)⟩, fun _ _ => hr.2 _ rfl⟩
    | none => exact orders_ret horder (concluded_error (hr.2 _ rfl) _)

theorem orders_invoke (ctx : ExecutionContext) (name : Option String) (functionId : String)
    (input : Option I) (config : InvokeConfig I V) :
    Orders loaded n id (Concluded loaded id (callId ctx name n))
      (ctx.invokeWithConfig name functionId input config : Act V _) [] := by
  refine orders_act rfl fresh_nil.orderly fun counter hcounter _ _ => ?_
  obtain rfl : counter = n := hcounter.2 rfl counter rfl
  refine orders_getStepData (fresh_nil.quiet rfl rfl) fun trace h => ?_
  have hfinished : ∀ {op : Operation} {finished : Act V (DurableResult (Option V))} {trace},
      loaded (callId ctx name counter) = some op → Fresh id trace →
      Invoke.outcome ctx op config.resultCodec (callId ctx name counter) name functionId =
        some finished →
      Orders loaded counter id (Settles loaded id (callId ctx name counter)) finished trace := by
    intro op finished trace hop h hout
    unfold Invoke.outcome at hout
    split at hout
    · rename_i hstatus
      have hterm := terminal_of_status hop (by rw [hstatus]; rfl)
      obtain rfl := Option.some.inj hout
      split
      · refine orders_safeDeserialize_bind h.orderly fun val => ?_
        cases val with
        | some val => exact orders_ret h.orderly ⟨h, hterm⟩
        | none => exact orders_ret h.orderly h.2
      · exact orders_ret h.orderly h.2
    · obtain rfl := Option.some.inj hout
      exact orders_ret h.orderly h.2
    · cases hout
  refine orders_replay ?_ (fun val => ⟨_, rfl⟩) fun trace h => ?_
  · unfold Invoke.handleReplay
    cases hop : loaded (callId ctx name counter) with
    | none => exact orders_ret h.orderly h
    | some op =>
      dsimp only
      split
      · rename_i hout
        exact hfinished hop h hout
      · refine orders_quiet rfl (fun _ => rfl) h fun _ _ h => ?_
        simp only [getStepData_bind, setMode_bind]
        refine orders_getStepData h fun trace h => ?_
        split
        · rename_i hout
          obtain ⟨op', hop', hout⟩ := Option.bind_eq_some_iff.mp hout
          exact hfinished hop' h hout
        · exact orders_quiet rfl (fun _ => rfl) h fun _ _ h => orders_suspend h.orderly
  · refine orders_safeSerialize_bind h.orderly fun payload => ?_
    refine orders_andThen (orders_checkpoint rfl h) (fun _ _ horder _ => orders_suspend horder)
      fun e _ h => concluded_error h.2 e

/-! ## Conditions -/

theorem orders_conditionReplay (ctx : ExecutionContext) {operation : Option Operation}
    (codec : Codec V) {hashedId : String} (stepId : String) (name : Option String)
    (hop : loaded hashedId = operation) (h : Fresh id trace) :
    Orders loaded n id (Settles loaded id hashedId)
      (WaitCondition.handleReplay ctx operation codec hashedId stepId name) trace := by
  unfold WaitCondition.handleReplay
  cases operation with
  | none => exact orders_ret h.orderly h
  | some op =>
    dsimp only
    split
    · rename_i hstatus
      have hterm := terminal_of_status hop (by rw [hstatus]; rfl)
      split
      · refine orders_safeDeserialize_bind h.orderly fun val => ?_
        cases val with
        | some val => exact orders_ret h.orderly ⟨h, hterm⟩
        | none => exact orders_ret h.orderly h.2
      · exact orders_ret h.orderly h.2
    · exact orders_ret h.orderly h.2
    · exact orders_quiet rfl (fun _ => rfl) h fun _ _ h => orders_ret h.orderly h

theorem orders_decide (ctx : ExecutionContext) (name : Option String)
    (config : WaitConditionConfig V) (stepId hashedId : String) (attempt : Nat) (state : V)
    (h : Fresh id trace) :
    Orders loaded n id (Concluded loaded id hashedId)
      (WaitCondition.decide ctx name config stepId hashedId attempt state) trace := by
  refine orders_safeSerialize_bind h.orderly fun payload => ?_
  refine orders_quiet rfl (fun _ => rfl) h fun decision trace h => ?_
  cases decision with
  | stop =>
    exact (orders_succeed (WaitCondition.succeedUpdate_buildable ..) rfl rfl rfl h.orderly
      (h.1.uniform .succeed)).mono fun _ _ hr => ⟨hr.1, hr.2 h.2⟩
  | «continue» delay => exact orders_retry (WaitCondition.retryUpdate_buildable ..) h.1

theorem orders_runCheck (ctx : ExecutionContext) (name : Option String)
    (config : WaitConditionConfig V) (stepId hashedId : String) (attempt : Nat) (state : V)
    (h : Fresh id trace) :
    Orders loaded n id (Concluded loaded id hashedId)
      (WaitCondition.runCheck ctx name config stepId hashedId attempt state) trace := by
  simp only [WaitCondition.runCheck, getStepData_bind, getMode_bind]
  refine orders_getStepData h fun trace h => ?_
  refine orders_andThen (m := fun trace _ => Fresh id trace) ?_ (fun _ trace _ h => ?_)
    fun e trace h => concluded_error h.2 e
  · cases loaded hashedId with
    | none => exact orders_checkpoint rfl h
    | some op => exact orders_ret h.orderly h
  · refine orders_quiet rfl (fun _ => rfl) h fun _ trace h => ?_
    refine orders_act rfl h.orderly fun result _ hresult _ => ?_
    cases result with
    | ok newState => exact orders_decide _ _ _ _ _ _ _ (h.quiet rfl rfl)
    | error e => cases hresult

theorem orders_waitForCondition (ctx : ExecutionContext) (name : Option String)
    (config : WaitConditionConfig V) :
    Orders loaded n id (Concluded loaded id (callId ctx name n))
      (ctx.waitForCondition name config : Act V _) [] := by
  refine orders_act rfl fresh_nil.orderly fun counter hcounter _ _ => ?_
  obtain rfl : counter = n := hcounter.2 rfl counter rfl
  refine orders_getStepData (fresh_nil.quiet rfl rfl) fun trace h => ?_
  refine orders_replay (orders_conditionReplay ctx config.codec _ name rfl h) (fun val => ⟨_, rfl⟩)
    fun trace h => ?_
  simp only [WaitCondition.runWaitCondition, getStepData_bind]
  refine orders_getStepData h fun trace h => ?_
  have hattempt : ∀ state, Orders loaded counter id (Concluded loaded id (callId ctx name counter))
      (.act (.getStepData (callId ctx name counter)) fun stored =>
        WaitCondition.runAttempt ctx name config (ctx.operationId name counter)
          (callId ctx name counter) ((stored.map (·.attemptIdx)).getD 0 + 1) state) trace := by
    intro state
    refine orders_getStepData h fun trace h => ?_
    unfold WaitCondition.runAttempt
    split
    · exact orders_fail (WaitCondition.failUpdate_buildable ..) rfl rfl rfl h.orderly
        (h.1.uniform .fail)
    · exact orders_runCheck _ _ _ _ _ _ _ h
  unfold WaitCondition.currentState
  split
  · rw [Prog.bind_assoc]
    exact orders_safeDeserialize_bind h.orderly fun state => hattempt _
  · exact hattempt _

end

end LambdaDurable
