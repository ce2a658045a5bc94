import LambdaDurable.Context.Condition
import LambdaDurable.Context.Surfaced

/-!
# Values that are replayed

A value encoded without a payload is not replayed: a step and a condition fail on such a
record, a child context runs again. It also runs again where its record asks for its children.
-/

namespace LambdaDurable

open Effects Call Backend

variable {V : Type}

/-! ## Steps and conditions -/

/-- SUCCEED carries the value just computed. -/
def Keeps (codec : Codec V) (site : SerdesSite) (trace : List (Event V)) (u : OperationUpdate) :
    Prop :=
  u.action = .succeed → ∃ value, produced trace = some value ∧
    codec.serialize (some value) site.context = .ok u.payload

/-- What a step may do. -/
structure Remembers (codec : Codec V) (site : SerdesSite) (loaded : Table) (id : String)
    (trace : List (Event V)) (e : Effect V) : Prop where
  stepWise : StepWise loaded id (Keeps codec site) trace e
  closure : e.runsClosure = true → loaded.terminal id = false

/-- What a step returns. -/
structure Recounts (codec : Codec V) (site : SerdesSite) (missing : String) (loaded : Table)
    (id : String) (trace : List (Event V)) (r : DurableResult V) : Prop where
  live : loaded.terminal id = false → ∀ value, r = .ok value → produced trace = some value
  succeeded : (standing (loaded id)).verdict = some .succeeded →
    Recalls codec site missing r (standing (loaded id)).result

section

variable {codec : Codec V} {site : SerdesSite} {missing : String} {loaded : Table} {id : String}
  {trace : List (Event V)} {T : Type}

theorem Remembers.of_quiet {e : Effect V} (hupdates : e.updates = []) (he : e.runsClosure = false) :
    Remembers codec site loaded id trace e where
  stepWise := .of_quiet hupdates
  closure hclosure := by
    rw [he] at hclosure
    cases hclosure

theorem Remembers.of_update {e : Effect V} {u : OperationUpdate} (hupdates : e.updates = [u])
    (he : e.runsClosure = false) (htype : u.operationType = .step)
    (hopen : loaded.terminal id = false) (hsent : ∀ v ∈ naming id (sent trace), Opening v)
    (hu : Opening u ∨ Keeps codec site trace u) : Remembers codec site loaded id trace e := by
  have hmem : ∀ v ∈ e.updates, v = u := by
    intro v hv
    rw [hupdates] at hv
    exact List.mem_singleton.mp hv
  constructor
  · constructor
    · intro v hv _
      rw [hmem v hv]
      exact ⟨hsent, hu⟩
    · intro v hv _
      rw [hmem v hv, htype]
    · exact fun _ _ _ => hopen
  · intro hclosure
    rw [he] at hclosure
    cases hclosure

theorem Recounts.of_open {r : DurableResult V} (hopen : loaded.terminal id = false)
    (hok : ∀ value, r = .ok value → produced trace = some value) :
    Recounts codec site missing loaded id trace r where
  live _ := hok
  succeeded h := by
    rw [verdict_of_open hopen] at h
    cases h

theorem remembers_quit (result : TerminationResult) :
    Remembers codec site loaded id trace (.terminate result) ∧
      Remembers codec site loaded id (⟨.terminate result, ()⟩ :: trace) .pending :=
  ⟨.of_quiet rfl rfl, .of_quiet rfl rfl⟩

end

section

variable {config : StepConfig V} {ctx : ExecutionContext} {name : Option String} {n : Nat}
  {loaded : Table} {trace : List (Event V)} {T : Type}

abbrev Remembering (config : StepConfig V) (ctx : ExecutionContext) (name : Option String)
    (n : Nat) (loaded : Table) (post : List (Event V) → T → Prop) (p : Act V T)
    (trace : List (Event V)) : Prop :=
  Obeys loaded (Numbered n)
    (Remembers config.codec (ctx.site (callId ctx name n) name) loaded (callId ctx name n)) post p
    trace

abbrev Recounting (config : StepConfig V) (ctx : ExecutionContext) (name : Option String)
    (n : Nat) (loaded : Table) : List (Event V) → DurableResult V → Prop :=
  Recounts config.codec (ctx.site (callId ctx name n) name) "Missing step output in replay" loaded
    (callId ctx name n)

theorem remembers_decide (hopen : loaded.terminal (callId ctx name n) = false)
    (hsent : ∀ v ∈ naming (callId ctx name n) (sent trace), Opening v)
    {stepId : String} {error : BoxError} {attempt : Nat}
    {post : List (Event V) → DurableResult T → Prop}
    (hpost : ∀ trace e, post trace (.error e)) :
    Remembering config ctx name n loaded post
      (.act (.shouldRetry error attempt) fun decision =>
        if decision.shouldRetry then
          (checkpoint stepId "step RETRY"
            (Step.retryUpdate ctx name (callId ctx name n) error decision.delay)).andThen fun _ =>
              suspend (.new .retryScheduled)
        else
          (checkpoint stepId "step FAIL"
            (Step.failUpdate ctx name (callId ctx name n) error)).andThen fun _ =>
              (.ret (.error (.stepFailed stepId attempt error.message)) :
                Act V (DurableResult T))) trace := by
  refine obeys_act (.of_quiet rfl rfl) fun decision _ _ => ?_
  have hsent' : ∀ v ∈ naming (callId ctx name n)
      (sent (⟨Effect.shouldRetry error attempt, decision⟩ :: trace)), Opening v := by
    rwa [sent_cons_quiet rfl]
  split
  · apply obeys_checkpoint (Step.retryUpdate_buildable ..)
    · exact .of_update rfl rfl rfl hopen hsent' (Or.inr fun h => by cases h)
    · exact obeys_suspend (remembers_quit _).1 (remembers_quit _).2
  · apply obeys_checkpoint (Step.failUpdate_buildable ..)
    · exact .of_update rfl rfl rfl hopen hsent' (Or.inr fun h => by cases h)
    · exact hpost _ _

theorem remembers_finishStep (hopen : loaded.terminal (callId ctx name n) = false)
    {outcome : Except BoxError V} {attempt : Nat} {stepId : String}
    (hproduced : ∀ value, outcome = .ok value → produced trace = some value)
    (hsent : ∀ v ∈ naming (callId ctx name n) (sent trace), Opening v) :
    Remembering config ctx name n loaded (Recounting config ctx name n loaded)
      (Step.finishStep ctx name stepId (callId ctx name n) attempt config.codec outcome) trace := by
  cases outcome with
  | ok result =>
    refine obeys_safeSerialize remembers_quit fun payload hpayload => ?_
    apply obeys_checkpoint (Step.succeedUpdate_buildable ..)
    · exact .of_update rfl rfl rfl hopen hsent
        (Or.inr fun _ => ⟨result, hproduced result rfl, hpayload⟩)
    · apply Recounts.of_open hopen
      rintro _ ⟨⟩
      rw [produced_cons rfl]
      exact hproduced result rfl
  | error error =>
    apply remembers_decide hopen hsent
    exact fun trace e => .of_open hopen fun _ h => by cases h

theorem remembers_runStepExecution {stepId : String}
    (hopen : loaded.terminal (callId ctx name n) = false) (h : Untouched (callId ctx name n) trace) :
    Remembering config ctx name n loaded (Recounting config ctx name n loaded)
      (Step.runStepExecution ctx name userStep stepId (callId ctx name n)
        (loaded (callId ctx name n)) config.semantics config.codec) trace := by
  refine obeys_act (.of_quiet rfl rfl) fun mode _ _ => ?_
  have h := h.cons (e := .setMode .execution) (a := mode) rfl rfl
  refine Prog.Meets.andThen (m := fun trace r => r = .ok () ∧ produced trace = none ∧
    ∀ v ∈ naming (callId ctx name n) (sent trace), Opening v) ?_ ?_ ?_
  · split
    · exact ⟨rfl, h.2, h.opening⟩
    · have hopened : ∀ {e : Effect V} {a : Answer e},
          e.updates = [Step.update ctx name (callId ctx name n) .start] →
          ∀ v ∈ naming (callId ctx name n)
            (sent (⟨e, a⟩ :: ⟨Effect.setMode .execution, mode⟩ :: trace)), Opening v := by
        intro e a he v hv
        rw [sent, he, naming_append, h.1] at hv
        rw [List.mem_singleton.mp (List.mem_filter.mp hv).1]
        exact ⟨rfl, rfl, rfl, rfl⟩
      cases config.semantics with
      | atMostOncePerRetry =>
        rw [Step.startStep, checkpoint_of_build (Step.update_buildable ..)]
        apply obeys_act
        · exact .of_update rfl rfl rfl hopen h.opening (Or.inl ⟨rfl, rfl, rfl, rfl⟩)
        rintro _ rfl _
        exact ⟨rfl, (produced_cons rfl).trans h.2, hopened rfl⟩
      | atLeastOncePerRetry =>
        rw [Step.startStep, checkpointQueued_of_build (Step.update_buildable ..)]
        apply obeys_act
        · exact .of_update rfl rfl rfl hopen h.opening (Or.inl ⟨rfl, rfl, rfl, rfl⟩)
        rintro _ rfl _
        exact ⟨rfl, (produced_cons rfl).trans h.2, hopened rfl⟩
  · rintro _ trace ⟨-, hproduced, hsent⟩
    refine obeys_act (.of_quiet rfl rfl) fun mode _ _ => ?_
    apply obeys_act
    · exact ⟨.of_quiet rfl, fun _ => hopen⟩
    intro outcome _ _
    apply remembers_finishStep hopen
    · rintro value rfl
      exact produced_computed ((produced_cons rfl).trans hproduced) rfl
    · rwa [sent_cons_quiet rfl, sent_cons_quiet rfl]
  · rintro _ _ ⟨⟨⟩, -⟩

/-- What `handle_replay` leaves to do. -/
def Leaves (config : StepConfig V) (ctx : ExecutionContext) (name : Option String) (n : Nat)
    (loaded : Table) (trace : List (Event V)) : DurableResult (Option V) → Prop
  | .ok none => loaded.terminal (callId ctx name n) = false ∧ Untouched (callId ctx name n) trace
  | .ok (some value) => Recounting config ctx name n loaded trace (.ok value)
  | .error e => Recounting config ctx name n loaded trace (.error e)

theorem remembers_handleReplay {stepId : String} (h : Untouched (callId ctx name n) trace) :
    Remembering config ctx name n loaded (Leaves config ctx name n loaded)
      (Step.handleReplay ctx (loaded (callId ctx name n)) stepId (callId ctx name n) name
        config.semantics config.codec) trace := by
  cases hop : loaded (callId ctx name n) with
  | none =>
    refine ⟨?_, h⟩
    simp [Table.terminal, hop]
  | some op =>
    have hterminal : loaded.terminal (callId ctx name n) = op.status.isTerminal := by
      simp [Table.terminal, hop]
    have hresult : (standing (loaded (callId ctx name n))).result = op.stepDetails.bind (·.result) := by
      simp [standing, hop]
    simp only [Step.handleReplay]
    cases hstatus : op.status with
    | succeeded =>
      have hrecounts : ∀ {trace r}, Recalls config.codec (ctx.site (callId ctx name n) name)
          "Missing step output in replay" r (op.stepDetails.bind (·.result)) →
          Recounting config ctx name n loaded trace r := by
        intro trace r hr
        constructor
        · rw [hterminal, hstatus]
          rintro ⟨⟩
        · intro _
          rwa [hresult]
      dsimp only
      split
      · rename_i payload hpayload
        rw [hpayload] at hrecounts
        refine obeys_safeDeserialize remembers_quit fun value hvalue => ?_
        cases value with
        | some state =>
          apply hrecounts
          intro state' hstate'
          rw [hvalue] at hstate'
          cases hstate'
          rfl
        | none =>
          apply hrecounts
          intro state' hstate'
          rw [hvalue] at hstate'
          cases hstate'
      · rename_i hpayload
        rw [hpayload] at hrecounts
        exact hrecounts rfl
    | failed =>
      constructor
      · rw [hterminal, hstatus]
        rintro ⟨⟩
      · simp [standing, hop, hstatus, OperationStatus.isTerminal]
    | pending =>
      refine obeys_act (.of_quiet rfl rfl) fun _ _ _ => ?_
      exact obeys_suspend (remembers_quit _).1 (remembers_quit _).2
    | ready | unknown =>
      refine ⟨?_, h⟩
      rw [hterminal, hstatus]
      rfl
    | started =>
      have hopen : loaded.terminal (callId ctx name n) = false := by
        rw [hterminal, hstatus]
        rfl
      cases config.semantics with
      | atLeastOncePerRetry => exact ⟨hopen, h⟩
      | atMostOncePerRetry =>
        refine obeys_act (.of_quiet rfl rfl) fun mode _ _ => ?_
        apply remembers_decide hopen
        · rw [sent_cons_quiet rfl]
          exact h.opening
        · exact fun trace e => .of_open hopen fun _ h => by cases h

theorem remembers_step : Remembering config ctx name n loaded (Recounting config ctx name n loaded)
    (ctx.step name userStep config) [] := by
  simp only [ExecutionContext.step, nextOperationId_bind, getStepData_bind]
  refine obeys_act (.of_quiet rfl rfl) fun counter _ hcounter => ?_
  obtain rfl : counter = n := hcounter
  refine obeys_act (.of_quiet rfl rfl) fun operation hop _ => ?_
  obtain rfl : operation = loaded (callId ctx name counter) := hop
  have huntouched : Untouched (callId ctx name counter)
      [⟨Effect.getStepData (callId ctx name counter), loaded (callId ctx name counter)⟩,
        ⟨Effect.fetchAdd ctx.operationCounter, (counter : Nat)⟩] := ⟨rfl, rfl⟩
  refine Prog.Meets.andThen (remembers_handleReplay huntouched) (fun result trace hr => ?_)
    fun e trace hr => hr
  cases result with
  | some value => exact hr
  | none => exact remembers_runStepExecution hr.1 hr.2

end

/-- A later invocation leaves the closure and the record alone, waits for nothing, and returns. -/
structure Replayed (loaded : Table) (id : String) (r : DurableResult V)
    (c : Call.State V (DurableResult V)) : Prop where
  closure : ∀ e, Performs c e → e.runsClosure = false
  updates : naming id c.askedFor = []
  immediate : ∀ e, Performs c e → Immediate e
  returns : Returns loaded c r
  only : ∀ r', c.program = .ret r' → r' = r

section

variable {n : Nat} {loaded : Table} {trace : List (Event V)} {T : Type} {p program : Act V T}
  {allows : List (Event V) → Effect V → Prop} {post : List (Event V) → T → Prop}
  {token id : String} {c : Call.State V T}

theorem obeys_prompt (h : Obeys loaded (Numbered n) allows post p trace)
    (hprompt : Prompt loaded n trace p) :
    Obeys loaded (Numbered n) (fun trace e => allows trace e ∧ Immediate e) post p trace := by
  have hdraws : ∀ trace (e : Effect V) a, Call.Answers loaded e a ∧ Numbered n e a →
      Drawing loaded n trace e a ∧ True := by
    rintro trace e a ⟨hanswers, hnumbered⟩
    refine ⟨⟨hanswers, fun _ m hm => ?_⟩, trivial⟩
    cases e with
    | fetchAdd _ => exact (Option.some.inj hm).symm.trans hnumbered
    | _ => cases hm
  exact Prog.Meets.mono (fun _ _ hpost => hpost.1) (Prog.Meets.and h hprompt hdraws rfl)

theorem numbered_drawing {mode : ExecutionMode} {e : Effect V} (he : Immediate e) :
    ∃ a, instant loaded mode (drawing n) e = some a ∧ Answers loaded e a ∧ Numbered n e a := by
  obtain ⟨a, ha⟩ : ∃ a, instant loaded mode (drawing n) e = some a := instant_of_immediate he
  refine ⟨a, ha, answers_of_instant ha, ?_⟩
  cases e with
  | fetchAdd _ => exact (Option.some.inj ha).symm
  | _ => trivial

/-- An invocation of a call whose effects are all answered at once. -/
theorem answered_of_obeys {choose : (e : Effect V) → Option (Answer e)}
    (hchoose : ∀ trace mode e, allows trace e →
      ∃ a, instant loaded mode choose e = some a ∧ Call.Answers loaded e a ∧ Numbered n e a)
    (hobeys : Obeys loaded (Numbered n) allows post program [])
    (h : (Call.machine token loaded program).ReachableBy (Plays (Numbered n) id) c) :
    (∀ e, Performs c e → ∃ trace, allows trace e) ∧ ∃ trace r, post trace r ∧ Returns loaded c r := by
  obtain ⟨hpermitted, hnext, -⟩ := obeys_of_reachable numbered_of_not_chosen hobeys h
  have hmeets := meets_of_reachableBy (respects_plays numbered_of_not_chosen) hobeys h
  have hinstant : ∀ e k, c.program = .act e k → ∃ a, instant loaded c.mode choose e = some a := by
    intro e k hk
    obtain ⟨a, ha, -⟩ := hchoose c.trace c.mode e (hnext e (by rw [hk]; rfl))
    exact ⟨a, ha⟩
  have hticket := ticket_of_instant (h.mono fun _ _ _ => trivial) hinstant
  constructor
  · intro e he
    obtain ⟨trace, -, hallowed⟩ := permitted_of_performs hpermitted hnext he
    exact ⟨trace, hallowed⟩
  · exact returns_of_meets hchoose c.program c rfl hticket hmeets

/-- An invocation of a call that has its answer at hand. -/
theorem answered_of_prompt (hobeys : Obeys loaded (Numbered n) allows post program [])
    (hprompt : Prompt loaded n [] program)
    (h : (Call.machine token loaded program).ReachableBy (Plays (Numbered n) id) c) :
    (∀ e, Performs c e → Immediate e) ∧ ∃ trace r, post trace r ∧ Returns loaded c r := by
  obtain ⟨hallowed, hreturns⟩ := answered_of_obeys (fun _ _ _ he => numbered_drawing he.2)
    (obeys_prompt hobeys hprompt) h
  refine ⟨fun e he => ?_, hreturns⟩
  obtain ⟨-, -, himmediate⟩ := hallowed e he
  exact himmediate

end

section

variable {codec : Codec V} {site : SerdesSite} {missing id token : String} {table loaded : Table}
  {program : Act V (DurableResult V)} {n : Nat}
  {s : Execution.State V (DurableResult V)} {c : Call.State V (DurableResult V)}

/-- All an invocation does is what a step may do. -/
structure Steplike (codec : Codec V) (site : SerdesSite) (missing : String) (loaded : Table)
    (id : String) (c : Call.State V (DurableResult V)) : Prop where
  noted : c.Noted loaded id
  permitted : Permitted (Remembers codec site loaded id) c.trace
  next : ∀ e, c.program.next = some e → Remembers codec site loaded id c.trace e
  recounts : ∀ r, c.program = .ret r → Recounts codec site missing loaded id c.trace r

theorem Steplike.stepWise (h : Steplike codec site missing loaded id c) :
    c.Noted loaded id ∧ Permitted (StepWise loaded id (Keeps codec site)) c.trace ∧
      ∀ e, c.program.next = some e → StepWise loaded id (Keeps codec site) c.trace e :=
  ⟨h.noted, h.permitted.mono fun _ _ he => he.stepWise, fun e he => (h.next e he).stepWise⟩

/-- An invocation that loads a final record waits for nothing, and returns what is in it. -/
structure Recollects (codec : Codec V) (site : SerdesSite) (missing : String) (loaded : Table)
    (id : String) (c : Call.State V (DurableResult V)) : Prop where
  immediate : ∀ e, Performs c e → Immediate e
  returns : ∃ r, Recalls codec site missing r (standing (loaded id)).result ∧ Returns loaded c r

/-- What is replayed of a value with this encoding. -/
def recalled (missing : String) (value : V) : Option String → DurableResult V
  | some _ => .ok value
  | none => .error (.internal missing)

theorem Recalls.eq_recalled {value : V} {payload : Option String} {r : DurableResult V}
    (hdecoded : codec.deserialize payload site.context = .ok (some value))
    (h : Recalls codec site missing r payload) : r = recalled missing value payload := by
  cases payload with
  | some payload => exact h value hdecoded
  | none => exact h

/-- An invocation that loads a final record with the payload replays the value. -/
theorem Steplike.replayed {payload : Option String} {value : V}
    (h : Steplike codec site missing loaded id c)
    (hrecollects : Recollects codec site missing loaded id c)
    (hverdict : (standing (loaded id)).verdict = some .succeeded)
    (hresult : (standing (loaded id)).result = payload)
    (hdecoded : codec.deserialize payload site.context = .ok (some value)) :
    Replayed loaded id (recalled missing value payload) c := by
  have hfinal : loaded.terminal id = true := by
    by_contra hopen
    rw [verdict_of_open (Bool.not_eq_true _ ▸ hopen)] at hverdict
    cases hverdict
  obtain ⟨himmediate, r, hrecalls, hreturns⟩ := hrecollects
  constructor
  · intro e he
    obtain ⟨earlier, -, hallowed⟩ := permitted_of_performs h.permitted h.next he
    by_contra hruns
    rw [hallowed.closure (by simpa using hruns)] at hfinal
    cases hfinal
  · apply List.eq_nil_iff_forall_not_mem.mpr
    intro w hw
    obtain ⟨hasked, hid⟩ := List.mem_filter.mp hw
    obtain ⟨e, trace, he, hmem⟩ := allowed_of_askedFor h.permitted h.next hasked
    rw [he.stepWise.unfinished w hmem (by simpa using hid)] at hfinal
    cases hfinal
  · exact himmediate
  · rw [hresult] at hrecalls
    rwa [hrecalls.eq_recalled hdecoded] at hreturns
  · intro r hr
    have hrecalls := (h.recounts r hr).succeeded hverdict
    rw [hresult] at hrecalls
    exact hrecalls.eq_recalled hdecoded

theorem replayed_of_steplike (hundoes : codec.Undoes)
    (hcall : ∀ token loaded c, (Call.machine token loaded program).ReachableBy
      (Plays (Numbered n) id) c → Steplike codec site missing loaded id c)
    (hrecollects : ∀ token loaded c, (Call.machine token loaded program).ReachableBy
      (Plays (Numbered n) id) c → (standing (loaded id)).verdict = some .succeeded →
      Readable codec (standing (loaded id)).result site.context →
      Recollects codec site missing loaded id c)
    (htable : OfType .step (table id))
    (h : (Execution.machine token table program).ReachableBy
      (Execution.Within (Plays (Numbered n) id)) s)
    (hc : c ∈ s.past) {u : OperationUpdate} (hu : u ∈ c.acks id) (hsucceed : u.action = .succeed)
    {value : V} (hreturned : c.program = .ret (.ok value)) :
    ∃ payload, codec.serialize (some value) site.context = .ok payload ∧
      Replayed s.loaded id (recalled missing value payload) s.call := by
  obtain ⟨-, hsettled⟩ := Execution.settled_of_past (fun _ => Keeps codec site)
    (fun token loaded c hreach => (hcall token loaded c hreach).stepWise) htable h
  obtain ⟨hverdict, hresult, -, token', loaded, hreach, hopen, u', earlier, hsuffix, hkeeps, hkept⟩ :=
    hsettled c hc u hu .succeeded (by rw [hsucceed]; rfl)
  have haction : u.action = u'.action := congrArg Prod.fst hkept
  have hpayload : u.payload = u'.payload := congrArg (·.2.1) hkept
  obtain ⟨value', hproduced, hserialize⟩ := hkeeps (haction ▸ hsucceed)
  have hlive := ((hcall _ _ _ hreach).recounts _ hreturned).live (open_of_verdict hopen) value rfl
  obtain rfl : value' = value :=
    Option.some.inj ((produced_of_suffix hsuffix hproduced).symm.trans hlive)
  refine ⟨u'.payload, hserialize, ?_⟩
  obtain ⟨token'', hreach'⟩ := Execution.call_reachable h
  have hrecorded : (standing (s.loaded id)).result = u'.payload := hresult.trans hpayload
  have hdecoded := hundoes _ _ _ hserialize
  have hreadable : Readable codec (standing (s.loaded id)).result site.context := by
    intro p hp
    rw [← hrecorded, hp] at hdecoded
    exact ⟨_, hdecoded⟩
  have hrecollects' := hrecollects _ _ _ hreach' hverdict hreadable
  exact (hcall _ _ _ hreach').replayed hrecollects' hverdict hrecorded hdecoded

end

section

variable {ctx : ExecutionContext} {name : Option String} {n : Nat} {token : String} {loaded : Table}
  {c : Call.State V (DurableResult V)}

theorem steplike_of_step {config : StepConfig V}
    (h : (Call.machine token loaded (ctx.step name userStep config)).ReachableBy
      (Plays (Numbered n) (callId ctx name n)) c) :
    Steplike config.codec (ctx.site (callId ctx name n) name) "Missing step output in replay" loaded
      (callId ctx name n) c := by
  obtain ⟨hpermitted, hnext, hpost⟩ := obeys_of_reachable numbered_of_not_chosen remembers_step h
  exact ⟨noted_of_reachableBy (fun _ _ hl => hl.alone) h, hpermitted, hnext, hpost⟩

theorem succeeded_of_standing (h : (standing (loaded (callId ctx name n))).verdict = some .succeeded) :
    ∃ op, loaded (callId ctx name n) = some op ∧ op.status = .succeeded ∧
      (standing (loaded (callId ctx name n))).result = op.stepDetails.bind (·.result) := by
  cases hop : loaded (callId ctx name n) with
  | none =>
    rw [hop] at h
    cases h
  | some op =>
    refine ⟨op, rfl, ?_, rfl⟩
    rw [hop] at h
    simp only [standing, Option.bind_some] at h
    split at h
    · exact Option.some.inj h
    · cases h

theorem recollects_of_step {config : StepConfig V}
    (h : (Call.machine token loaded (ctx.step name userStep config)).ReachableBy
      (Plays (Numbered n) (callId ctx name n)) c)
    (hverdict : (standing (loaded (callId ctx name n))).verdict = some .succeeded)
    (hreadable : Readable config.codec (standing (loaded (callId ctx name n))).result
      (ctx.site (callId ctx name n) name).context) :
    Recollects config.codec (ctx.site (callId ctx name n) name) "Missing step output in replay" loaded
      (callId ctx name n) c := by
  obtain ⟨op, hop, hsucceeded, hresult⟩ := succeeded_of_standing hverdict
  rw [hresult] at hreadable
  have hprompt : Prompt loaded n [] (ctx.step name userStep config) :=
    prompt_of_forget (prompt_step hop config (Or.inr ⟨hsucceeded, hreadable⟩))
  obtain ⟨himmediate, _, r, hrecounts, hreturns⟩ := answered_of_prompt remembers_step hprompt h
  exact ⟨himmediate, r, hrecounts.succeeded hverdict, hreturns⟩

theorem Keeps.of_concludes {config : WaitConditionConfig V} {site : SerdesSite} {attempt : Nat}
    {trace : List (Event V)} {u : OperationUpdate}
    (h : WaitCondition.Concludes config site name attempt trace u) : Keeps config.codec site trace u := by
  intro hsucceed
  simpa [WaitCondition.Concludes, hsucceed] using h

theorem Remembers.of_threads {config : WaitConditionConfig V} {site : SerdesSite} {id : String}
    {trace : List (Event V)} {e : Effect V}
    (h : WaitCondition.Threads config site name loaded id trace e) :
    Remembers config.codec site loaded id trace e where
  stepWise :=
    { h.stepWise with
      opens := fun u hu hid => by
        obtain ⟨hsent, hcase⟩ := h.stepWise.opens u hu hid
        exact ⟨hsent, hcase.imp_right Keeps.of_concludes⟩ }
  closure := h.closure

theorem steplike_of_waitForCondition {config : WaitConditionConfig V}
    (h : (Call.machine token loaded (ctx.waitForCondition name config)).ReachableBy
      (Plays (Numbered n) (callId ctx name n)) c) :
    Steplike config.codec (ctx.site (callId ctx name n) name)
      "Missing wait-for-condition result in replay" loaded (callId ctx name n) c := by
  obtain ⟨hnoted, hpermitted, hnext, hreports⟩ := WaitCondition.threads_of_reachable h
  refine ⟨hnoted, hpermitted.mono fun _ _ => Remembers.of_threads,
    fun e he => .of_threads (hnext e he), fun r hr => ?_⟩
  exact ⟨fun hopen => ((hreports r hr).live hopen).2, (hreports r hr).succeeded⟩

theorem recollects_of_waitForCondition {config : WaitConditionConfig V}
    (h : (Call.machine token loaded (ctx.waitForCondition name config)).ReachableBy
      (Plays (Numbered n) (callId ctx name n)) c)
    (hverdict : (standing (loaded (callId ctx name n))).verdict = some .succeeded)
    (hreadable : Readable config.codec (standing (loaded (callId ctx name n))).result
      (ctx.site (callId ctx name n) name).context) :
    Recollects config.codec (ctx.site (callId ctx name n) name)
      "Missing wait-for-condition result in replay" loaded (callId ctx name n) c := by
  obtain ⟨op, hop, hsucceeded, hresult⟩ := succeeded_of_standing hverdict
  rw [hresult] at hreadable
  have hprompt : Prompt loaded n [] (ctx.waitForCondition name config) :=
    prompt_of_forget (prompt_waitForCondition hop config (Or.inr ⟨hsucceeded, hreadable⟩))
  obtain ⟨himmediate, _, r, hreports, hreturns⟩ :=
    answered_of_prompt WaitCondition.threads_waitForCondition hprompt h
  exact ⟨himmediate, r, hreports.succeeded hverdict, hreturns⟩

end

/-- Nothing final has been acknowledged. -/
def Execution.Unsettled (id : String) (past : List (Call.State V (DurableResult V))) : Prop :=
  ∀ c ∈ past, ∀ u ∈ c.acks id, verdictOf u.action = none

/-! ## Child contexts -/

namespace Child

/-- SUCCEED is made of the encoding of the value just computed. -/
def Keeps (ctx : ExecutionContext) (name : Option String) (id : String)
    (config : ChildContextConfig V) (trace : List (Event V)) (u : OperationUpdate) : Prop :=
  u.action = .succeed → ∃ value payload, produced trace = some value ∧
    config.codec.serialize (some value) (ctx.site id name).context = .ok payload ∧
    kept u = kept (succeedUpdate ctx name id config.subType payload)

/-- The record holds a value. -/
def Holds (codec : Codec V) (site : SerdesSite) (st : ContextStanding) (value : V) : Prop :=
  st.verdict = some .succeeded ∧ st.replayChildren ≠ some true ∧ ∃ payload,
    st.result = some payload ∧ codec.deserialize (some payload) site.context = .ok (some value)

/-- The record asks for its children. -/
def Rebuilds (st : ContextStanding) : Prop :=
  st.verdict = some .succeeded ∧ st.replayChildren = some true

/-- The record has no payload. -/
def Bare (st : ContextStanding) : Prop :=
  st.verdict = some .succeeded ∧ st.replayChildren ≠ some true ∧ st.result = none ∧
    st.outputPayload = none

/-- What a child context may do. -/
structure Remembers (ctx : ExecutionContext) (name : Option String) (id : String)
    (config : ChildContextConfig V) (loaded : Table) (trace : List (Event V)) (e : Effect V) :
    Prop where
  contextWise : ContextWise id (Keeps ctx name id config) trace e
  closure : e.runsClosure = true →
    ∀ value, ¬ Holds config.codec (ctx.site id name) (contextStanding (loaded id)) value
  updates : ∀ u ∈ e.updates, u.id = id →
    (∀ value, ¬ Holds config.codec (ctx.site id name) (contextStanding (loaded id)) value) ∧
      ¬ Rebuilds (contextStanding (loaded id))

/-- What a child context returns. -/
structure Recounts (ctx : ExecutionContext) (name : Option String) (id : String)
    (config : ChildContextConfig V) (loaded : Table) (trace : List (Event V)) (r : DurableResult V) :
    Prop where
  live : (contextStanding (loaded id)).verdict = none → ∀ value, r = .ok value →
    produced trace = some value
  held : ∀ value, Holds config.codec (ctx.site id name) (contextStanding (loaded id)) value →
    r = .ok value
  rebuilt : Rebuilds (contextStanding (loaded id)) → ∃ hashedId counter,
    ⟨.contextFn hashedId counter, r⟩ ∈ trace
  bare : Bare (contextStanding (loaded id)) → ∃ event ∈ trace, event.1.runsClosure = true

section

variable {config : ChildContextConfig V} {ctx : ExecutionContext} {name : Option String} {n : Nat}
  {loaded : Table} {trace : List (Event V)} {T : Type}

abbrev Remembering (config : ChildContextConfig V) (ctx : ExecutionContext) (name : Option String)
    (n : Nat) (loaded : Table) (post : List (Event V) → T → Prop) (p : Act V T)
    (trace : List (Event V)) : Prop :=
  Obeys loaded (Numbered n) (Remembers ctx name (callId ctx name n) config loaded) post p trace

abbrev Recounting (config : ChildContextConfig V) (ctx : ExecutionContext) (name : Option String)
    (n : Nat) (loaded : Table) : List (Event V) → DurableResult V → Prop :=
  Recounts ctx name (callId ctx name n) config loaded

/-- The closure runs again, and the result is recorded again. -/
def Reruns (config : ChildContextConfig V) (ctx : ExecutionContext) (name : Option String)
    (n : Nat) (loaded : Table) : Prop :=
  (∀ value, ¬ Holds config.codec (ctx.site (callId ctx name n) name)
    (contextStanding (loaded (callId ctx name n))) value) ∧
    ¬ Rebuilds (contextStanding (loaded (callId ctx name n)))

theorem Remembers.of_quiet {id : String} {e : Effect V} (hupdates : e.updates = [])
    (he : e.runsClosure = false) : Remembers ctx name id config loaded trace e where
  contextWise := .of_quiet hupdates
  closure hclosure := by
    rw [he] at hclosure
    cases hclosure
  updates u hu := by
    rw [hupdates] at hu
    cases hu

theorem Remembers.of_update {stepId : String} {u : OperationUpdate} (htype : u.operationType = .context)
    (hreruns : Reruns config ctx name n loaded)
    (hsent : ∀ v ∈ naming (callId ctx name n) (sent trace), Opening v)
    (hu : Opening u ∨ Keeps ctx name (callId ctx name n) config trace u) :
    Remembers ctx name (callId ctx name n) config loaded trace (.checkpoint stepId u) := by
  have hmem : ∀ v ∈ (Effect.checkpoint stepId u : Effect V).updates, v = u :=
    fun v hv => List.mem_singleton.mp hv
  constructor
  · constructor
    · intro v hv _
      rw [hmem v hv]
      exact ⟨hsent, hu⟩
    · intro v hv _
      rw [hmem v hv, htype]
  · intro hclosure
    cases hclosure
  · exact fun _ _ _ => hreruns

theorem remembers_quit {id : String} (result : TerminationResult) :
    Remembers ctx name id config loaded trace (.terminate result) ∧
      Remembers ctx name id config loaded (⟨.terminate result, ()⟩ :: trace) .pending :=
  ⟨.of_quiet rfl rfl, .of_quiet rfl rfl⟩

theorem Recounts.of_reruns (hreruns : Reruns config ctx name n loaded) {r : DurableResult V}
    (hok : ∀ value, r = .ok value → produced trace = some value)
    (hran : ∃ event ∈ trace, event.1.runsClosure = true) :
    Recounting config ctx name n loaded trace r where
  live _ := hok
  held value hvalue := absurd hvalue (hreruns.1 value)
  rebuilt h := absurd h hreruns.2
  bare _ := hran

theorem remembers_finishChild (hreruns : Reruns config ctx name n loaded) {stepId : String}
    {outcome : DurableResult V}
    (hproduced : ∀ value, outcome = .ok value → produced trace = some value)
    (hran : ∃ event ∈ trace, event.1.runsClosure = true)
    (hsent : ∀ v ∈ naming (callId ctx name n) (sent trace), Opening v) :
    Remembering config ctx name n loaded (Recounting config ctx name n loaded)
      (finishChild ctx stepId (callId ctx name n) name config.subType config.codec outcome) trace := by
  obtain ⟨event, hmem, hruns⟩ := hran
  cases outcome with
  | ok result =>
    refine obeys_safeSerialize remembers_quit fun payload hpayload => ?_
    apply obeys_checkpoint (succeedUpdate_buildable ..)
    · apply Remembers.of_update _ hreruns hsent
      · exact Or.inr fun _ => ⟨result, payload, hproduced result rfl, hpayload, rfl⟩
      · unfold succeedUpdate
        split <;> rfl
    · apply Recounts.of_reruns hreruns
      · rintro _ ⟨⟩
        rw [produced_cons rfl]
        exact hproduced result rfl
      · exact ⟨event, List.mem_cons_of_mem _ hmem, hruns⟩
  | error error =>
    apply obeys_checkpoint (failUpdate_buildable ..)
    · exact Remembers.of_update rfl hreruns hsent (Or.inr fun h => by cases h)
    · apply Recounts.of_reruns hreruns
      · rintro _ ⟨⟩
      · exact ⟨event, List.mem_cons_of_mem _ hmem, hruns⟩

theorem remembers_runChildExecution (hreruns : Reruns config ctx name n loaded) {stepId : String}
    (h : Untouched (callId ctx name n) trace) :
    Remembering config ctx name n loaded (Recounting config ctx name n loaded)
      (runChildExecution ctx stepId (callId ctx name n) name userContext config.subType config.codec)
      trace := by
  simp only [runChildExecution, getStepData_bind]
  refine obeys_act (.of_quiet rfl rfl) fun operation _ _ => ?_
  have h := h.cons (e := .getStepData (callId ctx name n)) (a := operation) rfl rfl
  refine Prog.Meets.andThen (m := fun trace r => r = .ok () ∧ produced trace = none ∧
    ∀ v ∈ naming (callId ctx name n) (sent trace), Opening v) ?_ ?_ ?_
  · cases operation with
    | none =>
      change Obeys _ _ _ _ (checkpoint _ _ _) _
      rw [checkpoint_of_build (update_buildable ..)]
      apply obeys_act
      · exact .of_update rfl hreruns h.opening (Or.inl ⟨rfl, rfl, rfl, rfl⟩)
      rintro _ rfl _
      refine ⟨rfl, (produced_cons rfl).trans h.2, fun v hv => ?_⟩
      rw [sent, naming_append, h.1] at hv
      rw [List.mem_singleton.mp (List.mem_filter.mp hv).1]
      exact ⟨rfl, rfl, rfl, rfl⟩
    | some op => exact ⟨rfl, h.2, h.opening⟩
  · rintro _ trace ⟨-, hproduced, hsent⟩
    refine obeys_act (.of_quiet rfl rfl) fun counter _ _ => ?_
    apply obeys_act
    · exact ⟨.of_quiet rfl, fun _ => hreruns.1, fun _ hu => by cases hu⟩
    intro outcome _ _
    apply remembers_finishChild hreruns
    · rintro value rfl
      exact produced_computed ((produced_cons rfl).trans hproduced) rfl
    · exact ⟨_, List.mem_cons_self, rfl⟩
    · rwa [sent_cons_quiet rfl, sent_cons_quiet rfl]
  · rintro _ _ ⟨⟨⟩, -⟩

/-- What `evaluate_replay` leaves to do. -/
def Leaves (config : ChildContextConfig V) (ctx : ExecutionContext) (name : Option String)
    (n : Nat) (loaded : Table) (trace : List (Event V)) : DurableResult (ReplayDecision V) → Prop
  | .ok (.return value) => Recounting config ctx name n loaded trace (.ok value)
  | .ok .replayChildren => Rebuilds (contextStanding (loaded (callId ctx name n)))
  | .ok .continue => Reruns config ctx name n loaded ∧ Untouched (callId ctx name n) trace
  | .error e => Recounting config ctx name n loaded trace (.error e)

theorem obeys_fromPayload {S : Type} {codec : Codec V} {payload : Option String} {site : SerdesSite}
    {allows : List (Event V) → Effect V → Prop} {post : List (Event V) → S → Prop}
    {f : Option V → Act V S} (hquit : ∀ result, allows trace (.terminate result) ∧
      allows (⟨.terminate result, ()⟩ :: trace) .pending)
    (hf : ∀ value, (∀ p, payload = some p → codec.deserialize (some p) site.context = .ok value) →
      (payload = none → value = none) → Obeys loaded (Numbered n) allows post (f value) trace) :
    Obeys loaded (Numbered n) allows post (fromPayload codec payload site >>= f) trace := by
  cases payload with
  | none => exact hf none (by rintro _ ⟨⟩) fun _ => rfl
  | some p =>
    refine obeys_safeDeserialize hquit fun value hvalue => hf value ?_ (by rintro ⟨⟩)
    rintro _ ⟨⟩
    exact hvalue

theorem remembers_evaluateReplay {stepId : String} (h : Untouched (callId ctx name n) trace) :
    Remembering config ctx name n loaded (Leaves config ctx name n loaded)
      (evaluateReplay ctx (loaded (callId ctx name n)) config.codec (callId ctx name n) stepId name)
      trace := by
  have hopen : (contextStanding (loaded (callId ctx name n))).verdict ≠ some .succeeded →
      Reruns config ctx name n loaded :=
    fun hverdict => ⟨fun _ hholds => hverdict hholds.1, fun hrebuilds => hverdict hrebuilds.1⟩
  cases hop : loaded (callId ctx name n) with
  | none =>
    refine ⟨hopen ?_, h⟩
    simp [contextStanding, hop]
  | some op =>
    have hst : contextStanding (loaded (callId ctx name n)) =
        ⟨op.contextDetails.bind (·.result), op.contextDetails.bind (·.replayChildren),
          op.executionDetails.bind (·.outputPayload),
          if op.status.isTerminal then some op.status else none⟩ := by
      rw [hop]
      rfl
    simp only [evaluateReplay]
    cases hstatus : op.status with
    | succeeded =>
      rw [hstatus] at hst
      dsimp only
      split
      · rename_i hreplay
        refine ⟨?_, ?_⟩
        · rw [hst]
          rfl
        · rw [hst]
          simpa [Operation.replayChildren] using hreplay
      · rename_i hreplay
        have hplain : op.contextDetails.bind (·.replayChildren) ≠ some true := by
          simpa [Operation.replayChildren] using hreplay
        have hrebuilds : ¬ Rebuilds (contextStanding (loaded (callId ctx name n))) := by
          rw [hst]
          exact fun h => hplain h.2
        refine obeys_fromPayload remembers_quit fun value hvalue hnone => ?_
        cases value with
        | some value =>
          constructor
          · rw [hst]
            rintro ⟨⟩
          · rintro value' ⟨-, -, payload, hpayload, hdecoded⟩
            rw [hst] at hpayload
            rw [hvalue payload hpayload] at hdecoded
            cases hdecoded
            rfl
          · exact fun h => absurd h hrebuilds
          · rintro ⟨-, -, hbare, -⟩
            rw [hst] at hbare
            cases hnone hbare
        | none =>
          have hholds : ∀ value, ¬ Holds config.codec (ctx.site (callId ctx name n) name)
              (contextStanding (loaded (callId ctx name n))) value := by
            rintro value' ⟨-, -, payload, hpayload, hdecoded⟩
            rw [hst] at hpayload
            rw [hvalue payload hpayload] at hdecoded
            cases hdecoded
          refine obeys_fromPayload remembers_quit fun older _ holder => ?_
          cases older with
          | some value =>
            constructor
            · rw [hst]
              rintro ⟨⟩
            · exact fun value h => absurd h (hholds value)
            · exact fun h => absurd h hrebuilds
            · rintro ⟨-, -, -, hbare⟩
              rw [hst] at hbare
              cases holder hbare
          | none => exact ⟨⟨hholds, hrebuilds⟩, h⟩
    | failed =>
      rw [hstatus] at hst
      constructor
      · rw [hst]
        rintro ⟨⟩
      · rintro value ⟨hverdict, -⟩
        rw [hst] at hverdict
        cases hverdict
      · rintro ⟨hverdict, -⟩
        rw [hst] at hverdict
        cases hverdict
      · rintro ⟨hverdict, -⟩
        rw [hst] at hverdict
        cases hverdict
    | pending | ready | started | unknown =>
      refine obeys_act (.of_quiet rfl rfl) fun _ _ _ => ⟨hopen ?_, h.cons rfl rfl⟩
      rw [hst, hstatus]
      rintro ⟨⟩

theorem remembers_runInChildContext :
    Remembering config ctx name n loaded (Recounting config ctx name n loaded)
      (ctx.runInChildContext name userContext config) [] := by
  simp only [ExecutionContext.runInChildContext, nextOperationId_bind,
    ExecutionContext.runInChildContextWithIds, getStepData_bind]
  refine obeys_act (.of_quiet rfl rfl) fun counter _ hcounter => ?_
  obtain rfl : counter = n := hcounter
  refine obeys_act (.of_quiet rfl rfl) fun operation hop _ => ?_
  obtain rfl : operation = loaded (callId ctx name counter) := hop
  have huntouched : Untouched (callId ctx name counter)
      [⟨Effect.getStepData (callId ctx name counter), loaded (callId ctx name counter)⟩,
        ⟨Effect.fetchAdd ctx.operationCounter, (counter : Nat)⟩] := ⟨rfl, rfl⟩
  refine Prog.Meets.andThen (remembers_evaluateReplay huntouched) (fun decision trace hr => ?_)
    fun e trace hr => hr
  cases decision with
  | «return» value => exact hr
  | replayChildren =>
    have hrebuilds : Rebuilds (contextStanding (loaded (callId ctx name counter))) := hr
    refine obeys_act (.of_quiet rfl rfl) fun child _ _ => ?_
    apply obeys_act
    · exact ⟨.of_quiet rfl, fun _ _ hholds => hholds.2.1 hrebuilds.2, fun _ hu => by cases hu⟩
    intro outcome _ _
    constructor
    · rw [hrebuilds.1]
      rintro ⟨⟩
    · exact fun value hholds => absurd hrebuilds.2 hholds.2.1
    · exact fun _ => ⟨_, _, List.mem_cons_self⟩
    · exact fun _ => ⟨_, List.mem_cons_self, rfl⟩
  | «continue» => exact remembers_runChildExecution hr.1 hr.2

end

section

variable {config : ChildContextConfig V} {ctx : ExecutionContext} {name : Option String} {n : Nat}
  {loaded : Table} {value : V}

/-- Nothing but the closure of a child context is waited for. -/
def Waits (e : Effect V) : Prop :=
  Immediate e ∨ ∃ hashedId counter, e = .contextFn hashedId counter

theorem succeeded_of_contextStanding {id : String}
    (h : (contextStanding (loaded id)).verdict = some .succeeded) :
    ∃ op, loaded id = some op ∧ op.status = .succeeded := by
  cases hop : loaded id with
  | none =>
    rw [hop] at h
    cases h
  | some op =>
    refine ⟨op, rfl, ?_⟩
    rw [hop] at h
    simp only [contextStanding, Option.bind_some] at h
    split at h
    · exact Option.some.inj h
    · cases h

theorem prompt_runInChildContext (h : Holds config.codec (ctx.site (callId ctx name n) name)
    (contextStanding (loaded (callId ctx name n))) value) :
    Prompt loaded n [] (ctx.runInChildContext name userContext config) := by
  obtain ⟨hverdict, hreplay, payload, hpayload, hdecoded⟩ := h
  obtain ⟨op, hop, hsucceeded⟩ := succeeded_of_contextStanding hverdict
  rw [hop] at hreplay hpayload
  have hplain : op.replayChildren = false := by
    simpa [Operation.replayChildren, contextStanding] using hreplay
  have hresult : op.contextDetails.bind (·.result) = some payload := hpayload
  simp only [ExecutionContext.runInChildContext, nextOperationId_bind,
    ExecutionContext.runInChildContextWithIds, getStepData_bind]
  refine prompt_fetchAdd fun _ => prompt_getStepData fun _ => ?_
  have hdecoded' : config.codec.deserialize (some payload)
      (ctx.site (ctx.hashId (ctx.operationId name n)) name).context = .ok (some value) := hdecoded
  simp only [hop, evaluateReplay, hsucceeded, hplain, hresult, fromPayload, safeDeserialize,
    hdecoded', Bool.false_eq_true, if_false, Prog.ret_bind, Prog.ret_ok_andThen]
  trivial

theorem obeys_rebuilds (h : Rebuilds (contextStanding (loaded (callId ctx name n)))) :
    Obeys loaded (Numbered n) (fun _ => Waits) (fun _ _ => True)
      (ctx.runInChildContext name userContext config) [] := by
  obtain ⟨op, hop, hsucceeded⟩ := succeeded_of_contextStanding h.1
  have hreplay := h.2
  rw [hop] at hreplay
  have hasks : op.replayChildren = true := by
    simpa [Operation.replayChildren, contextStanding] using hreplay
  simp only [ExecutionContext.runInChildContext, nextOperationId_bind,
    ExecutionContext.runInChildContextWithIds, getStepData_bind]
  refine obeys_act (Or.inl trivial) fun counter _ hcounter => ?_
  obtain rfl : counter = n := hcounter
  refine obeys_act (Or.inl trivial) fun operation hoperation _ => ?_
  obtain rfl : operation = some op := hoperation.trans hop
  simp only [evaluateReplay, hsucceeded, hasks, if_true, Prog.ret_ok_andThen]
  refine obeys_act (Or.inl trivial) fun child _ _ => ?_
  exact obeys_act (Or.inr ⟨_, _, rfl⟩) fun _ _ _ => trivial

/-- The closure returns an error. -/
def giving (n : Nat) : (e : Effect V) → Option (Answer e)
  | .contextFn _ _ => some (.error (.internal ""))
  | e => drawing n e

theorem numbered_giving {mode : ExecutionMode} {e : Effect V} (he : Waits e) :
    ∃ a, instant loaded mode (giving n) e = some a ∧ Call.Answers loaded e a ∧ Numbered n e a := by
  obtain himmediate | ⟨hashedId, counter, rfl⟩ := he
  · obtain ⟨a, ha, hanswers⟩ :
        ∃ a, instant loaded mode (drawing n) e = some a ∧ Answers loaded e a ∧ Numbered n e a :=
      numbered_drawing himmediate
    refine ⟨a, ?_, hanswers⟩
    cases e <;> first | exact ha | exact himmediate.elim
  · exact ⟨_, rfl, trivial, trivial⟩

end

section

variable {config : ChildContextConfig V} {ctx : ExecutionContext} {name : Option String} {n : Nat}
  {token : String} {loaded : Table} {c : Call.State V (DurableResult V)}
  {past : List (Call.State V (DurableResult V))}

theorem remembers_of_reachable
    (h : (Call.machine token loaded (ctx.runInChildContext name userContext config)).ReachableBy
      (Plays (Numbered n) (callId ctx name n)) c) :
    c.Noted loaded (callId ctx name n) ∧
      Permitted (Remembers ctx name (callId ctx name n) config loaded) c.trace ∧
      (∀ e, c.program.next = some e →
        Remembers ctx name (callId ctx name n) config loaded c.trace e) ∧
      ∀ r, c.program = .ret r → Recounting config ctx name n loaded c.trace r :=
  ⟨noted_of_reachableBy (fun _ _ hl => hl.alone) h,
    obeys_of_reachable numbered_of_not_chosen remembers_runInChildContext h⟩

/-- The invocation whose update made the record final. -/
structure Finishes (config : ChildContextConfig V) (ctx : ExecutionContext) (name : Option String)
    (n : Nat) (c : Call.State V (DurableResult V)) (u : OperationUpdate) : Prop where
  keeps : ∃ earlier u', earlier <:+ c.trace ∧ Keeps ctx name (callId ctx name n) config earlier u' ∧
    kept u = kept u'
  returned : ∀ value, c.program = .ret (.ok value) → produced c.trace = some value

/-- The record is the one that the first acknowledged SUCCEED left. -/
structure Records (config : ChildContextConfig V) (ctx : ExecutionContext) (name : Option String)
    (n : Nat) (past : List (Call.State V (DurableResult V))) (loaded : Table) : Prop where
  operationType : OfType .context (loaded (callId ctx name n))
  outputPayload : (contextStanding (loaded (callId ctx name n))).outputPayload = none
  unsettled : Execution.Unsettled (callId ctx name n) past →
    (contextStanding (loaded (callId ctx name n))).verdict = none
  first : ∀ later c earlier u, past = later ++ c :: earlier →
    Execution.Unsettled (callId ctx name n) earlier → u ∈ c.acks (callId ctx name n) → u.action = .succeed →
    contextStanding (loaded (callId ctx name n)) =
      ⟨u.payload, u.contextOptions.bind (·.replayChildren), none, some .succeeded⟩ ∧
      Finishes config ctx name n c u

theorem Records.next (h : Records config ctx name n past loaded)
    (hcall : (Call.machine token loaded (ctx.runInChildContext name userContext config)).ReachableBy
      (Plays (Numbered n) (callId ctx name n)) c) : Records config ctx name n (c :: past) c.backend := by
  obtain ⟨hnoted, hpermitted, hnext, hrecounts⟩ := remembers_of_reachable hcall
  obtain ⟨closing, ⟨starts, hacks, hstarts⟩, htype, hstanding, hclosing⟩ := hnoted.contextStanding
    (hpermitted.mono fun _ _ he => he.contextWise) (fun e he => (hnext e he).contextWise)
    h.operationType
  have hended : ∀ u ∈ c.acks (callId ctx name n), (verdictOf u.action).isSome → closing = some u := by
    intro u hu hfinal
    rw [hacks] at hu
    obtain hu | hu := List.mem_append.mp hu
    · rw [(hstarts u hu).action] at hfinal
      cases hfinal
    · exact Option.mem_toList.mp hu
  have hfrozen : ∀ v ∈ closing, (contextStanding (loaded (callId ctx name n))).verdict.isSome →
      (contextStanding (loaded (callId ctx name n))).after v =
        contextStanding (loaded (callId ctx name n)) :=
    fun v _ hfinal => if_pos hfinal
  constructor
  · exact htype
  · rw [hstanding]
    cases closing with
    | none => exact h.outputPayload
    | some v =>
      simp only [Option.elim_some, ContextStanding.after]
      split
      · exact h.outputPayload
      · split
        · exact h.outputPayload
        · exact h.outputPayload
  · intro hunsettled
    have hopen := h.unsettled fun c' hc' => hunsettled c' (List.mem_cons_of_mem _ hc')
    rw [hstanding]
    cases closing with
    | none => exact hopen
    | some v =>
      have hv : v ∈ c.acks (callId ctx name n) := by
        rw [hacks]
        exact List.mem_append_right _ (by simp)
      simp [ContextStanding.after, hopen, hunsettled c List.mem_cons_self v hv]
  · intro later c' earlier u hpast hearlier hu hsucceed
    have hfinal : verdictOf u.action = some .succeeded := by
      rw [hsucceed]
      rfl
    cases later with
    | nil =>
      obtain ⟨rfl, rfl⟩ := List.cons.inj hpast
      have hopen := h.unsettled hearlier
      have hclosed := hended u hu (by rw [hfinal]; rfl)
      subst hclosed
      constructor
      · rw [hstanding]
        simp [ContextStanding.after, hopen, hfinal, h.outputPayload]
      · obtain ⟨u', trace, hsuffix, hkeeps, hkept⟩ := hclosing u rfl
        exact ⟨⟨trace, u', hsuffix, hkeeps, hkept⟩, fun value hreturned =>
          (hrecounts _ hreturned).live hopen value rfl⟩
    | cons c'' later =>
      obtain ⟨rfl, hrest⟩ := List.cons.inj hpast
      obtain ⟨hst, hfinishes⟩ := h.first later c' earlier u hrest hearlier hu hsucceed
      refine ⟨?_, hfinishes⟩
      rw [hstanding]
      cases closing with
      | none => exact hst
      | some v =>
        have hsame := hfrozen v rfl (by rw [hst]; rfl)
        exact hsame.trans hst

/-- The closure runs, and what it returns is returned; no update is sent, and nothing but the
closure is waited for. -/
structure Rebuilt (loaded : Table) (id : String) (c : Call.State V (DurableResult V)) : Prop where
  updates : naming id c.askedFor = []
  waits : ∀ e, Performs c e → Waits e
  returns : ∃ r, Returns loaded c r
  only : ∀ r, c.program = .ret r → ∃ hashedId counter, ⟨.contextFn hashedId counter, r⟩ ∈ c.trace

/-- What is replayed of a value with this encoding. -/
def ReplaysAs (loaded : Table) (id : String) (value : V) (payload : Option String)
    (c : Call.State V (DurableResult V)) : Prop :=
  match payload with
  | some p =>
    if p.utf8ByteSize > checkpointSizeLimitBytes then Rebuilt loaded id c
    else Replayed loaded id (.ok value) c
  | none => ∀ r, c.program = .ret r → ∃ event ∈ c.trace, event.1.runsClosure = true

theorem records_nil {table : Table} (hnew : table (callId ctx name n) = none) :
    Records config ctx name n [] table := by
  constructor
  · intro op hop
    rw [hnew] at hop
    cases hop
  · rw [hnew]
    rfl
  · rw [hnew]
    exact fun _ => rfl
  · intro later c earlier u hnil
    cases later <;> cases hnil

/-- Nothing is sent of a child context whose record holds a value or asks for the closure. -/
theorem unsent_of_recorded
    (h : (Call.machine token loaded (ctx.runInChildContext name userContext config)).ReachableBy
      (Plays (Numbered n) (callId ctx name n)) c)
    (hrecorded : (∃ value, Holds config.codec (ctx.site (callId ctx name n) name)
      (contextStanding (loaded (callId ctx name n))) value) ∨
      Rebuilds (contextStanding (loaded (callId ctx name n)))) :
    naming (callId ctx name n) c.askedFor = [] := by
  obtain ⟨-, hpermitted, hnext, -⟩ := remembers_of_reachable h
  apply List.eq_nil_iff_forall_not_mem.mpr
  intro w hw
  obtain ⟨hasked, hid⟩ := List.mem_filter.mp hw
  obtain ⟨e, trace, he, hmem⟩ := allowed_of_askedFor hpermitted hnext hasked
  obtain ⟨hholds, hrebuilds⟩ := he.updates w hmem (by simpa using hid)
  obtain ⟨value, hvalue⟩ | hfinal := hrecorded
  · exact hholds value hvalue
  · exact hrebuilds hfinal

theorem replayed_of_holds {value : V}
    (h : (Call.machine token loaded (ctx.runInChildContext name userContext config)).ReachableBy
      (Plays (Numbered n) (callId ctx name n)) c)
    (hholds : Holds config.codec (ctx.site (callId ctx name n) name)
      (contextStanding (loaded (callId ctx name n))) value) :
    Replayed loaded (callId ctx name n) (.ok value) c := by
  obtain ⟨-, hpermitted, hnext, hrecounts⟩ := remembers_of_reachable h
  obtain ⟨himmediate, _, r, hrecalled, hreturns⟩ :=
    answered_of_prompt remembers_runInChildContext (prompt_runInChildContext hholds) h
  constructor
  · intro e he
    obtain ⟨trace, -, hallowed⟩ := permitted_of_performs hpermitted hnext he
    by_contra hruns
    exact hallowed.closure (by simpa using hruns) value hholds
  · exact unsent_of_recorded h (Or.inl ⟨value, hholds⟩)
  · exact himmediate
  · rwa [hrecalled.held value hholds] at hreturns
  · exact fun r hr => (hrecounts r hr).held value hholds

theorem rebuilt_of_rebuilds
    (h : (Call.machine token loaded (ctx.runInChildContext name userContext config)).ReachableBy
      (Plays (Numbered n) (callId ctx name n)) c)
    (hrebuilds : Rebuilds (contextStanding (loaded (callId ctx name n)))) :
    Rebuilt loaded (callId ctx name n) c := by
  obtain ⟨-, -, -, hrecounts⟩ := remembers_of_reachable h
  obtain ⟨hwaits, -, r, -, hreturns⟩ :=
    answered_of_obeys (fun _ _ _ he => numbered_giving he) (obeys_rebuilds hrebuilds) h
  constructor
  · exact unsent_of_recorded h (Or.inr hrebuilds)
  · intro e he
    obtain ⟨-, hallowed⟩ := hwaits e he
    exact hallowed
  · exact ⟨r, hreturns⟩
  · exact fun r hr => (hrecounts r hr).rebuilt hrebuilds

theorem child_replayed (hundoes : config.codec.Undoes) {table : Table}
    (hnew : table (callId ctx name n) = none) {s : Execution.State V (DurableResult V)}
    (h : (Execution.machine token table (ctx.runInChildContext name userContext config)).ReachableBy
      (Execution.Within (Plays (Numbered n) (callId ctx name n))) s)
    {later earlier : List (Call.State V (DurableResult V))} (hpast : s.past = later ++ c :: earlier)
    (hfirst : Execution.Unsettled (callId ctx name n) earlier) {u : OperationUpdate}
    (hu : u ∈ c.acks (callId ctx name n)) (hsucceed : u.action = .succeed) {value : V}
    (hreturned : c.program = .ret (.ok value)) :
    ∃ payload, config.codec.serialize (some value) (ctx.site (callId ctx name n) name).context =
      .ok payload ∧ ReplaysAs s.loaded (callId ctx name n) value payload s.call := by
  have hrecords : Records config ctx name n s.past s.loaded :=
    Execution.loaded_invariant (records_nil hnew) (fun _ _ _ _ hcall hpast => hpast.next hcall) h
  obtain ⟨hst, ⟨trace, u', hsuffix, hkeeps, hkept⟩, hlive⟩ :=
    hrecords.first later c earlier u hpast hfirst hu hsucceed
  have haction : u.action = u'.action := congrArg Prod.fst hkept
  obtain ⟨value', payload, hproduced, hserialize, hkept'⟩ := hkeeps (haction ▸ hsucceed)
  obtain rfl : value' = value :=
    Option.some.inj ((produced_of_suffix hsuffix hproduced).symm.trans (hlive value hreturned))
  have hsame := hkept.trans hkept'
  have hpayload : u.payload = (succeedUpdate ctx name (callId ctx name n) config.subType
    payload).payload := congrArg (·.2.1) hsame
  have hoptions : u.contextOptions = (succeedUpdate ctx name (callId ctx name n) config.subType
    payload).contextOptions := congrArg (·.2.2.2) hsame
  refine ⟨payload, hserialize, ?_⟩
  obtain ⟨token', hcall⟩ := Execution.call_reachable h
  cases payload with
  | none =>
    obtain ⟨-, -, -, hrecounts⟩ := remembers_of_reachable hcall
    have hbare : Bare (contextStanding (s.loaded (callId ctx name n))) := by
      rw [hst, hpayload, hoptions]
      exact ⟨rfl, by rintro ⟨⟩, rfl, rfl⟩
    exact fun r hr => (hrecounts r hr).bare hbare
  | some p =>
    change if p.utf8ByteSize > checkpointSizeLimitBytes then Rebuilt _ _ _ else Replayed _ _ _ _
    simp only [succeedUpdate, Option.any_some, decide_eq_true_eq] at hpayload hoptions
    split
    · rename_i hlarge
      rw [if_pos hlarge] at hpayload hoptions
      apply rebuilt_of_rebuilds hcall
      rw [hst, hoptions]
      exact ⟨rfl, rfl⟩
    · rename_i hsmall
      rw [if_neg hsmall] at hpayload hoptions
      apply replayed_of_holds hcall
      rw [hst, hpayload, hoptions]
      exact ⟨rfl, by rintro ⟨⟩, p, rfl, hundoes _ _ _ hserialize⟩

end

end Child

/-! ## The three operations -/

inductive ValueOperation (V : Type)
  | step (config : StepConfig V)
  | waitForCondition (config : WaitConditionConfig V)
  | runInChildContext (config : ChildContextConfig V)

namespace ValueOperation

def codec : ValueOperation V → Codec V
  | .step config => config.codec
  | .waitForCondition config => config.codec
  | .runInChildContext config => config.codec

def program (ctx : ExecutionContext) (name : Option String) :
    ValueOperation V → Act V (DurableResult V)
  | .step config => ctx.step name userStep config
  | .waitForCondition config => ctx.waitForCondition name config
  | .runInChildContext config => ctx.runInChildContext name userContext config

/-- What a later invocation makes of a value with this encoding. -/
def ReplaysAs (loaded : Table) (id : String) (value : V) (payload : Option String)
    (c : Call.State V (DurableResult V)) : ValueOperation V → Prop
  | .step _ => Replayed loaded id (recalled "Missing step output in replay" value payload) c
  | .waitForCondition _ =>
    Replayed loaded id (recalled "Missing wait-for-condition result in replay" value payload) c
  | .runInChildContext _ => Child.ReplaysAs loaded id value payload c

end ValueOperation

/-- What becomes of a value once its SUCCEED is acknowledged. -/
theorem value_replayed {operation : ValueOperation V} {ctx : ExecutionContext}
    {name : Option String} {n : Nat} {token : String} {table : Table}
    (hundoes : operation.codec.Undoes) (hnew : table (callId ctx name n) = none)
    {s : Execution.State V (DurableResult V)}
    (h : (Execution.machine token table (operation.program ctx name)).ReachableBy
      (Execution.Within (Plays (Numbered n) (callId ctx name n))) s)
    {later earlier : List (Call.State V (DurableResult V))} {c : Call.State V (DurableResult V)}
    (hpast : s.past = later ++ c :: earlier)
    (hfirst : Execution.Unsettled (callId ctx name n) earlier) {u : OperationUpdate}
    (hu : u ∈ c.acks (callId ctx name n)) (hsucceed : u.action = .succeed) {value : V}
    (hreturned : c.program = .ret (.ok value)) :
    ∃ payload, operation.codec.serialize (some value) (ctx.site (callId ctx name n) name).context =
      .ok payload ∧ operation.ReplaysAs s.loaded (callId ctx name n) value payload s.call := by
  have hc : c ∈ s.past := hpast ▸ List.mem_append_right _ List.mem_cons_self
  have htype : OfType .step (table (callId ctx name n)) := by
    intro op hop
    rw [hnew] at hop
    cases hop
  cases operation with
  | step config =>
    exact replayed_of_steplike hundoes (fun _ _ _ hreach => steplike_of_step hreach)
      (fun _ _ _ hreach => recollects_of_step hreach) htype h hc hu hsucceed hreturned
  | waitForCondition config =>
    exact replayed_of_steplike hundoes (fun _ _ _ hreach => steplike_of_waitForCondition hreach)
      (fun _ _ _ hreach => recollects_of_waitForCondition hreach) htype h hc hu hsucceed hreturned
  | runInChildContext config =>
    exact Child.child_replayed hundoes hnew h hpast hfirst hu hsucceed hreturned

/-! ## An empty text -/

/-- The empty text is encoded as nothing. -/
def emptyAsNone : Codec String where
  serdes := some {
    serialize := fun value _ => .ok (value.filter (· ≠ ""))
    deserialize := fun data _ => .ok (some (data.getD "")) }
  json := ⟨.ok, .ok⟩

theorem emptyAsNone_undoes : emptyAsNone.Undoes := by
  rintro value context payload ⟨⟩
  by_cases hempty : value = ""
  · subst hempty
    rfl
  · simp [emptyAsNone, Codec.deserialize, Option.filter, hempty]

def textStep : ValueOperation String :=
  .step { codec := emptyAsNone, semantics := .atMostOncePerRetry }

def gives (value : String) : (e : Effect String) → Option (Answer e)
  | .fetchAdd _ => some 0
  | .stepFn _ _ => some (.ok value)
  | _ => none

def texted (value : String) (m : Nat) : List (Call.Label String) :=
  List.replicate m (.perform (gives value))

def textRun (value : String) : List (Execution.Label String) :=
  (texted value 3 ++ WaitCondition.answered 0 ++ texted value 2 ++ WaitCondition.answered 1).map
    .call ++ [.invoke "t1" .replay] ++ (texted value 2).map .call

def textExecution : Transition.Machine (Execution.State String (DurableResult String))
    (Execution.Label String) :=
  Execution.machine "t0" (fun _ => none) (textStep.program rootContext none)

/-- A step that returned a value, and what the second invocation returned. -/
structure TextReplay (value : String) (r : DurableResult String)
    (s : Execution.State String (DurableResult String)) (c : Call.State String (DurableResult String))
    (u : OperationUpdate) : Prop where
  reachable : textExecution.ReachableBy (Execution.Within (Plays (Numbered 0) "op_0")) s
  past : s.past = [c]
  acked : u ∈ c.acks "op_0"
  succeed : u.action = .succeed
  returned : c.program = .ret (.ok value)
  replayed : s.call.program = .ret r

theorem textReplay_of_run (value : String) (r : DurableResult String)
    (h : (textExecution.checkedRun WaitCondition.numbered
      { loaded := fun _ => none,
        call := .new "t0" (fun _ => none) .execution (textStep.program rootContext none) }
      (textRun value)).map (fun s => (s.call.program.returned,
        s.past.map fun c => (c.program.returned, (c.acks "op_0").map (·.action)))) =
      some (some r, [(some (.ok value), [.start, .succeed])])) :
    ∃ s c u, TextReplay value r s c u := by
  obtain ⟨s, hrun, hs⟩ := Option.map_eq_some_iff.mp h
  simp only [Prod.mk.injEq] at hs
  obtain ⟨hreplayed, hpast⟩ := hs
  obtain ⟨c, hc, hs⟩ := List.map_eq_singleton_iff.mp hpast
  simp only [Prod.mk.injEq] at hs
  obtain ⟨hreturned, hacks⟩ := hs
  have hmem : OperationAction.succeed ∈ (c.acks "op_0").map (·.action) := by
    rw [hacks]
    simp
  obtain ⟨u, hu, hsucceed⟩ := List.mem_map.mp hmem
  exact ⟨s, c, u, {
    reachable := Transition.Machine.checkedRun_reachableBy
      (fun _ _ _ hok => WaitCondition.numbered_sound hok) _ (.init ⟨_, rfl⟩) hrun
    past := hc
    acked := hu
    succeed := hsucceed
    returned := Prog.eq_ret_of_returned hreturned
    replayed := Prog.eq_ret_of_returned hreplayed }⟩

theorem value_replayed_text : ∃ s c u, TextReplay "done" (.ok "done") s c u ∧
    Replayed s.loaded "op_0" (.ok "done") s.call := by
  obtain ⟨s, c, u, hs⟩ := textReplay_of_run "done" (.ok "done") (by decide +kernel)
  obtain ⟨payload, hpayload, hreplays⟩ := @value_replayed String textStep rootContext none 0 "t0"
    (fun _ => none) emptyAsNone_undoes rfl s hs.reachable [] [] c hs.past (fun _ hc => by cases hc) u
    hs.acked hs.succeed "done" hs.returned
  cases hpayload
  exact ⟨s, c, u, hs, hreplays⟩

/-- The empty text is returned once. -/
theorem empty_not_replayed : emptyAsNone.Undoes ∧ ∃ s c u,
    TextReplay "" (.error (.internal "Missing step output in replay")) s c u :=
  ⟨emptyAsNone_undoes, textReplay_of_run _ _ (by decide +kernel)⟩

end LambdaDurable
