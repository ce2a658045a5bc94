import LambdaDurable.Context.Pending
import LambdaDurable.Context.Tame

/-!
# Callback IDs

`create_callback` looks for the service's ID in the copy of the state that was loaded at
the start of the invocation, and makes one up if it finds none. The submitter of
`wait_for_callback` is given the ID that its own `create_callback` returned.
-/

namespace LambdaDurable

open Effects Call

variable {V T : Type}

def Operation.callbackId (op : Operation) : Option String := op.callbackDetails.bind (·.callbackId)

/-- The ID made up where the service's is not found. -/
def localCallbackId (ctx : ExecutionContext) (hashedId : String) : String :=
  s!"{ctx.durableExecutionArn}:{hashedId}"

def chosenCallbackId (loaded : Table) (ctx : ExecutionContext) (hashedId : String) : String :=
  ((loaded hashedId).bind Operation.callbackId).getD (localCallbackId ctx hashedId)

/-- The calls that hand out a callback ID. -/
inductive CallbackCall (T : Type)
  | create (config : Option (CallbackConfig T)) (codec : Codec T)
  | wait (config : CallbackConfig T) (unitCodec : Codec Unit) (rawCodec : Codec String)

/-- The numbers a call has drawn, oldest first. -/
def draws (trace : List (Event V)) : List Nat := trace.reverse.filterMap Event.counter

namespace CallbackCall

/-- A handle is returned by `create_callback` only. -/
def program (ctx : ExecutionContext) (name : Option String) :
    CallbackCall T → Act V (DurableResult (Option (CallbackHandle T)))
  | create config codec =>
    (ctx.createCallback name config codec).andThen fun handle => .ret (.ok (some handle))
  | wait config unitCodec rawCodec =>
    (ctx.waitForCallback name config unitCodec rawCodec).andThen fun _ => .ret (.ok none)

/-- The callback's operation: `wait_for_callback` creates it in a context of its own. -/
def operation (ctx : ExecutionContext) (name : Option String) :
    CallbackCall T → List Nat → Option String
  | create _ _, n :: _ => some (callId ctx name n)
  | wait _ _ _, n :: m :: _ =>
    some (callId { ctx with currentParentId := some (callId ctx name n) } none m)
  | _, _ => none

end CallbackCall

/-- One invocation, up to some moment of the call. -/
structure Invocation (V T : Type) (ctx : ExecutionContext) (name : Option String) where
  token : String
  loaded : Table
  call : CallbackCall T
  state : Call.State V (DurableResult (Option (CallbackHandle T)))
  reachable : (machine token loaded (call.program ctx name)).Reachable state

namespace Invocation

variable {ctx : ExecutionContext} {name : Option String} (inv : Invocation V T ctx name)

def operation : Option String := inv.call.operation ctx name (draws inv.state.trace)

/-- The call returned the ID, or its submitter was given it. -/
def HandsOut (callbackId : String) : Prop :=
  (∃ handle, inv.state.program = .ret (.ok (some handle)) ∧ handle.callbackId = callbackId) ∨
    ∃ attempt r, ⟨.submitter callbackId attempt, r⟩ ∈ inv.state.trace

/-- The service gives the operation the ID, in the state loaded or in a response. -/
def Carries (hashedId callbackId : String) : Prop :=
  (inv.loaded hashedId).bind Operation.callbackId = some callbackId ∨
    (inv.state.manager.stepData hashedId).bind Operation.callbackId = some callbackId

end Invocation

/-- All IDs handed out agree, with each other and with the service's. -/
structure StableCallbackId {ctx : ExecutionContext} {name : Option String} (hashedId : String)
    (invs : List (Invocation V T ctx name)) : Prop where
  agree : ∀ inv ∈ invs, ∀ inv' ∈ invs, ∀ c c', inv.HandsOut c → inv'.HandsOut c' → c = c'
  service : ∀ inv ∈ invs, ∀ inv' ∈ invs, ∀ c c', inv.HandsOut c → inv'.Carries hashedId c' → c = c'

/-! ## The ID that is handed out -/

/-- Gives the ID, if any, to a submitter. -/
def Gives (callbackId : String) : Effect V → Prop
  | .submitter given _ => given = callbackId
  | _ => True

theorem Tame.gives {parent : Option String} {e : Effect V} (h : Tame parent e)
    (callbackId : String) : Gives callbackId e := by
  cases e with
  | submitter _ _ => exact h.elim
  | _ => trivial

/-- A step gives its submitter what its closure gives it. -/
theorem only_submitterStep (ctx : ExecutionContext) (name : Option String) (callbackId : String)
    (config : StepConfig Unit) :
    (ctx.step name (fun _ attempt => .act (.submitter callbackId attempt) fun r => .ret r) config :
      Act V _).Only (Gives callbackId) := by
  refine ⟨trivial, fun counter => ⟨trivial, fun operation => ?_⟩⟩
  apply Prog.only_andThen ((only_stepReplay ..).mono fun _ h => h.gives _)
  rintro (_ | result)
  · refine ⟨trivial, fun _ => ?_⟩
    apply Prog.only_andThen ((only_startStep ..).mono fun _ h => h.gives _)
    intro _
    refine ⟨trivial, fun _ => ⟨rfl, fun outcome => ?_⟩⟩
    exact (only_finishStep ..).mono fun _ h => h.gives _
  · trivial

theorem draws_cons (e : Effect V) (a : Answer e) (trace : List (Event V)) :
    draws (⟨e, a⟩ :: trace) = draws trace ++ (Event.counter ⟨e, a⟩).toList := by
  simp only [draws, List.reverse_cons, List.filterMap_append, List.filterMap_cons, List.filterMap_nil]
  cases Event.counter ⟨e, a⟩ <;> rfl

theorem CallbackCall.operation_append {call : CallbackCall T} {ctx : ExecutionContext}
    {name : Option String} {ds : List Nat} {hashedId : String}
    (h : call.operation ctx name ds = some hashedId) (more : List Nat) :
    call.operation ctx name (ds ++ more) = some hashedId := by
  cases call with
  | create config codec =>
    cases ds with
    | nil => cases h
    | cons n ds => exact h
  | wait config unitCodec rawCodec =>
    cases ds with
    | nil => cases h
    | cons n ds =>
      cases ds with
      | nil => cases h
      | cons m ds => exact h

/-- The ID is the one chosen for the operation of the call. -/
def Chosen (loaded : Table) (ctx : ExecutionContext) (name : Option String) (call : CallbackCall T)
    (trace : List (Event V)) (callbackId : String) : Prop :=
  ∃ hashedId, call.operation ctx name (draws trace) = some hashedId ∧
    callbackId = chosenCallbackId loaded ctx hashedId

/-- A submitter is given the ID chosen. -/
def GivesChosen (loaded : Table) (ctx : ExecutionContext) (name : Option String)
    (call : CallbackCall T) (trace : List (Event V)) : Effect V → Prop
  | .submitter callbackId _ => Chosen loaded ctx name call trace callbackId
  | _ => True

/-- So is the caller. -/
def ReturnsChosen (loaded : Table) (ctx : ExecutionContext) (name : Option String)
    (call : CallbackCall T) (trace : List (Event V))
    (r : DurableResult (Option (CallbackHandle T))) : Prop :=
  ∀ handle, r = .ok (some handle) → Chosen loaded ctx name call trace handle.callbackId

section

variable {S : Type} {loaded : Table} {ctx : ExecutionContext} {name : Option String}
  {call : CallbackCall T} {trace : List (Event V)} {hashedId : String} {ds : List Nat}

theorem Chosen.cons {callbackId : String} (h : Chosen loaded ctx name call trace callbackId)
    (e : Effect V) (a : Answer e) : Chosen loaded ctx name call (⟨e, a⟩ :: trace) callbackId := by
  obtain ⟨hashedId, hop, hid⟩ := h
  refine ⟨hashedId, ?_, hid⟩
  rw [draws_cons]
  exact CallbackCall.operation_append hop _

/-- The call hands out only the ID chosen. -/
def HandsChosen (loaded : Table) (ctx : ExecutionContext) (name : Option String)
    (call : CallbackCall T) (post : List (Event V) → S → Prop) (p : Act V S)
    (trace : List (Event V)) : Prop :=
  p.Meets (traced (fun _ => Answers loaded) (GivesChosen loaded ctx name call)) post trace

/-- A part of the call that draws nothing and gives nothing to a submitter. -/
theorem handsChosen_plain (parent : Option String) {p : Act V S} (h : p.Only (Tame parent))
    (htrace : draws trace = ds) :
    HandsChosen loaded ctx name call (fun trace _ => draws trace = ds) p trace := by
  refine Prog.Only.meets (R := fun trace => draws trace = ds) h ?_ ?_ htrace
  · intro trace e _ he
    cases e with
    | submitter _ _ => exact he.elim
    | _ => trivial
  · intro trace e a htrace he _
    have hnone : Event.counter ⟨e, a⟩ = none := by
      cases e with
      | fetchAdd _ => exact he.elim
      | _ => rfl
    change draws (⟨e, a⟩ :: trace) = ds
    rw [draws_cons, hnone, htrace, Option.toList_none, List.append_nil]

theorem handsChosen_gives {p : Act V S} {callbackId : String} (h : p.Only (Gives callbackId))
    (htrace : Chosen loaded ctx name call trace callbackId) :
    HandsChosen loaded ctx name call (fun trace _ => Chosen loaded ctx name call trace callbackId)
      p trace := by
  refine Prog.Only.meets (R := fun trace => Chosen loaded ctx name call trace callbackId) h ?_ ?_
    htrace
  · intro trace e htrace he
    cases e with
    | submitter given _ =>
      obtain rfl : given = callbackId := he
      exact htrace
    | _ => trivial
  · intro trace e a htrace _ _
    exact htrace.cons e a

theorem handsChosen_createCallback {maker : ExecutionContext} {label : Option String}
    (harn : maker.durableExecutionArn = ctx.durableExecutionArn)
    (hop : ∀ n, call.operation ctx name (ds ++ [n]) = some (callId maker label n))
    (config : Option (CallbackConfig S)) (codec : Codec S) (htrace : draws trace = ds) :
    HandsChosen loaded ctx name call
      (fun trace r => ∀ handle : CallbackHandle S, r = .ok handle →
        Chosen loaded ctx name call trace handle.callbackId)
      (maker.createCallback label config codec) trace := by
  simp only [ExecutionContext.createCallback, nextOperationId_bind, getStepData_bind]
  refine ⟨trivial, fun n _ => ?_⟩
  have hdrawn : draws (⟨.fetchAdd maker.operationCounter, n⟩ :: trace) = ds ++ [n] := by
    rw [draws_cons, htrace]
    rfl
  refine ⟨trivial, fun operation _ => ?_⟩
  refine Prog.Meets.andThen (m := fun trace _ => draws trace = ds ++ [n])
    (handsChosen_plain maker.currentParentId ?_ ?_) (fun _ trace htrace => ?_)
    fun e trace _ handle hhandle => by cases hhandle
  · cases operation with
    | none => exact only_checkpoint _ _ fun _ h => h
    | some op => trivial
  · exact (draws_cons ..).trans ((List.append_nil _).trans hdrawn)
  · refine ⟨trivial, fun stored hstored => ?_⟩
    obtain rfl : stored = loaded (callId maker label n) := hstored
    rintro handle ⟨⟩
    have hsame : draws (⟨.getStepData (callId maker label n), loaded (callId maker label n)⟩ :: trace) =
        ds ++ [n] := (draws_cons ..).trans ((List.append_nil _).trans htrace)
    refine ⟨callId maker label n, hsame ▸ hop n, ?_⟩
    · simp only [chosenCallbackId, localCallbackId, ← harn]
      rfl

theorem handsChosen_create (config : Option (CallbackConfig T)) (codec : Codec T) :
    HandsChosen loaded ctx name (.create config codec)
      (ReturnsChosen loaded ctx name (.create config codec))
      ((CallbackCall.create config codec).program ctx name : Act V _) [] := by
  have hop : ∀ n, (CallbackCall.create config codec).operation ctx name ([] ++ [n]) =
      some (callId ctx name n) := fun _ => rfl
  refine Prog.Meets.andThen (handsChosen_createCallback rfl hop config codec rfl)
    (fun handle trace hhandle => ?_) fun e trace _ handle hhandle => by cases hhandle
  rintro _ ⟨⟩
  exact hhandle handle rfl

/-- After the submitter's step nothing is left to hand out. -/
theorem handsChosen_rest (parent : Option String) {p : Act V S} (h : p.Only (Tame parent)) :
    HandsChosen loaded ctx name call (fun _ _ => True) p trace :=
  (handsChosen_plain parent h rfl).mono fun _ _ _ => trivial

section

variable {n : Nat} {config : CallbackConfig T} {unitCodec : Codec Unit} {rawCodec : Codec String}

theorem handsChosen_submit (counter : Nat) (htrace : draws trace = [n]) :
    HandsChosen loaded ctx name (.wait config unitCodec rawCodec) (fun _ _ => True)
      (Callback.submit config unitCodec
        { ctx with currentParentId := some (callId ctx name n), operationCounter := counter }) trace := by
  have hop : ∀ m, (CallbackCall.wait config unitCodec rawCodec).operation ctx name ([n] ++ [m]) =
      some (callId { ctx with currentParentId := some (callId ctx name n), operationCounter := counter }
        none m) := fun _ => rfl
  refine Prog.Meets.andThen (handsChosen_createCallback (by rfl) hop _ _ htrace)
    (fun handle trace hhandle => ?_) fun _ _ _ => trivial
  have hchosen := hhandle handle rfl
  refine Prog.Meets.andThen (handsChosen_gives (only_submitterStep ..) hchosen)
    (fun _ trace _ => ?_) fun _ _ _ => trivial
  exact handsChosen_rest none (only_await handle fun _ => trivial)

theorem handsChosen_child (stepId : String) (htrace : draws trace = [n]) :
    HandsChosen loaded ctx name (.wait config unitCodec rawCodec) (fun _ _ => True)
      (ctx.runInChildContextWithIds stepId (callId ctx name n) name (Callback.submit config unitCodec)
        { subType := "WaitForCallback", codec := rawCodec }) trace := by
  have hcounter : ∀ {trace : List (Event V)} (counter : Nat), draws trace = [n] →
      draws (⟨.newCounter, counter⟩ :: trace) = [n] := fun counter htrace =>
    (draws_cons ..).trans ((List.append_nil _).trans htrace)
  have hread : ∀ {trace : List (Event V)} (hashedId : String) (operation : Option Operation),
      draws trace = [n] → draws (⟨.getStepData hashedId, operation⟩ :: trace) = [n] :=
    fun _ _ htrace => (draws_cons ..).trans ((List.append_nil _).trans htrace)
  refine ⟨trivial, fun operation _ => ?_⟩
  refine Prog.Meets.andThen (handsChosen_plain none (only_childReplay ..) (hread _ operation htrace))
    (fun decision trace htrace => ?_) fun _ _ _ => trivial
  cases decision with
  | «return» val => trivial
  | replayChildren =>
    exact ⟨trivial, fun counter _ => handsChosen_submit counter (hcounter counter htrace)⟩
  | «continue» =>
    refine ⟨trivial, fun operation _ => ?_⟩
    refine Prog.Meets.andThen (handsChosen_plain ctx.currentParentId ?_ (hread _ operation htrace))
      (fun _ trace htrace => ?_) fun _ _ _ => trivial
    · cases operation with
      | none => exact only_checkpoint _ _ fun _ h => h
      | some op => trivial
    · rw [withParentId_bind]
      refine ⟨trivial, fun counter _ => ?_⟩
      refine Prog.Meets.bind (handsChosen_submit counter (hcounter counter htrace))
        fun outcome trace _ => ?_
      exact handsChosen_rest _ (only_finishChild ..)

theorem handsChosen_wait :
    HandsChosen loaded ctx name (.wait config unitCodec rawCodec)
      (ReturnsChosen loaded ctx name (.wait config unitCodec rawCodec))
      ((CallbackCall.wait config unitCodec rawCodec).program ctx name : Act V _) [] := by
  refine Prog.Meets.andThen (m := fun _ _ => True) ?_ (fun _ _ _ handle hhandle => by cases hhandle)
    fun _ _ _ handle hhandle => by cases hhandle
  simp only [ExecutionContext.waitForCallback, nextOperationId_bind, getStepData_bind]
  refine ⟨trivial, fun n _ => ⟨trivial, fun operation _ => ?_⟩⟩
  refine Prog.Meets.andThen (handsChosen_plain none (only_callbackReplay ..) (show draws _ = [n] from rfl))
    (fun replayed trace htrace => ?_) fun _ _ _ => trivial
  cases replayed with
  | some result => trivial
  | none =>
    refine Prog.Meets.andThen (handsChosen_child _ htrace) (fun rawPayload trace _ => ?_)
      fun _ _ _ => trivial
    apply handsChosen_rest none
    apply Prog.only_bind (only_safeDeserialize _ _ _)
    rintro (_ | val) <;> trivial

end

theorem handsChosen_program : HandsChosen loaded ctx name call (ReturnsChosen loaded ctx name call)
    (call.program ctx name : Act V _) [] := by
  cases call with
  | create config codec => exact handsChosen_create config codec
  | wait config unitCodec rawCodec => exact handsChosen_wait

theorem chosen_of_permitted {callbackId : String} {attempt : Nat} {r : Except BoxError Unit}
    (h : Permitted (GivesChosen loaded ctx name call) trace)
    (hmem : ⟨.submitter callbackId attempt, r⟩ ∈ trace) :
    Chosen loaded ctx name call trace callbackId := by
  induction trace with
  | nil => cases hmem
  | cons event trace ih =>
    obtain ⟨e, a⟩ := event
    obtain heq | hmem := List.mem_cons.mp hmem
    · cases heq
      exact h.1.cons _ _
    · exact (ih h.2 hmem).cons _ _

end

theorem Invocation.handsOut_chosen {ctx : ExecutionContext} {name : Option String}
    {inv : Invocation V T ctx name} {callbackId : String} (h : inv.HandsOut callbackId) :
    Chosen inv.loaded ctx name inv.call inv.state.trace callbackId := by
  have hrespects : Respects (α := DurableResult (Option (CallbackHandle T))) inv.loaded
      (fun _ _ => True) fun (_ : List (Event V)) => Answers inv.loaded :=
    respects_answers _ _
  obtain ⟨handle, hprogram, rfl⟩ | ⟨attempt, r, hmem⟩ := h
  · have hmeets := meets_of_reachableBy hrespects handsChosen_program inv.reachable
    rw [hprogram] at hmeets
    exact hmeets handle rfl
  · exact chosen_of_permitted
      (permitted_of_reachableBy hrespects handsChosen_program inv.reachable) hmem

theorem Invocation.handsOut_eq {ctx : ExecutionContext} {name : Option String}
    {inv : Invocation V T ctx name} {hashedId callbackId : String}
    (hid : ∀ i ∈ inv.operation, i = hashedId) (h : inv.HandsOut callbackId) :
    callbackId = chosenCallbackId inv.loaded ctx hashedId := by
  obtain ⟨i, hi, hchosen⟩ := inv.handsOut_chosen h
  rwa [hid i hi] at hchosen

section

variable {ctx : ExecutionContext} {name : Option String} {hashedId : String}

/-- An ID that the service does not give is made up. -/
theorem chosenCallbackId_of_not_carried {inv : Invocation V T ctx name}
    (h : ∀ c, inv.Carries hashedId c → c = localCallbackId ctx hashedId) :
    chosenCallbackId inv.loaded ctx hashedId = localCallbackId ctx hashedId := by
  unfold chosenCallbackId
  cases hloaded : (inv.loaded hashedId).bind Operation.callbackId with
  | none => rfl
  | some c => exact h c (Or.inl hloaded)

/-- The ID of a callback is stable exactly if the service gives none but the one made up. -/
theorem stableCallbackId_iff {first : Invocation V T ctx name}
    {later : List (Invocation V T ctx name)}
    (hid : ∀ inv ∈ first :: later, ∀ i ∈ inv.operation, i = hashedId)
    (hstart : first.loaded hashedId = none) {callbackId : String} (hgiven : first.HandsOut callbackId) :
    StableCallbackId hashedId (first :: later) ↔
      ∀ inv ∈ first :: later, ∀ c, inv.Carries hashedId c → c = localCallbackId ctx hashedId := by
  constructor
  · intro hstable inv hinv c hc
    have hfirst := List.mem_cons_self (a := first) (l := later)
    have hlocal : callbackId = localCallbackId ctx hashedId := by
      rw [Invocation.handsOut_eq (hid first hfirst) hgiven, chosenCallbackId, hstart]
      rfl
    rw [← hstable.service first hfirst inv hinv callbackId c hgiven hc, hlocal]
  · intro hlocal
    have heq : ∀ inv ∈ first :: later, ∀ c, inv.HandsOut c → c = localCallbackId ctx hashedId := by
      intro inv hinv c hc
      rw [Invocation.handsOut_eq (hid inv hinv) hc]
      exact chosenCallbackId_of_not_carried (hlocal inv hinv)
    constructor
    · intro inv hinv inv' hinv' c c' hc hc'
      rw [heq inv hinv c hc, heq inv' hinv' c' hc']
    · intro inv hinv inv' hinv' c c' hc hc'
      rw [heq inv hinv c hc, hlocal inv' hinv' c' hc']

end

/-! ## Two invocations -/

/-- A callback whose START is acknowledged with the given response. -/
def callbackRun (response : CheckpointManager.CheckpointResponse) : List (Call.Label Nat) :=
  let draw : (e : Effect Nat) → Option (Answer e)
    | .fetchAdd _ => some 0
    | _ => none
  [.perform draw, .perform draw, .request 0] ++
    [.checkTerminating 0, .checkAncestor 0, .track 0, .push 0, .maybeStart 0 0, .takeBatch 0,
      .readToken (.worker 0), .send (.worker 0), .respond (.worker 0) (.ok response),
      .writeToken (.worker 0), .merge (.worker 0), .finishBatch 0, .notify 0, .wake 0].map .manager ++
    [.resume, .perform draw]

/-- A callback that finds its record. -/
def foundRun : List (Call.Label Nat) :=
  let draw : (e : Effect Nat) → Option (Answer e)
    | .fetchAdd _ => some 0
    | _ => none
  [.perform draw, .perform draw, .perform draw]

def plainCallback : CallbackCall Nat := .create none .nat

def callbackRecord (callbackId : String) : Operation :=
  { id := "op_0", operationType := .callback, status := .started,
    callbackDetails := some { callbackId := some callbackId } }

def returnedId (s : Call.State Nat (DurableResult (Option (CallbackHandle Nat)))) : Option String :=
  match s.program with
  | .ret (.ok (some handle)) => some handle.callbackId
  | _ => none

theorem handsOut_of_returnedId {ctx : ExecutionContext} {name : Option String}
    {inv : Invocation Nat Nat ctx name} {callbackId : String}
    (h : returnedId inv.state = some callbackId) : inv.HandsOut callbackId := by
  unfold returnedId at h
  split at h
  · rename_i handle hprogram
    exact Or.inl ⟨handle, hprogram, Option.some.inj h⟩
  · cases h

theorem exists_invocation (loaded : Table) (ls : List (Call.Label Nat)) (given : Option String)
    (drawn : List Nat) (response : Option String)
    (h : ((machine "t0" loaded (plainCallback.program rootContext none)).run
      (.new "t0" loaded .execution (plainCallback.program rootContext none)) ls).map
      (fun s => (returnedId s, draws s.trace, (s.manager.stepData "op_0").bind Operation.callbackId)) =
        some (given, drawn, response)) :
    ∃ inv : Invocation Nat Nat rootContext none, inv.loaded = loaded ∧ inv.call = plainCallback ∧
      returnedId inv.state = given ∧ draws inv.state.trace = drawn ∧
      (inv.state.manager.stepData "op_0").bind Operation.callbackId = response := by
  obtain ⟨s, hrun, hs⟩ := Option.map_eq_some_iff.mp h
  simp only [Prod.mk.injEq] at hs
  have hreach := Transition.Machine.run_reachable (M := machine "t0" loaded _) ⟨_, rfl⟩ _ hrun
  exact ⟨⟨"t0", loaded, plainCallback, s, hreach⟩, rfl, rfl, hs⟩

theorem exists_first : ∃ inv : Invocation Nat Nat rootContext none, inv.loaded "op_0" = none ∧
    inv.operation = some "op_0" ∧ inv.HandsOut "arn:op_0" ∧ inv.Carries "op_0" "callback-1" := by
  obtain ⟨inv, hloaded, hcall, hgiven, hdrawn, hresponse⟩ := exists_invocation (fun _ => none)
    (callbackRun { newExecutionState := some [callbackRecord "callback-1"] }) "arn:op_0" [0] "callback-1"
    (by decide +kernel)
  refine ⟨inv, by rw [hloaded], ?_, handsOut_of_returnedId hgiven, Or.inr hresponse⟩
  rw [Invocation.operation, hcall, hdrawn]
  rfl

theorem exists_later : ∃ inv : Invocation Nat Nat rootContext none,
    inv.operation = some "op_0" ∧ inv.HandsOut "callback-1" := by
  obtain ⟨inv, hloaded, hcall, hgiven, hdrawn, hresponse⟩ := exists_invocation
    (Function.update (fun _ => none) "op_0" (some (callbackRecord "callback-1"))) foundRun "callback-1" [0]
    "callback-1" (by decide +kernel)
  refine ⟨inv, ?_, handsOut_of_returnedId hgiven⟩
  rw [Invocation.operation, hcall, hdrawn]
  rfl

/-- The service knows the callback by the ID made up, in the response and in the state loaded next. -/
theorem stableCallbackId_iff_confirmed :
    ∃ first second : Invocation Nat Nat rootContext none,
      first.HandsOut "arn:op_0" ∧ first.Carries "op_0" "arn:op_0" ∧ second.HandsOut "arn:op_0" ∧
        second.Carries "op_0" "arn:op_0" ∧ StableCallbackId "op_0" [first, second] := by
  obtain ⟨first, hloaded, hcall, hgiven, hdrawn, hresponse⟩ := exists_invocation (fun _ => none)
    (callbackRun { newExecutionState := some [callbackRecord "arn:op_0"] }) "arn:op_0" [0] "arn:op_0"
    (by decide +kernel)
  obtain ⟨second, hloaded', hcall', hgiven', hdrawn', hresponse'⟩ := exists_invocation
    (Function.update (fun _ => none) "op_0" (some (callbackRecord "arn:op_0"))) foundRun "arn:op_0" [0]
    "arn:op_0" (by decide +kernel)
  have hid : ∀ inv ∈ [first, second], ∀ i ∈ inv.operation, i = "op_0" := by
    have hop : first.operation = some "op_0" ∧ second.operation = some "op_0" := by
      rw [Invocation.operation, Invocation.operation, hcall, hcall', hdrawn, hdrawn']
      exact ⟨rfl, rfl⟩
    simp [hop]
  have hcarried : ∀ inv ∈ [first, second], ∀ c, inv.Carries "op_0" c → c = "arn:op_0" := by
    simp only [List.forall_mem_cons, Invocation.Carries, hloaded, hloaded', hresponse, hresponse']
    simp [callbackRecord, Operation.callbackId]
  refine ⟨first, second, handsOut_of_returnedId hgiven, Or.inr hresponse,
    handsOut_of_returnedId hgiven', Or.inr hresponse', ?_⟩
  apply (stableCallbackId_iff hid (by rw [hloaded]) (handsOut_of_returnedId hgiven)).mpr
  exact hcarried

/-- The ID handed out by the invocation that sends START is not the one of the next. -/
theorem callbackId_changes :
    ¬ ∀ (ctx : ExecutionContext) (name : Option String) (hashedId : String)
      (first : Invocation Nat Nat ctx name) (later : List (Invocation Nat Nat ctx name)),
      (∀ inv ∈ first :: later, ∀ i ∈ inv.operation, i = hashedId) → first.loaded hashedId = none →
      StableCallbackId hashedId (first :: later) := by
  intro h
  obtain ⟨first, hstart, hop, hgiven, -⟩ := exists_first
  obtain ⟨second, hop', hgiven'⟩ := exists_later
  have hid : ∀ inv ∈ [first, second], ∀ i ∈ inv.operation, i = "op_0" := by
    intro inv hinv i hi
    obtain rfl | hinv := List.mem_cons.mp hinv
    · exact Option.some.inj (hi.symm.trans hop)
    · obtain rfl := List.mem_singleton.mp hinv
      exact Option.some.inj (hi.symm.trans hop')
  have hsame := (h rootContext none "op_0" first [second] hid hstart).agree first
    List.mem_cons_self second (List.mem_cons_of_mem _ List.mem_cons_self) _ _ hgiven hgiven'
  exact absurd hsame (by decide)

end LambdaDurable
