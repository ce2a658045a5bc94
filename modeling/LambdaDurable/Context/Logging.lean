import LambdaDurable.Context.Executions
import LambdaDurable.Context.Payloads
import LambdaDurable.Context.Waking
import LambdaDurable.Types.Logger

/-!
# What a handler logs

A handler does one thing after another: it logs, or it awaits an operation and goes on with
the result. Its logger is silent while the mode flag says Replay. An execution is a list of
invocations, each on the records that the service has when it starts.
-/

namespace LambdaDurable

open Effects

variable {V I : Type}

namespace DurableContextLogger

/-- `mode` is what `try_lock` gives, nothing if the flag is locked. -/
def shouldLog (modeAwareLogging : Bool) (mode : Option ExecutionMode) : Bool :=
  if !modeAwareLogging then true
  else
    match mode with
    | some mode => mode ≠ .replay
    | none => true

def logData (ctx : ExecutionContext) : DurableLogData :=
  { durableExecutionArn := ctx.durableExecutionArn, operationId := ctx.currentParentId }

end DurableContextLogger

namespace Logging

/-- `debug`, `info`, `warn`, `error`, `debug_with` or `info_with` of `ctx.logger()`, or the await
of an operation. -/
inductive Request (V I : Type)
  | log (level : DurableLogLevel) (message : String) (fields : Option (List (String × String)))
  | call (name : Option String) (call : DurableCall V I)

@[reducible] def Reply : Request V I → Type
  | .log _ _ _ => Unit
  | .call _ _ => DurableResult (Output V)

abbrev Handler (V I : Type) : Type := Prog (Request V I) Reply (DurableResult V)

/-- How far a handler has come: what it has asked for and got, newest first. -/
abbrev Past (V I : Type) : Type := List ((r : Request V I) × Reply r)

/-- What `ExecutionContext::new` is given; the operations are those of all pages. -/
structure Input where
  token : String
  operations : List Operation

namespace Input

def stepData (input : Input) : Table := Table.insertAll (fun _ => none) input.operations

/-- `step_data.len()` -/
def size (input : Input) : Nat := (input.operations.map (·.id)).dedup.length

def mode (input : Input) : ExecutionMode :=
  if input.size > 1 then .replay else .execution

end Input

/-- No code reads `past`, and none reads where a message was logged: `messages` are all of them,
`entries` those that the underlying logger has got. -/
structure State (V I : Type) where
  tasks : Tasks.State V I
  handler : Handler V I
  awaited : Option Nat := none
  past : Past V I := []
  messages : List (LogEntry × Past V I) := []
  entries : List (LogEntry × Past V I) := []

inductive Label (V I : Type)
  -- anything but a call by the handler
  | inner (l : Tasks.Label V I)
  | log (locked : Bool)
  | call
  | resume

/-- The message that the handler logs next, and where. -/
def State.next (root : ExecutionContext) (s : State V I) : Option (LogEntry × Past V I) :=
  match s.handler with
  | .act (.log level message fields) _ =>
    some (⟨level, DurableContextLogger.logData root, message, fields⟩, s.past)
  | _ => none

/-- A call on the context of the handler. -/
def callsRoot : Tasks.Label V I → Bool
  | .begin 0 _ _ => true
  | _ => false

def step (root : ExecutionContext) (modeAwareLogging : Bool) (loaded : Table) (s : State V I) :
    Label V I → Option (State V I)
  | .inner l =>
    if callsRoot l then none
    else (Tasks.step loaded s.tasks l).map fun tasks => { s with tasks }
  | .log locked =>
    match s.handler with
    | .act (.log level message fields) k =>
      let point := (⟨level, DurableContextLogger.logData root, message, fields⟩, s.past)
      let mode := if locked then none else some s.tasks.mode
      some { s with
        handler := k ()
        past := ⟨.log level message fields, ()⟩ :: s.past
        messages := s.messages ++ [point]
        entries := if DurableContextLogger.shouldLog modeAwareLogging mode then s.entries ++ [point]
          else s.entries }
    | _ => none
  | .call =>
    match s.awaited, s.handler with
    | none, .act (.call name call) _ =>
      (Tasks.step loaded s.tasks (.begin 0 name call)).map fun tasks =>
        { s with tasks, awaited := some s.tasks.tasks.length }
    | _, _ => none
  | .resume =>
    match s.awaited, s.handler with
    | some t, .act (.call name call) k =>
      (s.tasks.tasks[t]?.bind (·.program.returned)).map fun r =>
        { s with handler := k r, awaited := none, past := ⟨.call name call, r⟩ :: s.past }
    | _, _ => none

def State.new (input : Input) (root : ExecutionContext) (handler : Handler V I) : State V I :=
  { tasks := .new input.token input.stepData input.mode root, handler }

def machine (input : Input) (root : ExecutionContext) (modeAwareLogging : Bool)
    (handler : Handler V I) : Transition.Machine (State V I) (Label V I) where
  init s := root.currentParentId = none ∧ s = .new input root handler
  step := step root modeAwareLogging input.stepData

/-- An invocation, and the state in which it ended or was cut off. -/
structure Invocation (V I : Type) where
  input : Input
  last : State V I

/-- The service acts by itself between two invocations. -/
def Advances (t t' : Table) : Prop := ∃ event, Backend.advance t event = some t'

/-- The operations are those of the service after the invocation: their records are what the
service has made of them by then, and none that it has been told of is missing. -/
structure Serves (inv : Invocation V I) (operations : List Operation) : Prop where
  records : ∃ t, Relation.ReflTransGen Advances inv.last.tasks.backend t ∧
    ∀ op ∈ operations, t op.id = some op
  loaded : ∀ op ∈ inv.input.operations, ∃ op' ∈ operations, op'.id = op.id
  acknowledged : ∀ u ∈ CheckpointManager.acceptedUpdates inv.last.tasks.manager.log,
    ∃ op ∈ operations, op.id = u.id

/-- The invocations of an execution, the last one first. The first loads the record of the
execution only, the next ones load what the service has. -/
inductive Run (root : ExecutionContext) (modeAwareLogging : Bool) (handler : Handler V I)
    (allow : Input → List (Invocation V I) → State V I → Label V I → Prop) :
    List (Invocation V I) → Prop
  | first {input : Input} {op : Operation} {s : State V I} : input.operations = [op] →
      op.operationType = .execution →
      (machine input root modeAwareLogging handler).ReachableBy (allow input []) s →
      Run root modeAwareLogging handler allow [⟨input, s⟩]
  | next {inv : Invocation V I} {earlier : List (Invocation V I)} {input : Input} {s : State V I} :
      Run root modeAwareLogging handler allow (inv :: earlier) → Serves inv input.operations →
      (machine input root modeAwareLogging handler).ReachableBy (allow input (inv :: earlier)) s →
      Run root modeAwareLogging handler allow (⟨input, s⟩ :: inv :: earlier)

/-- Where the handler logs what no earlier invocation has logged, the invocation has loaded
nothing but the execution, or some task has found its record unfinished and gone on. -/
def LogsAwake (root : ExecutionContext) (input : Input) (earlier : List (Invocation V I))
    (s : State V I) (l : Label V I) : Prop :=
  ∀ locked, l = .log locked → ∀ point, s.next root = some point →
    (∃ inv ∈ earlier, point ∈ inv.last.messages) ∨ input.size ≤ 1 ∨
      ∃ task ∈ s.tasks.tasks, task.Woken input.stepData

section

variable {root : ExecutionContext} {modeAwareLogging : Bool} {loaded : Table} {input : Input}
  {handler : Handler V I} {s s' : State V I} {l : Label V I}

theorem step_cases (h : step root modeAwareLogging loaded s l = some s') :
    (s'.messages = s.messages ∧ s'.entries = s.entries ∧
      (s'.tasks = s.tasks ∨ ∃ tl, Tasks.step loaded s.tasks tl = some s'.tasks)) ∨
    ∃ locked point, l = .log locked ∧ s.next root = some point ∧ s'.tasks = s.tasks ∧
      s'.messages = s.messages ++ [point] ∧
      s'.entries = if DurableContextLogger.shouldLog modeAwareLogging
        (if locked then none else some s.tasks.mode) then s.entries ++ [point] else s.entries := by
  cases l with
  | inner tl =>
    simp only [step, Option.ite_none_left_eq_some] at h
    obtain ⟨tasks, htasks, rfl⟩ := Option.map_eq_some_iff.mp h.2
    exact Or.inl ⟨rfl, rfl, Or.inr ⟨tl, htasks⟩⟩
  | log locked =>
    simp only [step] at h
    split at h
    · rename_i level message fields k hhandler
      obtain rfl := Option.some.inj h
      exact Or.inr ⟨locked, _, rfl, by rw [State.next, hhandler], rfl, rfl, rfl⟩
    · cases h
  | call =>
    simp only [step] at h
    split at h
    · obtain ⟨tasks, htasks, rfl⟩ := Option.map_eq_some_iff.mp h
      exact Or.inl ⟨rfl, rfl, Or.inr ⟨_, htasks⟩⟩
    · cases h
  | resume =>
    simp only [step] at h
    split at h
    · obtain ⟨r, -, rfl⟩ := Option.map_eq_some_iff.mp h
      exact Or.inl ⟨rfl, rfl, Or.inl rfl⟩
    · cases h

variable {allow : State V I → Label V I → Prop}

theorem tasks_reachable (h : (machine input root modeAwareLogging handler).ReachableBy allow s) :
    (Tasks.machine input.token input.stepData root).Reachable s.tasks := by
  apply h.invariant (I := fun s => (Tasks.machine input.token input.stepData root).Reachable s.tasks)
  · rintro _ ⟨hroot, rfl⟩
    exact .init ⟨hroot, _, rfl⟩
  · intro s l s' _ hs _ hstep
    obtain ⟨-, -, hsame | ⟨tl, htl⟩⟩ | ⟨_, _, -, -, hsame, -, -⟩ := step_cases hstep
    · rwa [hsame]
    · exact hs.step trivial htl
    · rwa [hsame]

/-- An invocation that has loaded nothing but the execution stays in Execution mode. -/
theorem mode_of_fresh (hsize : input.size ≤ 1)
    (h : (machine input root modeAwareLogging handler).ReachableBy allow s) :
    s.tasks.mode = .execution := by
  apply h.invariant (I := fun s => s.tasks.mode = .execution)
  · rintro _ ⟨-, rfl⟩
    exact if_neg (Nat.not_lt.mpr hsize)
  · intro s l s' hr hs _ hstep
    obtain ⟨-, -, hsame | ⟨tl, htl⟩⟩ | ⟨_, _, -, -, hsame, -, -⟩ := step_cases hstep
    · rwa [hsame]
    · obtain hkept | hset := Tasks.mode_forward (tasks_reachable hr) (Tasks.move_of_step htl)
      · rwa [hkept]
      · exact hset
    · rwa [hsame]

theorem shouldLog_of_execution (locked : Bool) :
    DurableContextLogger.shouldLog modeAwareLogging
      (if locked then none else some .execution) = true := by
  cases modeAwareLogging <;> cases locked <;> rfl

/-- Every message of an invocation is emitted, or an earlier invocation has logged it. -/
theorem emitted_or_earlier {earlier : List (Invocation V I)}
    (h : (machine input root modeAwareLogging handler).ReachableBy (LogsAwake root input earlier) s) :
    ∀ point ∈ s.messages, point ∈ s.entries ∨ ∃ inv ∈ earlier, point ∈ inv.last.messages := by
  apply h.invariant (I := fun s => ∀ point ∈ s.messages, point ∈ s.entries ∨
    ∃ inv ∈ earlier, point ∈ inv.last.messages)
  · rintro _ ⟨-, rfl⟩ point hpoint
    cases hpoint
  · intro s l s' hr hs hl hstep
    rcases step_cases hstep with ⟨hmessages, hentries, -⟩ | ⟨locked, next, rfl, hnext, -, hmessages, hentries⟩
    · rwa [hmessages, hentries]
    rw [hmessages, hentries]
    intro point hpoint
    obtain hbefore | hnow := List.mem_append.mp hpoint
    · refine (hs point hbefore).imp (fun hemitted => ?_) id
      cases DurableContextLogger.shouldLog modeAwareLogging (if locked then none else some s.tasks.mode) with
      | false => exact hemitted
      | true => exact List.mem_append_left _ hemitted
    · obtain rfl := List.mem_singleton.mp hnow
      obtain hearlier | hawake := hl locked rfl _ hnext
      · exact Or.inr hearlier
      · have hmode : s.tasks.mode = .execution := by
          obtain hfresh | ⟨task, htask, hwoken⟩ := hawake
          · exact mode_of_fresh hfresh hr
          · exact Tasks.flag_of_woken (tasks_reachable hr) htask hwoken
        rw [hmode, shouldLog_of_execution, if_pos rfl]
        exact Or.inl (List.mem_append_right _ hnow)

end

/-- No message is lost. -/
theorem every_message_emitted {root : ExecutionContext} {modeAwareLogging : Bool}
    {handler : Handler V I} {invocations : List (Invocation V I)}
    (h : Run root modeAwareLogging handler (LogsAwake root) invocations) :
    ∀ inv ∈ invocations, ∀ point ∈ inv.last.messages,
      ∃ inv' ∈ invocations, point ∈ inv'.last.entries := by
  induction h with
  | @first input op s _ _ hs =>
    intro inv hinv point hpoint
    obtain rfl := List.mem_singleton.mp hinv
    obtain hemitted | ⟨_, hmem, -⟩ := emitted_or_earlier hs point hpoint
    · exact ⟨_, hinv, hemitted⟩
    · cases hmem
  | @next last earlier input s _ _ hs ih =>
    intro inv hinv point hpoint
    have hbefore : ∀ inv ∈ last :: earlier, point ∈ inv.last.messages →
        ∃ inv' ∈ ⟨input, s⟩ :: last :: earlier, point ∈ inv'.last.entries := by
      intro inv hinv hpoint
      obtain ⟨inv', hinv', hemitted⟩ := ih inv hinv point hpoint
      exact ⟨inv', List.mem_cons_of_mem _ hinv', hemitted⟩
    obtain rfl | hinv := List.mem_cons.mp hinv
    · obtain hemitted | ⟨inv, hinv, hlogged⟩ := emitted_or_earlier hs point hpoint
      · exact ⟨_, List.mem_cons_self, hemitted⟩
      · exact hbefore inv hinv hlogged
    · exact hbefore inv hinv hpoint

/-- The handler has returned in the last invocation. -/
def Complete (invocations : List (Invocation V I)) : Prop :=
  ∃ inv r, invocations.head? = some inv ∧ inv.last.handler = .ret r

/-! ### A wait, and what follows it -/

def log (message : String) (rest : Handler Nat Nat) : Handler Nat Nat :=
  .act (.log .info message none) fun _ => rest

def await (name : Option String) (call : DurableCall Nat Nat) (rest : Handler Nat Nat) :
    Handler Nat Nat :=
  .act (.call name call) fun _ => rest

def afterWait (rest : Handler Nat Nat) : Handler Nat Nat := await none (.wait (.ofSeconds 1)) rest

def executionRecord : Operation :=
  { id := "execution", operationType := .execution, status := .started }

def waitRecord (status : OperationStatus) : Operation :=
  { id := "op_0", operationType := .wait, subType := some "Wait", status }

def firstInput : Input := ⟨"t0", [executionRecord]⟩

def laterInput : Input := ⟨"t1", [executionRecord, waitRecord .succeeded]⟩

open Tasks (quick asked queued returnsStep)

/-- The wait is started, and the invocation is terminated for it. -/
def suspendedRun : List (Label Nat Nat) :=
  let inner : List (Tasks.Label Nat Nat) := [quick 0, quick 0] ++ asked 0 0 0 ++ Tasks.served 0 0 0 ++
    [quick 0, quick 0, .request 0 1] ++ List.replicate 3 (.manager (.advanceTerminate 1)) ++ [.resume 0]
  .call :: inner.map .inner

/-- The wait is over. -/
def resumedRun : List (Label Nat Nat) := [.call, .inner (quick 0), .inner (quick 0), .resume]

/-- What the service has after the first invocation. -/
def recorded (s : State Nat Nat) : Option Operation × Option Operation × List String :=
  (s.tasks.backend "execution", s.tasks.backend "op_0",
    (CheckpointManager.acceptedUpdates s.tasks.manager.log).map (·.id))

def waitStarted : Option Operation × Option Operation × List String :=
  (some executionRecord, some (waitRecord .started), ["op_0"])

theorem serves_of_recorded {s : State Nat Nat} (h : recorded s = waitStarted) :
    Serves ⟨firstInput, s⟩ laterInput.operations := by
  simp only [recorded, waitStarted, Prod.mk.injEq] at h
  obtain ⟨hexecution, hwait, hids⟩ := h
  constructor
  · refine ⟨Function.update s.tasks.backend "op_0" (some (waitRecord .succeeded)), ?_, ?_⟩
    · apply Relation.ReflTransGen.single
      refine ⟨.completed (waitRecord .succeeded), ?_⟩
      simp only [Backend.advance, show (waitRecord .succeeded).id = "op_0" from rfl, hwait]
      rfl
    · simp only [laterInput, List.forall_mem_cons]
      exact ⟨hexecution, rfl, by simp⟩
  · intro op hop
    exact ⟨op, List.mem_cons.mpr (Or.inl (List.mem_singleton.mp hop)), rfl⟩
  · intro u hu
    have hid : u.id ∈ ["op_0"] := hids ▸ List.mem_map_of_mem hu
    exact ⟨waitRecord .succeeded, by simp [laterInput], (List.mem_singleton.mp hid).symm⟩

def wokenTask (loaded : Table) (task : Tasks.Task Nat Nat) : Bool :=
  match task.origin with
  | .call name call =>
    (drawn task.trace).any (fun n => call.wakes (loaded (callId task.ctx name n))) &&
      task.trace.any fun event => !event.1.looks
  | .child _ _ => false

theorem wokenTask_sound {loaded : Table} {task : Tasks.Task Nat Nat}
    (h : wokenTask loaded task = true) : task.Woken loaded := by
  unfold wokenTask at h
  split at h
  · rename_i horigin
    obtain ⟨hrecord, hgone⟩ := Bool.and_eq_true_iff.mp h
    obtain ⟨n, hn, hwakes⟩ := (Option.any_eq_true _ _).mp hrecord
    obtain ⟨event, hevent, hlooks⟩ := List.any_eq_true.mp hgone
    exact .record horigin hn hwakes hevent (by simpa using hlooks)
  · cases h

def logsAwake (input : Input) (s : State Nat Nat) : Label Nat Nat → Bool
  | .log _ => input.size ≤ 1 || s.tasks.tasks.any (wokenTask input.stepData)
  | _ => true

theorem logsAwake_sound {input : Input} {earlier : List (Invocation Nat Nat)} {s : State Nat Nat}
    {l : Label Nat Nat} (h : logsAwake input s l = true) :
    LogsAwake rootContext input earlier s l := by
  rintro locked rfl point -
  right
  obtain hsize | hwoken := Bool.or_eq_true_iff.mp h
  · exact Or.inl (of_decide_eq_true hsize)
  · obtain ⟨task, htask, hwoken⟩ := List.any_eq_true.mp hwoken
    exact Or.inr ⟨task, htask, wokenTask_sound hwoken⟩

def stepThenLog : Handler Nat Nat :=
  afterWait (await (some "a") (.step { codec := .nat }) (log "done" (.ret (.ok 0))))

/-- The step runs, and the message follows. -/
def steppedRun : List (Label Nat Nat) :=
  let inner : List (Tasks.Label Nat Nat) := [quick 1, quick 1, quick 1] ++ queued 1 0 ++
    [.manager (.maybeStart 0 0)] ++ (CheckpointManager.serveLabels 0).map .manager ++
    [.resume 1, quick 1, returnsStep 1 7] ++ asked 1 1 0 ++ Tasks.served 1 1 0
  resumedRun ++ .call :: inner.map .inner ++ [.resume, .log false]

theorem every_message_emitted_step : ∃ invocations : List (Invocation Nat Nat),
    (∃ inv ∈ invocations, inv.last.messages.map (·.1.message) = ["done"]) ∧
      ∀ inv ∈ invocations, ∀ point ∈ inv.last.messages,
        ∃ inv' ∈ invocations, point ∈ inv'.last.entries := by
  have hfirst : ((machine firstInput rootContext true stepThenLog).checkedRun (logsAwake firstInput)
      (.new firstInput rootContext stepThenLog) suspendedRun).map recorded = some waitStarted := by
    decide +kernel
  have hlater : ((machine laterInput rootContext true stepThenLog).checkedRun (logsAwake laterInput)
      (.new laterInput rootContext stepThenLog) steppedRun).map
      (fun s => s.messages.map (·.1.message)) = some ["done"] := by decide +kernel
  obtain ⟨s, hrun, hs⟩ := Option.map_eq_some_iff.mp hfirst
  obtain ⟨t, hrun', ht⟩ := Option.map_eq_some_iff.mp hlater
  have hreach : (machine firstInput rootContext true stepThenLog).ReachableBy
      (LogsAwake rootContext firstInput []) s :=
    Transition.Machine.checkedRun_reachableBy (fun _ _ _ => logsAwake_sound) suspendedRun
      (.init ⟨rfl, rfl⟩) hrun
  have hreach' : (machine laterInput rootContext true stepThenLog).ReachableBy
      (LogsAwake rootContext laterInput [⟨firstInput, s⟩]) t :=
    Transition.Machine.checkedRun_reachableBy (fun _ _ _ => logsAwake_sound) steppedRun
      (.init ⟨rfl, rfl⟩) hrun'
  have hexecution : Run rootContext true stepThenLog (LogsAwake rootContext)
      [⟨laterInput, t⟩, ⟨firstInput, s⟩] :=
    .next (.first rfl rfl hreach) (serves_of_recorded hs) hreach'
  exact ⟨_, ⟨_, List.mem_cons_self, ht⟩, every_message_emitted hexecution⟩

/-! ### A message right after a wait -/

def logAfterWait : Handler Nat Nat := afterWait (log "awake" (.ret (.ok 0)))

def uncontended (_ : State Nat Nat) : Label Nat Nat → Bool
  | .log locked => !locked
  | _ => true

theorem uncontended_sound {s : State Nat Nat} {l : Label Nat Nat} (h : uncontended s l = true) :
    l ≠ .log true := by
  rintro rfl
  cases h

theorem message_lost : ¬ ∀ (handler : Handler Nat Nat) (invocations : List (Invocation Nat Nat)),
    Run rootContext true handler (fun _ _ _ l => l ≠ .log true) invocations → Complete invocations →
      ∀ inv ∈ invocations, ∀ point ∈ inv.last.messages,
        ∃ inv' ∈ invocations, point ∈ inv'.last.entries := by
  intro h
  have hfirst : ((machine firstInput rootContext true logAfterWait).checkedRun uncontended
      (.new firstInput rootContext logAfterWait) suspendedRun).map
      (fun s => (recorded s, s.entries.length)) = some (waitStarted, 0) := by decide +kernel
  have hlater : ((machine laterInput rootContext true logAfterWait).checkedRun uncontended
      (.new laterInput rootContext logAfterWait) (resumedRun ++ [.log false])).map
      (fun s => (s.messages.length, s.entries.length, s.handler.returned.isSome)) =
      some (1, 0, true) := by decide +kernel
  obtain ⟨s, hrun, hs⟩ := Option.map_eq_some_iff.mp hfirst
  obtain ⟨t, hrun', ht⟩ := Option.map_eq_some_iff.mp hlater
  simp only [Prod.mk.injEq, List.length_eq_zero_iff] at hs ht
  have hreach : (machine firstInput rootContext true logAfterWait).ReachableBy
      (fun _ l => l ≠ .log true) s :=
    Transition.Machine.checkedRun_reachableBy (fun _ _ _ => uncontended_sound) _ (.init ⟨rfl, rfl⟩) hrun
  have hreach' : (machine laterInput rootContext true logAfterWait).ReachableBy
      (fun _ l => l ≠ .log true) t :=
    Transition.Machine.checkedRun_reachableBy (fun _ _ _ => uncontended_sound) _ (.init ⟨rfl, rfl⟩) hrun'
  have hexecution : Run rootContext true logAfterWait (fun _ _ _ l => l ≠ .log true)
      [⟨laterInput, t⟩, ⟨firstInput, s⟩] :=
    .next (.first rfl rfl hreach) (serves_of_recorded hs.1) hreach'
  obtain ⟨r, hr⟩ := Option.isSome_iff_exists.mp ht.2.2
  have hall := h logAfterWait _ hexecution ⟨_, r, rfl, Prog.eq_ret_of_returned hr⟩
  obtain ⟨point, hpoint⟩ := List.exists_mem_of_length_pos (by omega : 0 < t.messages.length)
  obtain ⟨inv, hinv, hemitted⟩ := hall _ List.mem_cons_self point hpoint
  simp only [List.mem_cons, List.not_mem_nil, or_false] at hinv
  obtain rfl | rfl := hinv
  · simp [ht.2.1] at hemitted
  · simp [hs.2] at hemitted

end Logging

end LambdaDurable
