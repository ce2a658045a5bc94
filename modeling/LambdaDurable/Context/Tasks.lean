import LambdaDurable.Context.Operations

/-!
# One invocation with all its tasks

User code calls durable operations on any context it has a handle of, any number at a
time and in any order, and answers for its closures as it likes; a batch spawns and joins
its children. A task may stop at any point and may be delayed for any time, so an aborted
child is one that takes no more steps. Each task sees the rest as a call sees its
surroundings.
-/

namespace LambdaDurable

open Effects

/-- What a task returns. -/
inductive Output (V : Type)
  | unit
  | value (v : V)
  | text (payload : String)
  | batch (result : BatchResult V)

variable {V I T S : Type}

def returning (f : T → S) (p : Act V (DurableResult T)) : Act V (DurableResult S) :=
  p.andThen fun a => .ret (.ok (f a))

/-- The call as a task, with what it returns. -/
def DurableCall.run (ctx : ExecutionContext) (name : Option String) :
    DurableCall V I → Act V (DurableResult (Output V))
  | step config => returning .value (ctx.step name userStep config)
  | wait duration => returning (fun _ => .unit) (ctx.wait name duration)
  | waitForCondition config => returning .value (ctx.waitForCondition name config)
  | callback config codec =>
    returning .value ((ctx.createCallback name config codec).andThen CallbackHandle.wait)
  | callbackRaw config codec =>
    returning .text ((ctx.createCallback name config codec).andThen CallbackHandle.waitRaw)
  | waitForCallback config unitCodec rawCodec =>
    returning .value (ctx.waitForCallback name config unitCodec rawCodec)
  | invoke functionId input config =>
    returning .value (ctx.invokeWithConfig name functionId input config)
  | runInChildContext config => returning .value (ctx.runInChildContext name userContext config)
  | map items config => returning .batch (ctx.map name items config)
  | parallel branches config => returning .batch (ctx.parallel name branches config)

namespace Tasks

/-- A call of an operation, or a child of a batch: the task of the batch, and its index there. -/
inductive Origin (V I : Type)
  | call (name : Option String) (call : DurableCall V I)
  | child (batch index : Nat)

/-- `ctx` has the parent ID of the task's own operation. A joined task takes no more steps.
No code reads `start`. -/
structure Task (V I : Type) where
  ctx : ExecutionContext
  origin : Origin V I
  start : Act V (DurableResult (Output V))
  program : Act V (DurableResult (Output V))
  ticket : Option Nat := none
  trace : List (Event V) := []
  joined : Bool := false

def Task.new (ctx : ExecutionContext) (origin : Origin V I)
    (start : Act V (DurableResult (Output V))) : Task V I :=
  { ctx, origin, start, program := start }

/-- The next effect of a program. -/
def nextEffect : Act V T → Option (Effect V)
  | .ret _ => none
  | .act e _ => some e

theorem nextEffect_eq (p : Act V T) : nextEffect p = p.next := by
  cases p with
  | ret _ => rfl
  | act _ _ => rfl

namespace Task

variable (task : Task V I)

/-- In `join_set.join_next().await`. -/
def joining : Bool :=
  match nextEffect task.program with
  | some .joinNext => true
  | _ => false

/-- What a batch has in common with its children: its kind, its item codec and its hashed ID. -/
def batch : Option (BatchSpec × BatchConfig V × String) :=
  match task.origin with
  | .call name (.map _ config) =>
    (drawn task.trace).map fun n =>
      (Batch.map, config.toBatchConfig, task.ctx.hashId (task.ctx.operationId name n))
  | .call name (.parallel _ config) =>
    (drawn task.trace).map fun n =>
      (Batch.parallel, config, task.ctx.hashId (task.ctx.operationId name n))
  | _ => none

/-- The task that a spawn of the task `t` starts. -/
def spawned (t : Nat) : Effect V → List (Task V I)
  | .spawn index childStepId childHashedId itemName =>
    (task.batch.map fun (spec, cfg, hashedId) =>
      .new { task.ctx with currentParentId := some hashedId } (.child t index)
        (returning .value (Batch.runChild spec task.ctx cfg hashedId childStepId childHashedId
          itemName))).toList
  | _ => []

end Task

structure State (V I : Type) where
  manager : CheckpointManager.State
  backend : Table
  mode : ExecutionMode
  counters : Nat → Nat := fun _ => 0
  counterCount : Nat
  contexts : List ExecutionContext
  tasks : List (Task V I) := []

inductive Label (V I : Type)
  -- workers, refreshes and the ends of calls
  | manager (l : CheckpointManager.Label)
  | service (event : Backend.Event)
  -- user code calls an operation, or is given the context of a closure
  | begin (context : Nat) (name : Option String) (call : DurableCall V I)
  | enter (t : Nat)
  -- a task: an effect answered at once, a call of a manager, and its return
  | perform (t : Nat) (choose : (e : Effect V) → Option (Answer e))
  | request (t n : Nat)
  | resume (t : Nat)
  -- `join_next` of a batch: a child's result, or a child's panic
  | join (t child : Nat)
  | panic (t child : Nat) (message : String)

namespace State

variable (s : State V I)

/-- The invocation as a call sees it. -/
def around {α : Type} (program : Act V α) : Call.State V α :=
  { manager := s.manager, backend := s.backend, mode := s.mode, program }

/-- The invocation as one of its tasks sees it. -/
def view (task : Task V I) : Call.State V (DurableResult (Output V)) :=
  { s.around task.program with ticket := task.ticket, trace := task.trace }

/-- The invocation after a step of the task. -/
def put (t : Nat) (task : Task V I) (v : Call.State V (DurableResult (Output V))) : State V I :=
  { s with
    manager := v.manager
    backend := v.backend
    mode := v.mode
    tasks := s.tasks.set t { task with program := v.program, ticket := v.ticket, trace := v.trace } }

/-- A counter answers with its value, a new counter has a number of its own. -/
def choices (choose : (e : Effect V) → Option (Answer e)) : (e : Effect V) → Option (Answer e)
  | .fetchAdd counter => some (s.counters counter)
  | .newCounter => some s.counterCount
  | .joinNext => none
  | e => choose e

/-- What an effect of the task `t` does to the counters and the tasks. -/
def after (t : Nat) (task : Task V I) (e : Effect V) : State V I :=
  match e with
  | .fetchAdd counter =>
    { s with counters := Function.update s.counters counter (s.counters counter + 1) }
  | .newCounter =>
    { s with
      counters := Function.update s.counters s.counterCount 0
      counterCount := s.counterCount + 1 }
  | e => { s with tasks := s.tasks ++ task.spawned t e }

/-- The task `t`, if it may take steps. -/
def running (t : Nat) : Option (Task V I) := s.tasks[t]?.filter (!·.joined)

def batchOf (t : Nat) : Option (Task V I) := (s.running t).filter (·.joining)

def childOf (t child : Nat) : Option (Task V I) := if child = t then none else s.running child

/-- The child has been joined by its batch. -/
def markJoined (child : Nat) (task : Task V I) : State V I :=
  { s with tasks := s.tasks.set child { task with joined := true } }

end State

/-- The value and the index a batch gets when it joins the child. -/
def joinAnswer (t : Nat) (child : Task V I) : Option (Nat × DurableResult V) :=
  match child.origin, child.program with
  | .child batch index, .ret r =>
    if batch = t then
      match r with
      | .ok (.value v) => some (index, .ok v)
      | .ok _ => none
      | .error e => some (index, .error e)
    else none
  | _, _ => none

/-- A child that still runs may panic. -/
def panics (t : Nat) (child : Task V I) : Bool :=
  match child.origin, child.program with
  | .child batch _, .act _ _ => batch == t
  | _, _ => false

/-- A step of the task `t` as a call. -/
def taskStep (loaded : Table) (s : State V I) (t : Nat) (task : Task V I) (l : Call.Label V) :
    Option (State V I) :=
  (Call.step loaded (s.view task) l).map (s.put t task)

def answering (a : Answer (.joinNext : Effect V)) : (e : Effect V) → Option (Answer e)
  | .joinNext => some a
  | _ => none

def isCall : CheckpointManager.Label → Bool
  | .call _ _ _ _ => true
  | _ => false

def step (loaded : Table) (s : State V I) : Label V I → Option (State V I)
  | .manager l =>
    if isCall l then none
    else (CheckpointManager.step s.manager l).map fun m =>
      { s with
        manager := m
        backend := Backend.applyAll s.backend (Call.acknowledged s.manager l) }
  | .service event => (Backend.advance s.backend event).map fun backend => { s with backend }
  | .begin c name call => s.contexts[c]?.map fun ctx =>
    { s with tasks := s.tasks ++ [.new ctx (.call name call) (call.run ctx name)] }
  | .enter t => (s.running t).bind fun task =>
    match nextEffect task.program with
    | some (.contextFn hashedId counter) => some { s with
        contexts := s.contexts ++
          [{ task.ctx with currentParentId := some hashedId, operationCounter := counter }] }
    | _ => none
  | .perform t choose => (s.running t).bind fun task =>
    (nextEffect task.program).bind fun e =>
      (taskStep loaded s t task (.perform (s.choices choose))).map fun s' => s'.after t task e
  | .request t n => (s.running t).bind fun task => taskStep loaded s t task (.request n)
  | .resume t => (s.running t).bind fun task => taskStep loaded s t task .resume
  | .join t j => (s.batchOf t).bind fun task => (s.childOf t j).bind fun child =>
    (joinAnswer t child).bind fun (index, r) =>
      (taskStep loaded s t task (.perform (answering (.ok (index, r))))).map fun s' =>
        s'.markJoined j child
  | .panic t j message => (s.batchOf t).bind fun task => (s.childOf t j).bind fun child =>
    if panics t child then
      (taskStep loaded s t task (.perform (answering (.error message)))).map fun s' =>
        s'.markJoined j child
    else none

/-- The invocation at its start; user code has the root context. -/
def State.new (token : String) (loaded : Table) (mode : ExecutionMode) (root : ExecutionContext) :
    State V I :=
  { manager := .new token loaded, backend := loaded, mode,
    counterCount := root.operationCounter + 1, contexts := [root] }

def machine (token : String) (loaded : Table) (root : ExecutionContext) :
    Transition.Machine (State V I) (Label V I) where
  init s := root.currentParentId = none ∧ ∃ mode, s = .new token loaded mode root
  step := step loaded

/-! ## What a step can do -/

variable {loaded : Table} {s s' : State V I} {l : Label V I}

/-- The step as one of the task `t`, which leaves `r` before what it does to the rest. -/
structure Acts (loaded : Table) (s : State V I) (t : Nat) (task : Task V I) (l : Call.Label V)
    (r : State V I) : Prop where
  mem : s.tasks[t]? = some task
  step : ∃ v, Call.step loaded (s.view task) l = some v ∧ r = s.put t task v

inductive Move (loaded : Table) (s : State V I) : Label V I → State V I → Prop
  | manager {l : CheckpointManager.Label} {m : CheckpointManager.State} : isCall l = false →
      CheckpointManager.step s.manager l = some m → Move loaded s (.manager l) { s with
        manager := m
        backend := Backend.applyAll s.backend (Call.acknowledged s.manager l) }
  | service {event : Backend.Event} {backend : Table} :
      Backend.advance s.backend event = some backend →
      Move loaded s (.service event) { s with backend }
  | begin {c : Nat} {name : Option String} {call : DurableCall V I} {ctx : ExecutionContext} :
      s.contexts[c]? = some ctx → Move loaded s (.begin c name call)
        { s with tasks := s.tasks ++ [.new ctx (.call name call) (call.run ctx name)] }
  | enter {t : Nat} {task : Task V I} {hashedId : String} {counter : Nat} :
      s.tasks[t]? = some task → nextEffect task.program = some (.contextFn hashedId counter) →
      Move loaded s (.enter t) { s with contexts := s.contexts ++
        [{ task.ctx with currentParentId := some hashedId, operationCounter := counter }] }
  | perform {t : Nat} {choose : (e : Effect V) → Option (Answer e)} {task : Task V I} {e : Effect V}
      {r : State V I} : nextEffect task.program = some e →
      Acts loaded s t task (.perform (s.choices choose)) r →
      Move loaded s (.perform t choose) (r.after t task e)
  | request {t n : Nat} {task : Task V I} {r : State V I} : Acts loaded s t task (.request n) r →
      Move loaded s (.request t n) r
  | resume {t : Nat} {task : Task V I} {r : State V I} : Acts loaded s t task .resume r →
      Move loaded s (.resume t) r
  | join {t j index : Nat} {task child : Task V I} {result : DurableResult V} {r : State V I} :
      task.joining = true → j ≠ t → s.tasks[j]? = some child → child.joined = false →
      joinAnswer t child = some (index, result) →
      Acts loaded s t task (.perform (answering (.ok (index, result)))) r →
      Move loaded s (.join t j) (r.markJoined j child)
  | panic {t j : Nat} {message : String} {task child : Task V I} {r : State V I} :
      task.joining = true → j ≠ t → s.tasks[j]? = some child → child.joined = false →
      panics t child = true →
      Acts loaded s t task (.perform (answering (.error message))) r →
      Move loaded s (.panic t j message) (r.markJoined j child)

theorem running_eq_some {t : Nat} {task : Task V I} (h : s.running t = some task) :
    s.tasks[t]? = some task ∧ task.joined = false := by
  obtain ⟨htask, hjoined⟩ := Option.filter_eq_some_iff.mp h
  exact ⟨htask, by simpa using hjoined⟩

theorem batchOf_eq_some {t : Nat} {task : Task V I} (h : s.batchOf t = some task) :
    s.running t = some task ∧ task.joining = true :=
  Option.filter_eq_some_iff.mp h

theorem childOf_eq_some {t j : Nat} {child : Task V I} (h : s.childOf t j = some child) :
    j ≠ t ∧ s.tasks[j]? = some child ∧ child.joined = false := by
  unfold State.childOf at h
  split at h
  · cases h
  · exact ⟨‹_›, running_eq_some h⟩

theorem acts_of_taskStep {t : Nat} {task : Task V I} {l : Call.Label V} {r : State V I}
    (htask : s.running t = some task) (h : taskStep loaded s t task l = some r) :
    Acts loaded s t task l r := by
  obtain ⟨v, hv, rfl⟩ := Option.map_eq_some_iff.mp h
  exact ⟨(running_eq_some htask).1, v, hv, rfl⟩

theorem move_of_step (h : step loaded s l = some s') : Move loaded s l s' := by
  cases l with
  | manager l =>
    simp only [step] at h
    split at h
    · cases h
    · rename_i hcall
      obtain ⟨m, hm, rfl⟩ := Option.map_eq_some_iff.mp h
      exact .manager (by simpa using hcall) hm
  | service event =>
    obtain ⟨backend, hb, rfl⟩ := Option.map_eq_some_iff.mp h
    exact .service hb
  | begin c name call =>
    obtain ⟨ctx, hctx, rfl⟩ := Option.map_eq_some_iff.mp h
    exact .begin hctx
  | enter t =>
    obtain ⟨task, htask, h⟩ := Option.bind_eq_some_iff.mp h
    split at h
    · rename_i hnext
      obtain rfl := Option.some.inj h
      exact .enter (running_eq_some htask).1 hnext
    · cases h
  | perform t choose =>
    obtain ⟨task, htask, h⟩ := Option.bind_eq_some_iff.mp h
    obtain ⟨e, he, h⟩ := Option.bind_eq_some_iff.mp h
    obtain ⟨r, hr, rfl⟩ := Option.map_eq_some_iff.mp h
    exact .perform he (acts_of_taskStep htask hr)
  | request t n =>
    obtain ⟨task, htask, h⟩ := Option.bind_eq_some_iff.mp h
    exact .request (acts_of_taskStep htask h)
  | resume t =>
    obtain ⟨task, htask, h⟩ := Option.bind_eq_some_iff.mp h
    exact .resume (acts_of_taskStep htask h)
  | join t j =>
    obtain ⟨task, htask, h⟩ := Option.bind_eq_some_iff.mp h
    obtain ⟨child, hchild, h⟩ := Option.bind_eq_some_iff.mp h
    obtain ⟨⟨index, r⟩, hanswer, h⟩ := Option.bind_eq_some_iff.mp h
    obtain ⟨r', hr, rfl⟩ := Option.map_eq_some_iff.mp h
    obtain ⟨hne, hj, hopen⟩ := childOf_eq_some hchild
    obtain ⟨hrunning, hjoining⟩ := batchOf_eq_some htask
    exact .join hjoining hne hj hopen hanswer (acts_of_taskStep hrunning hr)
  | panic t j message =>
    obtain ⟨task, htask, h⟩ := Option.bind_eq_some_iff.mp h
    obtain ⟨child, hchild, h⟩ := Option.bind_eq_some_iff.mp h
    simp only [Option.ite_none_right_eq_some] at h
    obtain ⟨hpanics, h⟩ := h
    obtain ⟨r', hr, rfl⟩ := Option.map_eq_some_iff.mp h
    obtain ⟨hne, hj, hopen⟩ := childOf_eq_some hchild
    obtain ⟨hrunning, hjoining⟩ := batchOf_eq_some htask
    exact .panic hjoining hne hj hopen hpanics (acts_of_taskStep hrunning hr)

/-! ## A task sees a run of its call -/

/-- What the task `j` sees, or a call of `p` that is not made yet. -/
def State.look (s : State V I) (j : Nat) (p : Act V (DurableResult (Output V))) :
    Call.State V (DurableResult (Output V)) :=
  match s.tasks[j]? with
  | some task => s.view task
  | none => s.around p

/-- How the task `j` sees a step. -/
inductive Seen (s : State V I) (j : Nat) : Label V I → Call.Label V → Prop
  | manager {l : CheckpointManager.Label} : isCall l = false → Seen s j (.manager l) (.manager l)
  | service (event : Backend.Event) : Seen s j (.service event) (.service event)
  | setMode {t : Nat} {choose : (e : Effect V) → Option (Answer e)} (mode : ExecutionMode) :
      t ≠ j → Seen s j (.perform t choose) (.setMode mode)
  | markAwaited {t : Nat} {choose : (e : Effect V) → Option (Answer e)} (hashedId : String) :
      t ≠ j → Seen s j (.perform t choose) (.manager (.markAwaited hashedId))
  | others {t n : Nat} {task : Task V I} {e : Effect V}
      {k : Answer e → Act V (DurableResult (Output V))} {m : CheckpointManager.Label} :
      t ≠ j → s.tasks[t]? = some task → task.program = .act e k →
      Call.requestLabel n e = some m → Seen s j (.request t n) (.manager m)
  | perform (choose : (e : Effect V) → Option (Answer e)) :
      Seen s j (.perform j choose) (.perform (s.choices choose))
  | request (n : Nat) : Seen s j (.request j n) (.request n)
  | resume : Seen s j (.resume j) .resume
  | join {i index : Nat} {child : Task V I} {r : DurableResult V} : s.tasks[i]? = some child →
      child.joined = false → joinAnswer j child = some (index, r) →
      Seen s j (.join j i) (.perform (answering (.ok (index, r))))
  | panic (i : Nat) (message : String) :
      Seen s j (.panic j i message) (.perform (answering (.error message)))

section

variable {j t : Nat} {task : Task V I} {p : Act V (DurableResult (Output V))}

theorem look_of_mem (h : s.tasks[j]? = some task) : s.look j p = s.view task := by
  simp [State.look, h]

theorem look_fields (s : State V I) (j : Nat) (p : Act V (DurableResult (Output V))) :
    (s.look j p).manager = s.manager ∧ (s.look j p).backend = s.backend ∧
      (s.look j p).mode = s.mode := by
  unfold State.look
  cases s.tasks[j]? <;> exact ⟨rfl, rfl, rfl⟩

theorem Acts.look_self {cl : Call.Label V} {r : State V I} (h : Acts loaded s t task cl r) :
    Call.step loaded (s.look t p) cl = some (r.look t p) := by
  obtain ⟨hmem, v, hv, rfl⟩ := h
  rw [look_of_mem hmem, hv]
  have hlt := (List.getElem?_eq_some_iff.mp hmem).1
  simp [State.look, State.put, State.view, State.around, List.getElem?_set_self hlt]

theorem Acts.look_other {cl : Call.Label V} {r : State V I} (h : Acts loaded s t task cl r)
    (hne : t ≠ j) : ∃ v, Call.step loaded (s.view task) cl = some v ∧ r.look j p =
      { s.look j p with manager := v.manager, backend := v.backend, mode := v.mode } := by
  obtain ⟨-, v, hv, rfl⟩ := h
  refine ⟨v, hv, ?_⟩
  simp only [State.look, State.put, List.getElem?_set_ne hne]
  cases s.tasks[j]? <;> rfl

theorem look_append {r : State V I} {more : List (Task V I)}
    (hfresh : ∀ task ∈ more, task = .new task.ctx task.origin task.start)
    (hstart : ∀ task, (s.tasks ++ more)[j]? = some task → task.start = p)
    (hr : ∀ q : Act V (DurableResult (Output V)), r.around q = s.around q)
    (htasks : r.tasks = s.tasks ++ more) : r.look j p = s.look j p := by
  have hview : ∀ task : Task V I, r.view task = s.view task := fun task => by
    simp [State.view, hr]
  simp only [State.look, htasks]
  cases hj : (s.tasks ++ more)[j]? with
  | none =>
    have hnone : s.tasks[j]? = none := by
      rw [List.getElem?_eq_none_iff] at hj ⊢
      rw [List.length_append] at hj
      omega
    simp only [hnone, hr]
  | some task =>
    rw [List.getElem?_append] at hj
    split at hj
    · simp only [hj, hview]
    · rename_i hle
      have hnone : s.tasks[j]? = none := List.getElem?_eq_none (by omega)
      have hnew := hfresh task (List.mem_of_getElem? hj)
      have hp : task.start = p := by
        apply hstart
        rw [List.getElem?_append_right (by omega)]
        exact hj
      simp only [hnone]
      rw [hnew, hp]
      simp only [State.view, Task.new, hr]
      rfl

theorem spawned_fresh (task : Task V I) (t : Nat) (e : Effect V) :
    ∀ child ∈ task.spawned t e, child = .new child.ctx child.origin child.start := by
  intro child hchild
  cases e with
  | spawn index childStepId childHashedId itemName =>
    obtain ⟨⟨spec, cfg, hashedId⟩, -, rfl⟩ :=
      Option.map_eq_some_iff.mp (Option.mem_toList.mp hchild)
    rfl
  | _ => cases hchild

theorem look_after {e : Effect V} (hstart : ∀ task', (s.after t task e).tasks[j]? = some task' →
    task'.start = p) : (s.after t task e).look j p = s.look j p := by
  cases e with
  | fetchAdd _ | newCounter => rfl
  | _ => exact look_append (spawned_fresh task t _) hstart (fun _ => rfl) rfl

theorem look_markJoined {i : Nat} {child : Task V I} (hi : s.tasks[i]? = some child) :
    (s.markJoined i child).look j p = s.look j p := by
  have hlt := (List.getElem?_eq_some_iff.mp hi).1
  by_cases hij : i = j
  · subst hij
    simp only [State.look, State.markJoined, List.getElem?_set_self hlt, hi]
    rfl
  · simp only [State.look, State.markJoined, List.getElem?_set_ne hij]
    cases s.tasks[j]? <;> rfl

theorem start_of_acts {cl : Call.Label V} {r : State V I} (h : Acts loaded s t task cl r)
    {other : Task V I} (hj : s.tasks[j]? = some other) :
    ∃ other', r.tasks[j]? = some other' ∧ other'.ctx = other.ctx ∧ other'.origin = other.origin ∧
      other'.start = other.start ∧ other'.joined = other.joined ∧ (t ≠ j → other' = other) := by
  obtain ⟨hmem, v, -, rfl⟩ := h
  have hlt := (List.getElem?_eq_some_iff.mp hmem).1
  by_cases htj : t = j
  · subst htj
    obtain rfl : task = other := Option.some.inj (hmem.symm.trans hj)
    exact ⟨_, List.getElem?_set_self hlt, rfl, rfl, rfl, rfl, fun hne => absurd rfl hne⟩
  · refine ⟨other, ?_, rfl, rfl, rfl, rfl, fun _ => rfl⟩
    rw [← hj]
    exact List.getElem?_set_ne htj

/-- What another task does changes the manager and the mode only as others can. -/
theorem look_step_other {choose : (e : Effect V) → Option (Answer e)} {r : State V I}
    (h : Acts loaded s t task (.perform choose) r) (hne : t ≠ j) :
    r.look j p = s.look j p ∨
      (∃ mode, Call.step loaded (s.look j p) (.setMode mode) = some (r.look j p)) ∨
      ∃ hashedId, Call.step loaded (s.look j p) (.manager (.markAwaited hashedId)) =
        some (r.look j p) := by
  obtain ⟨v, hv, hlook⟩ := h.look_other (p := p) hne
  obtain ⟨hmanager, hbackend, hmode⟩ := look_fields s j p
  have hsame : ∀ {manager backend mode}, manager = s.manager → backend = s.backend → mode = s.mode →
      ({ s.look j p with manager := manager, backend := backend, mode := mode } :
        Call.State V (DurableResult (Output V))) = s.look j p := by
    rintro _ _ _ rfl rfl rfl
    rw [← hmanager, ← hbackend, ← hmode]
  cases Call.move_of_step hv with
  | @perform _ e k a _ _ _ =>
    cases e with
    | setMode mode =>
      refine Or.inr (Or.inl ⟨mode, ?_⟩)
      rw [hlook]
      simp only [Call.step, Call.State.answer, Call.State.touch, State.view, State.around, ← hmanager,
        ← hbackend]
    | markAwaited hashedId =>
      refine Or.inr (Or.inr ⟨hashedId, ?_⟩)
      rw [hlook]
      simp only [Call.step, CheckpointManager.step, Option.map_some, Call.State.manage,
        Call.acknowledged, Backend.applyAll, List.foldl_nil, Call.State.answer, Call.State.touch,
        State.view, State.around, hmanager, hbackend, ← hmode]
    | _ =>
      left
      rw [hlook]
      exact hsame rfl rfl rfl

theorem program_of_joining (h : task.joining = true) : ∃ k, task.program = .act .joinNext k := by
  unfold Task.joining nextEffect at h
  cases hprogram : task.program with
  | ret r => simp [hprogram] at h
  | act e k =>
    rw [hprogram] at h
    cases e with
    | joinNext => exact ⟨k, rfl⟩
    | _ => cases h

/-- What a join of another task changes is not seen. -/
theorem look_step_joining {a : Answer (.joinNext : Effect V)} {r : State V I}
    (h : Acts loaded s t task (.perform (answering a)) r) (hjoining : task.joining = true)
    (hne : t ≠ j) : r.look j p = s.look j p := by
  obtain ⟨v, hv, hlook⟩ := h.look_other (p := p) hne
  obtain ⟨hmanager, hbackend, hmode⟩ := look_fields s j p
  obtain ⟨k, hprogram⟩ := program_of_joining hjoining
  have hstep : v.manager = s.manager ∧ v.backend = s.backend ∧ v.mode = s.mode := by
    simp only [Call.step, State.view, State.around, hprogram] at hv
    split at hv
    · rename_i heq
      cases heq
      obtain ⟨_, -, rfl⟩ := Option.map_eq_some_iff.mp hv
      exact ⟨rfl, rfl, rfl⟩
    · cases hv
  rw [hlook, hstep.1, hstep.2.1, hstep.2.2, ← hmanager, ← hbackend, ← hmode]

theorem look_step (hm : Move loaded s l s')
    (hstart : ∀ task, s'.tasks[j]? = some task → task.start = p) :
    s'.look j p = s.look j p ∨
      ∃ cl, Call.step loaded (s.look j p) cl = some (s'.look j p) ∧ Seen s j l cl := by
  obtain ⟨hmanager, hbackend, hmode⟩ := look_fields s j p
  cases hm with
  | @manager m s' hcall hm =>
    refine Or.inr ⟨.manager m, ?_, .manager hcall⟩
    have hlook : ({ s with
        manager := s'
        backend := Backend.applyAll s.backend (Call.acknowledged s.manager m) } : State V I).look j p =
          (s.look j p).manage m s' := by
      simp only [State.look, Call.State.manage]
      cases s.tasks[j]? <;> rfl
    simp only [Call.step, hmanager, hm, Option.map_some, hlook]
  | @service event backend hb =>
    refine Or.inr ⟨.service event, ?_, .service event⟩
    have hlook : ({ s with backend } : State V I).look j p = { s.look j p with backend } := by
      simp only [State.look]
      cases s.tasks[j]? <;> rfl
    simp only [Call.step, hbackend, hb, Option.map_some, hlook]
  | @begin c name call ctx hctx =>
    left
    refine look_append (fun task htask => ?_) hstart (fun _ => rfl) rfl
    obtain rfl := List.mem_singleton.mp htask
    rfl
  | enter _ _ => exact Or.inl rfl
  | @perform t choose task e r he hr =>
    rw [look_after hstart]
    by_cases htj : t = j
    · subst htj
      exact Or.inr ⟨_, hr.look_self, .perform choose⟩
    · obtain hsame | ⟨mode, hset⟩ | ⟨hashedId, hmark⟩ := look_step_other hr htj
      · exact Or.inl hsame
      · exact Or.inr ⟨_, hset, .setMode mode htj⟩
      · exact Or.inr ⟨_, hmark, .markAwaited hashedId htj⟩
  | @request t n task r hr =>
    by_cases htj : t = j
    · subst htj
      exact Or.inr ⟨_, hr.look_self, .request n⟩
    · obtain ⟨v, hv, hlook⟩ := hr.look_other (p := p) htj
      cases Call.move_of_step hv with
      | @request _ e k m m' _ hprogram hrequest hstep =>
        refine Or.inr ⟨.manager m, ?_, .others htj hr.mem hprogram hrequest⟩
        have hnone : Call.acknowledged s.manager m = [] := by
          cases e <;> first | (cases hrequest; rfl) | cases hrequest
        have hstep' : CheckpointManager.step s.manager m = some m' := hstep
        rw [hlook]
        simp only [Call.step, hmanager, hstep', Option.map_some, Call.State.manage, hnone,
          Backend.applyAll, List.foldl_nil, State.view, State.around, ← hbackend, ← hmode]
  | @resume t task r hr =>
    by_cases htj : t = j
    · subst htj
      exact Or.inr ⟨_, hr.look_self, .resume⟩
    · obtain ⟨v, hv, hlook⟩ := hr.look_other (p := p) htj
      left
      cases Call.move_of_step hv with
      | resume _ _ _ =>
        rw [hlook]
        simp only [Call.State.answer, State.view, State.around, ← hmanager, ← hbackend, ← hmode]
  | @join t i index task child result r hjoining hne hi hopen hanswer hr =>
    obtain ⟨_, hi', -, -, -, -, hsame⟩ := start_of_acts hr hi
    rw [look_markJoined (hsame hne.symm ▸ hi')]
    by_cases htj : t = j
    · subst htj
      exact Or.inr ⟨_, hr.look_self, .join hi hopen hanswer⟩
    · exact Or.inl (look_step_joining hr hjoining htj)
  | @panic t i message task child r hjoining hne hi hopen hpanics hr =>
    obtain ⟨_, hi', -, -, -, -, hsame⟩ := start_of_acts hr hi
    rw [look_markJoined (hsame hne.symm ▸ hi')]
    by_cases htj : t = j
    · subst htj
      exact Or.inr ⟨_, hr.look_self, .panic i message⟩
    · exact Or.inl (look_step_joining hr hjoining htj)

/-- What a task never changes. -/
structure Task.Same (task task' : Task V I) : Prop where
  ctx : task'.ctx = task.ctx
  origin : task'.origin = task.origin
  start : task'.start = task.start

theorem Task.Same.refl (task : Task V I) : task.Same task := ⟨rfl, rfl, rfl⟩

/-- The tasks a step starts. -/
def started (s : State V I) : Label V I → List (Task V I)
  | .begin c name call =>
    (s.contexts[c]?.map fun ctx => .new ctx (.call name call) (call.run ctx name)).toList
  | .perform t _ =>
    (s.tasks[t]?.map fun task => ((nextEffect task.program).map (task.spawned t)).getD []).getD []
  | _ => []

theorem getElem?_markJoined {i : Nat} {child other : Task V I} (hi : s.tasks[i]? = some child)
    (hj : s.tasks[j]? = some other) :
    ∃ other', (s.markJoined i child).tasks[j]? = some other' ∧ other.Same other' := by
  have hlt := (List.getElem?_eq_some_iff.mp hi).1
  by_cases hij : i = j
  · subst hij
    obtain rfl : child = other := Option.some.inj (hi.symm.trans hj)
    exact ⟨_, List.getElem?_set_self hlt, rfl, rfl, rfl⟩
  · exact ⟨other, (List.getElem?_set_ne hij).trans hj, .refl other⟩

/-- The tasks of `s` are still there, and those after them are the new ones. -/
structure Grows (s s' : State V I) (new : List (Task V I)) : Prop where
  kept : ∀ (j : Nat) (task : Task V I), s.tasks[j]? = some task →
    ∃ task', s'.tasks[j]? = some task' ∧ task.Same task'
  length : s'.tasks.length = s.tasks.length + new.length
  new : ∀ j : Nat, s.tasks.length ≤ j → s'.tasks[j]? = new[j - s.tasks.length]?

theorem Grows.quiet {r : State V I} (h : r.tasks = s.tasks) : Grows s r [] where
  kept j task hj := ⟨task, by rw [h, hj], .refl task⟩
  length := by rw [h, List.length_nil, Nat.add_zero]
  new j hj := by rw [h, List.getElem?_eq_none hj, List.getElem?_nil]

theorem Grows.append {r r' : State V I} (h : Grows s r []) {more : List (Task V I)}
    (htasks : r'.tasks = r.tasks ++ more) : Grows s r' more where
  kept j task hj := by
    obtain ⟨task', hj', hsame⟩ := h.kept j task hj
    refine ⟨task', ?_, hsame⟩
    rw [htasks, List.getElem?_append_left (List.getElem?_eq_some_iff.mp hj').1, hj']
  length := by rw [htasks, List.length_append, h.length, List.length_nil, Nat.add_zero]
  new j hj := by
    have hlen : r.tasks.length = s.tasks.length := h.length
    rw [htasks, List.getElem?_append_right (by omega), hlen]

theorem Acts.grows {cl : Call.Label V} {r : State V I} (h : Acts loaded s t task cl r) :
    Grows s r [] := by
  have hlen : r.tasks.length = s.tasks.length := by
    obtain ⟨-, v, -, rfl⟩ := h
    exact List.length_set ..
  refine ⟨fun j other hj => ?_, hlen, fun j hj => ?_⟩
  · obtain ⟨other', hj', hctx, horigin, hstart, -, -⟩ := start_of_acts h hj
    exact ⟨other', hj', hctx, horigin, hstart⟩
  · rw [List.getElem?_eq_none (by omega), List.getElem?_nil]

theorem Acts.grows_markJoined {cl : Call.Label V} {r : State V I} (h : Acts loaded s t task cl r)
    {i : Nat} {child : Task V I} (hne : i ≠ t) (hi : s.tasks[i]? = some child) :
    Grows s (r.markJoined i child) [] := by
  obtain ⟨_, hi', -, -, -, -, hkept⟩ := start_of_acts h hi
  have hlen : (r.markJoined i child).tasks.length = s.tasks.length :=
    (List.length_set ..).trans h.grows.length
  refine ⟨fun j other hj => ?_, hlen, fun j hj => ?_⟩
  · obtain ⟨other', hj', hsame⟩ := h.grows.kept j other hj
    obtain ⟨other'', hj'', hsame'⟩ := getElem?_markJoined (hkept hne.symm ▸ hi') hj'
    exact ⟨other'', hj'', hsame'.ctx.trans hsame.ctx, hsame'.origin.trans hsame.origin,
      hsame'.start.trans hsame.start⟩
  · rw [List.getElem?_eq_none (by omega), List.getElem?_nil]

theorem Move.grows (hm : Move loaded s l s') : Grows s s' (started s l) := by
  cases hm with
  | manager _ _ | service _ | enter _ _ => exact .quiet rfl
  | @begin c name call ctx hctx =>
    have hstarted : started s (.begin c name call) = [.new ctx (.call name call) (call.run ctx name)] := by
      simp [started, hctx]
    rw [hstarted]
    exact (Grows.quiet rfl : Grows s s []).append rfl
  | @perform t choose task e r he hr =>
    have hstarted : started s (.perform t choose) = task.spawned t e := by
      simp [started, hr.mem, he]
    rw [hstarted]
    cases e with
    | fetchAdd _ | newCounter => exact hr.grows.append (List.append_nil _).symm
    | _ => exact hr.grows.append rfl
  | request hr | resume hr => exact hr.grows
  | join _ hne hi _ _ hr | panic _ hne hi _ _ hr => exact hr.grows_markJoined hne hi

/-- The manager takes a step of its own, or one for a task. -/
theorem Move.manager_cases (hm : Move loaded s l s') : s'.manager = s.manager ∨
    ∃ m, CheckpointManager.step s.manager m = some s'.manager ∧
      (isCall m = false ∧ (l = .manager m ∨ ∃ hashedId, m = .markAwaited hashedId) ∨
        ∃ t n task e k, l = .request t n ∧ s.tasks[t]? = some task ∧ task.program = .act e k ∧
          Call.requestLabel n e = some m) := by
  have hacts : ∀ {t : Nat} {task : Task V I} {choose} {r : State V I},
      Acts loaded s t task (.perform choose) r → r.manager = s.manager ∨
        ∃ hashedId, CheckpointManager.step s.manager (.markAwaited hashedId) = some r.manager := by
    rintro t task choose r ⟨-, v, hv, rfl⟩
    cases Call.move_of_step hv with
    | @perform _ e _ _ _ _ _ =>
      cases e with
      | markAwaited hashedId => exact Or.inr ⟨hashedId, rfl⟩
      | _ => exact Or.inl rfl
  have hperform : ∀ {t : Nat} {task : Task V I} {choose} {r : State V I},
      Acts loaded s t task (.perform choose) r → s'.manager = r.manager → s'.manager = s.manager ∨
        ∃ m, CheckpointManager.step s.manager m = some s'.manager ∧
          (isCall m = false ∧ (l = .manager m ∨ ∃ hashedId, m = .markAwaited hashedId) ∨
            ∃ t n task e k, l = .request t n ∧ s.tasks[t]? = some task ∧ task.program = .act e k ∧
              Call.requestLabel n e = some m) := by
    intro t task choose r hr hsame
    rw [hsame]
    exact (hacts hr).imp id fun ⟨hashedId, h⟩ => ⟨_, h, Or.inl ⟨rfl, Or.inr ⟨hashedId, rfl⟩⟩⟩
  cases hm with
  | @manager m _ hcall hm => exact Or.inr ⟨m, hm, Or.inl ⟨hcall, Or.inl rfl⟩⟩
  | service _ | begin _ | enter _ _ => exact Or.inl rfl
  | @perform t choose task e r he hr => exact hperform hr (by cases e <;> rfl)
  | @request t n task r hr =>
    obtain ⟨hmem, v, hv, rfl⟩ := hr
    cases Call.move_of_step hv with
    | request _ hprogram hrequest hstep =>
      exact Or.inr ⟨_, hstep, Or.inr ⟨t, n, task, _, _, rfl, hmem, hprogram, hrequest⟩⟩
  | @resume t task r hr =>
    obtain ⟨-, v, hv, rfl⟩ := hr
    cases Call.move_of_step hv with
    | resume _ _ _ => exact Or.inl rfl
  | join _ _ _ _ _ hr | panic _ _ _ _ _ hr => exact hperform hr rfl

theorem Move.contexts_cases (hm : Move loaded s l s') : s'.contexts = s.contexts ∨
    ∃ (t : Nat) (task : Task V I) (hashedId : String) (counter : Nat), s.tasks[t]? = some task ∧
      nextEffect task.program = some (.contextFn hashedId counter) ∧ s'.contexts = s.contexts ++
        [{ task.ctx with currentParentId := some hashedId, operationCounter := counter }] := by
  have hacts : ∀ {t : Nat} {task : Task V I} {cl} {r : State V I}, Acts loaded s t task cl r →
      r.contexts = s.contexts := by
    rintro t task cl r ⟨-, v, -, rfl⟩
    rfl
  cases hm with
  | manager _ _ | service _ | begin _ => exact Or.inl rfl
  | enter htask he => exact Or.inr ⟨_, _, _, _, htask, he, rfl⟩
  | @perform t choose task e r he hr => exact Or.inl ((by cases e <;> rfl : _ = r.contexts).trans (hacts hr))
  | request hr | resume hr | join _ _ _ _ _ hr | panic _ _ _ _ _ hr =>
    have hsame := hacts hr
    exact Or.inl hsame

theorem Grows.mem {new : List (Task V I)} (h : Grows s s' new) {task' : Task V I}
    (hmem : task' ∈ s'.tasks) : (∃ task ∈ s.tasks, task.Same task') ∨ task' ∈ new := by
  obtain ⟨j, hj⟩ := List.mem_iff_getElem?.mp hmem
  by_cases hlt : j < s.tasks.length
  · obtain ⟨task'', hj', hsame⟩ := h.kept j _ (List.getElem?_eq_getElem hlt)
    obtain rfl : task'' = task' := Option.some.inj (hj'.symm.trans hj)
    exact Or.inl ⟨_, List.getElem_mem hlt, hsame⟩
  · rw [h.new j (by omega)] at hj
    exact Or.inr (List.mem_of_getElem? hj)

/-- What a task does with the manager: it calls, and goes on when the manager is done. -/
def asks : CheckpointManager.Label → Bool
  | .call _ _ _ _ | .force _ | .terminate _ _ | .markAwaited _ => true
  | _ => false

theorem asks_of_requestLabel {n : Nat} {e : Effect V} {m : CheckpointManager.Label}
    (h : Call.requestLabel n e = some m) : asks m = true := by
  cases e <;> first | (cases h; rfl) | cases h

theorem manager_reachableBy {token : String} {root : ExecutionContext}
    {allow : State V I → Label V I → Prop}
    {permit : CheckpointManager.State → CheckpointManager.Label → Prop}
    (hmanager : ∀ s m, allow s (.manager m) → permit s.manager m)
    (hasks : ∀ s m, asks m = true → permit s m) (h : (machine token loaded root).ReachableBy allow s) :
    (CheckpointManager.machine token loaded).ReachableBy permit s.manager := by
  refine h.invariant (I := fun s =>
    (CheckpointManager.machine token loaded).ReachableBy permit s.manager) ?_ ?_
  · rintro _ ⟨-, mode, rfl⟩
    exact .init rfl
  · intro s l s' _ hs hl hstep
    obtain hsame | ⟨m, hm, hcases⟩ := (move_of_step hstep).manager_cases
    · rwa [hsame]
    · refine hs.step (l := m) ?_ hm
      obtain ⟨-, rfl | ⟨hashedId, rfl⟩⟩ | ⟨_, _, _, _, _, -, -, -, hrequest⟩ := hcases
      · exact hmanager s m hl
      · exact hasks _ _ rfl
      · exact hasks _ _ (asks_of_requestLabel hrequest)

/-- The operation name of a call; a batch names no child of its child. -/
def Origin.name : Origin V I → Option String
  | .call name _ => name
  | .child _ _ => none

theorem batch_eq_some {spec : BatchSpec} {cfg : BatchConfig V} {hashedId : String}
    (h : task.batch = some (spec, cfg, hashedId)) : ∃ n, drawn task.trace = some n ∧
      hashedId = task.ctx.hashId (task.ctx.operationId task.origin.name n) := by
  unfold Task.batch at h
  split at h
  · rename_i horigin
    obtain ⟨n, hn, heq⟩ := Option.map_eq_some_iff.mp h
    cases heq
    exact ⟨n, hn, by rw [horigin]; rfl⟩
  · rename_i horigin
    obtain ⟨n, hn, heq⟩ := Option.map_eq_some_iff.mp h
    cases heq
    exact ⟨n, hn, by rw [horigin]; rfl⟩
  · cases h

theorem mem_spawned {e : Effect V} {child : Task V I} (h : child ∈ task.spawned t e) :
    ∃ index childStepId childHashedId itemName spec cfg hashedId,
      e = .spawn index childStepId childHashedId itemName ∧
      task.batch = some (spec, cfg, hashedId) ∧
      child = .new { task.ctx with currentParentId := some hashedId } (.child t index)
        (returning .value
          (Batch.runChild spec task.ctx cfg hashedId childStepId childHashedId itemName)) := by
  cases e with
  | spawn index childStepId childHashedId itemName =>
    obtain ⟨⟨spec, cfg, hashedId⟩, hbatch, rfl⟩ :=
      Option.map_eq_some_iff.mp (Option.mem_toList.mp h)
    exact ⟨_, _, _, _, spec, cfg, hashedId, rfl, hbatch, rfl⟩
  | _ => cases h

theorem mem_started {new : Task V I} (h : new ∈ started s l) :
    (∃ (c : Nat) (name : Option String) (call : DurableCall V I) (ctx : ExecutionContext),
      l = .begin c name call ∧ s.contexts[c]? = some ctx ∧
      new = .new ctx (.call name call) (call.run ctx name)) ∨
    ∃ (t : Nat) (task : Task V I) (e : Effect V), s.tasks[t]? = some task ∧
      nextEffect task.program = some e ∧ new ∈ task.spawned t e := by
  cases l with
  | begin c name call =>
    obtain ⟨ctx, hctx, rfl⟩ := Option.map_eq_some_iff.mp (Option.mem_toList.mp h)
    exact Or.inl ⟨c, name, call, ctx, rfl, hctx, rfl⟩
  | perform t choose =>
    right
    unfold started at h
    cases htask : s.tasks[t]? with
    | none => simp [htask] at h
    | some task =>
      cases he : nextEffect task.program with
      | none => simp [htask, he] at h
      | some e => exact ⟨t, task, e, htask, he, by simpa [htask, he] using h⟩
  | _ => cases h

/-- What a task sees, or would see, is in a run of its call; the task has always been the same,
and what holds of `s` and cannot come about later held before. -/
theorem look_reachableBy {token : String} {root : ExecutionContext}
    {allow : State V I → Label V I → Prop} {P : State V I → Prop}
    {permit : Call.State V (DurableResult (Output V)) → Call.Label V → Prop}
    (hbefore : ∀ s l s', Move loaded s l s' → P s' → P s)
    (hpermit : ∀ s l cl, allow s l → P s → (∀ task', s.tasks[j]? = some task' → task'.Same task) →
      Seen s j l cl → permit (s.look j task.start) cl)
    (h : (machine token loaded root).ReachableBy allow s) (hP : P s)
    (hsame : ∀ task', s.tasks[j]? = some task' → task'.Same task) :
    (Call.machine token loaded task.start).ReachableBy permit (s.look j task.start) := by
  induction h with
  | init hs =>
    obtain ⟨-, mode, rfl⟩ := hs
    exact .init ⟨mode, rfl⟩
  | @step s s' l hr hl hstep ih =>
    have hmove := move_of_step hstep
    have hP := hbefore s l s' hmove hP
    have hbefore : ∀ task', s.tasks[j]? = some task' → task'.Same task := fun task' htask => by
      obtain ⟨task'', htask'', hkept⟩ := hmove.grows.kept j task' htask
      have hafter := hsame task'' htask''
      exact ⟨hafter.ctx.trans hkept.ctx, hafter.origin.trans hkept.origin,
        hafter.start.trans hkept.start⟩
    rcases look_step hmove fun task' htask' => (hsame task' htask').start.symm with heq | ⟨cl, hcl, hseen⟩
    · rw [heq]
      exact ih hP hbefore
    · exact (ih hP hbefore).step (hpermit s l cl hl hP hbefore hseen) hcl

theorem view_reachableBy_of_kept {token : String} {root : ExecutionContext}
    {allow : State V I → Label V I → Prop} {P : State V I → Prop}
    {permit : Call.State V (DurableResult (Output V)) → Call.Label V → Prop}
    (hbefore : ∀ s l s', Move loaded s l s' → P s' → P s)
    (hpermit : ∀ s l cl, allow s l → P s → (∀ task', s.tasks[j]? = some task' → task'.Same task) →
      Seen s j l cl → permit (s.look j task.start) cl)
    (h : (machine token loaded root).ReachableBy allow s) (hP : P s) (htask : s.tasks[j]? = some task) :
    (Call.machine token loaded task.start).ReachableBy permit (s.view task) := by
  rw [← look_of_mem (p := task.start) htask]
  refine look_reachableBy hbefore hpermit h hP fun task' htask' => ?_
  rw [htask] at htask'
  exact Option.some.inj htask' ▸ .refl task

theorem view_reachableBy {token : String} {root : ExecutionContext}
    {allow : State V I → Label V I → Prop}
    {permit : Call.State V (DurableResult (Output V)) → Call.Label V → Prop}
    (hpermit : ∀ s l cl, allow s l → (∀ task', s.tasks[j]? = some task' → task'.Same task) →
      Seen s j l cl → permit (s.look j task.start) cl)
    (h : (machine token loaded root).ReachableBy allow s) (htask : s.tasks[j]? = some task) :
    (Call.machine token loaded task.start).ReachableBy permit (s.view task) :=
  view_reachableBy_of_kept (P := fun _ => True) (fun _ _ _ _ _ => trivial)
    (fun s l cl hl _ => hpermit s l cl hl) h trivial htask

end

end Tasks

end LambdaDurable
