import LambdaDurable.Checkpoint.Backend
import LambdaDurable.Checkpoint.Manager
import LambdaDurable.Context.Effect

/-!
# One call in an arbitrary invocation

The program runs against the checkpoint manager, the mode flag and the service. All
other tasks of the invocation are in the labels: any step of the manager (their own
calls of it included), any write of the mode flag, any action of the service, at any
moment. So what holds of every run here holds in every handler and for every order of
its tasks. `trace` records the answered effects, newest first; no code reads it.
-/

namespace LambdaDurable

open Effects

/-- An answered effect. -/
abbrev Event (V : Type) : Type := (e : Effect V) × Answer e

/-- The number a `fetch_add` answered. -/
def Event.counter {V : Type} : Event V → Option Nat
  | ⟨.fetchAdd _, n⟩ => some n
  | _ => none

/-- The number a call has drawn for its operation ID: the first one of its trace. -/
def drawn {V : Type} : List (Event V) → Option Nat
  | [] => none
  | event :: trace => (drawn trace).or event.counter

namespace Call

structure State (V α : Type) where
  manager : CheckpointManager.State
  backend : Table
  mode : ExecutionMode
  program : Act V α
  /-- the number of the manager call the program waits for -/
  ticket : Option Nat := none
  trace : List (Event V) := []

inductive Label (V : Type)
  -- the manager, on behalf of anyone
  | manager (l : CheckpointManager.Label)
  -- another task
  | setMode (mode : ExecutionMode)
  | service (event : Backend.Event)
  -- the program: an effect answered at once, a call of a manager, and its return
  | perform (choose : (e : Effect V) → Option (Answer e))
  | request (n : Nat)
  | resume

variable {V α : Type}

/-- The updates the service acknowledges in a step of the manager. -/
def acknowledged (m : CheckpointManager.State) : CheckpointManager.Label → List OperationUpdate
  | .respond o (.ok _) =>
    match m.callOf o with
    | some (_, .inFlight _ updates) => updates
    | _ => []
  | _ => []

/-- The answer of an effect that calls no manager. Tables and flags are read; counters,
user code and tasks answer as the environment chooses. -/
def instant (loaded : Table) (mode : ExecutionMode) (choose : (e : Effect V) → Option (Answer e)) :
    (e : Effect V) → Option (Answer e)
  | .getStepData hashedId => some (loaded hashedId)
  | .getMode => some mode
  | .setMode _ | .markAwaited _ | .mark _ => some ()
  | .checkpoint _ _ | .checkpointQueued _ _ | .forceCheckpoint | .terminate _ => none
  | .pending | .panic _ => none
  | e => choose e

def requestLabel (n : Nat) : Effect V → Option CheckpointManager.Label
  | .checkpoint stepId update => some (.call n .checkpoint stepId update)
  | .checkpointQueued stepId update => some (.call n .checkpointQueued stepId update)
  | .forceCheckpoint => some (.force n)
  | .terminate result => some (.terminate n result)
  | _ => none

/-- The answer of a finished manager call. -/
def outcome (m : CheckpointManager.State) (n : Nat) : (e : Effect V) → Option (Answer e)
  | .checkpoint _ _ | .checkpointQueued _ _ =>
    if (m.callers n).any (·.phase = .returned) then some (.ok ()) else none
  | .forceCheckpoint =>
    match m.forces n with
    | some (.finished result) => some result
    | _ => none
  | .terminate _ => if (m.terminators n).any (·.stage = .returned) then some () else none
  | _ => none

namespace State

variable (s : State V α)

/-- What an effect does besides being answered. -/
def touch : Effect V → State V α
  | .setMode mode => { s with mode }
  | .markAwaited hashedId => { s with
      manager := { s.manager with
        operations := CheckpointManager.markAwaited s.manager.operations hashedId } }
  | _ => s

def answer (e : Effect V) (a : Answer e) (k : Answer e → Act V α) : State V α :=
  { s with program := k a, ticket := none, trace := ⟨e, a⟩ :: s.trace }

def manage (l : CheckpointManager.Label) (m : CheckpointManager.State) : State V α :=
  { s with manager := m, backend := Backend.applyAll s.backend (acknowledged s.manager l) }

@[simp] theorem answer_manager (e : Effect V) (a : Answer e) (k : Answer e → Act V α) :
    (s.answer e a k).manager = s.manager := rfl

@[simp] theorem answer_backend (e : Effect V) (a : Answer e) (k : Answer e → Act V α) :
    (s.answer e a k).backend = s.backend := rfl

@[simp] theorem answer_trace (e : Effect V) (a : Answer e) (k : Answer e → Act V α) :
    (s.answer e a k).trace = ⟨e, a⟩ :: s.trace := rfl

@[simp] theorem touch_backend (e : Effect V) : (s.touch e).backend = s.backend := by
  cases e <;> rfl

@[simp] theorem touch_trace (e : Effect V) : (s.touch e).trace = s.trace := by
  cases e <;> rfl

end State

def step (loaded : Table) (s : State V α) : Label V → Option (State V α)
  | .manager l => (CheckpointManager.step s.manager l).map (s.manage l)
  | .setMode mode => some { s with mode }
  | .service event => (Backend.advance s.backend event).map fun backend => { s with backend }
  | .perform choose =>
    match s.ticket, s.program with
    | none, .act e k => (instant loaded s.mode choose e).map fun a => (s.touch e).answer e a k
    | _, _ => none
  | .request n =>
    match s.ticket, s.program with
    | none, .act e _ => (requestLabel n e).bind fun l =>
      (CheckpointManager.step s.manager l).map fun m => { s with manager := m, ticket := some n }
    | _, _ => none
  | .resume =>
    match s.ticket, s.program with
    | some n, .act e k => (outcome s.manager n e).map fun a => s.answer e a k
    | _, _ => none

/-- The table loaded at the start of the invocation is the service's own. -/
def State.new (token : String) (loaded : Table) (mode : ExecutionMode) (program : Act V α) :
    State V α :=
  { manager := .new token loaded, backend := loaded, mode, program }

/-- The call of a program in an invocation that loaded the given table. -/
def machine (token : String) (loaded : Table) (program : Act V α) :
    Transition.Machine (State V α) (Label V) where
  init s := ∃ mode, s = .new token loaded mode program
  step := step loaded

/-- What one step can do. -/
inductive Move (loaded : Table) (s : State V α) : Label V → State V α → Prop
  | manager {l : CheckpointManager.Label} {m : CheckpointManager.State} :
      CheckpointManager.step s.manager l = some m → Move loaded s (.manager l) (s.manage l m)
  | setMode {mode : ExecutionMode} : Move loaded s (.setMode mode) { s with mode }
  | service {event : Backend.Event} {backend : Table} :
      Backend.advance s.backend event = some backend →
      Move loaded s (.service event) { s with backend }
  | perform {choose : (e : Effect V) → Option (Answer e)} {e : Effect V}
      {k : Answer e → Act V α} {a : Answer e} : s.ticket = none → s.program = .act e k →
      instant loaded s.mode choose e = some a →
      Move loaded s (.perform choose) ((s.touch e).answer e a k)
  | request {n : Nat} {e : Effect V} {k : Answer e → Act V α} {l : CheckpointManager.Label}
      {m : CheckpointManager.State} : s.ticket = none → s.program = .act e k →
      requestLabel n e = some l → CheckpointManager.step s.manager l = some m →
      Move loaded s (.request n) { s with manager := m, ticket := some n }
  | resume {n : Nat} {e : Effect V} {k : Answer e → Act V α} {a : Answer e} :
      s.ticket = some n → s.program = .act e k → outcome s.manager n e = some a →
      Move loaded s .resume (s.answer e a k)

theorem move_of_step {loaded : Table} {s s' : State V α} {l : Label V}
    (h : step loaded s l = some s') : Move loaded s l s' := by
  cases l with
  | manager l =>
    obtain ⟨m, hm, rfl⟩ := Option.map_eq_some_iff.mp h
    exact .manager hm
  | setMode mode =>
    obtain rfl := Option.some.inj h
    exact .setMode
  | service event =>
    obtain ⟨backend, hb, rfl⟩ := Option.map_eq_some_iff.mp h
    exact .service hb
  | perform choose =>
    simp only [step] at h
    split at h
    · rename_i hticket hprogram
      obtain ⟨a, ha, rfl⟩ := Option.map_eq_some_iff.mp h
      exact .perform hticket hprogram ha
    · cases h
  | request n =>
    simp only [step] at h
    split at h
    · rename_i hticket hprogram
      obtain ⟨l, hl, h⟩ := Option.bind_eq_some_iff.mp h
      obtain ⟨m, hm, rfl⟩ := Option.map_eq_some_iff.mp h
      exact .request hticket hprogram hl hm
    · cases h
  | resume =>
    simp only [step] at h
    split at h
    · rename_i hticket hprogram
      obtain ⟨a, ha, rfl⟩ := Option.map_eq_some_iff.mp h
      exact .resume hticket hprogram ha
    · cases h

/-! ## From programs to runs -/

/-- A monitor whose ghost state is the trace. -/
def traced (answers : List (Event V) → (e : Effect V) → Answer e → Prop)
    (allows : List (Event V) → Effect V → Prop) :
    Monitor (Effect V) Answer (List (Event V)) where
  answers := answers
  allows := allows
  after trace e a := ⟨e, a⟩ :: trace

/-- What every run guarantees of an answer. -/
def Answers (loaded : Table) : (e : Effect V) → Answer e → Prop
  | .getStepData hashedId, op => op = loaded hashedId
  | .checkpoint _ _, r => r = .ok ()
  | .checkpointQueued _ _, r => r = .ok ()
  | _, _ => True

theorem answers_of_instant {loaded : Table} {mode : ExecutionMode}
    {choose : (e : Effect V) → Option (Answer e)} {e : Effect V} {a : Answer e}
    (h : instant loaded mode choose e = some a) : Answers loaded e a := by
  cases e with
  | getStepData hashedId => exact (Option.some.inj h).symm
  | checkpoint _ _ | checkpointQueued _ _ => cases h
  | _ => trivial

theorem answers_of_outcome {loaded : Table} {m : CheckpointManager.State} {n : Nat}
    {e : Effect V} {a : Answer e} (h : outcome m n e = some a) : Answers loaded e a := by
  cases e with
  | checkpoint _ _ | checkpointQueued _ _ =>
    simp only [outcome, Option.ite_none_right_eq_some] at h
    exact (Option.some.inj h.2).symm
  | getStepData _ => cases h
  | _ => trivial

/-- The answers of the runs considered are those the monitor expects. -/
def Respects (loaded : Table) (allow : State V α → Label V → Prop)
    (answers : List (Event V) → (e : Effect V) → Answer e → Prop) : Prop :=
  ∀ s l s', allow s l → Move loaded s l s' → ∀ e a, s'.trace = ⟨e, a⟩ :: s.trace →
    Answers loaded e a → answers s.trace e a

theorem respects_answers (loaded : Table) (allow : State V α → Label V → Prop) :
    Respects loaded allow fun _ => Answers loaded :=
  fun _ _ _ _ _ _ _ _ hanswers => hanswers

/-- What the monitor promises of the program holds in every state of every run. -/
theorem meets_of_reachableBy {token : String} {loaded : Table} {program : Act V α}
    {allow : State V α → Label V → Prop}
    {answers : List (Event V) → (e : Effect V) → Answer e → Prop}
    {allows : List (Event V) → Effect V → Prop} {post : List (Event V) → α → Prop}
    (hrespects : Respects loaded allow answers)
    (hmeets : program.Meets (traced answers allows) post []) {s : State V α}
    (h : (machine token loaded program).ReachableBy allow s) :
    s.program.Meets (traced answers allows) post s.trace := by
  refine h.invariant (I := fun s => s.program.Meets (traced answers allows) post s.trace) ?_ ?_
  · rintro _ ⟨mode, rfl⟩
    exact hmeets
  · intro s l s' _ hs hl hstep
    have hmove := move_of_step hstep
    cases hmove with
    | manager _ | setMode | service _ | request _ _ _ _ => exact hs
    | @perform _ e k a _ hprogram ha =>
      rw [hprogram] at hs
      have hans := hrespects s _ _ hl (move_of_step hstep) e a (by simp) (answers_of_instant ha)
      rw [State.answer_trace, State.touch_trace]
      exact hs.2 a hans
    | @resume _ e k a _ hprogram ha =>
      rw [hprogram] at hs
      exact hs.2 a (hrespects s _ _ hl (move_of_step hstep) e a rfl (answers_of_outcome ha))

/-- Every effect of the trace was allowed when it was performed. -/
def Permitted (allows : List (Event V) → Effect V → Prop) : List (Event V) → Prop
  | [] => True
  | event :: trace => allows trace event.1 ∧ Permitted allows trace

theorem permitted_event {allows : List (Event V) → Effect V → Prop} {later earlier : List (Event V)}
    {event : Event V} (h : Permitted allows (later ++ event :: earlier)) : allows earlier event.1 := by
  induction later with
  | nil => exact h.1
  | cons _ later ih => exact ih h.2

theorem permitted_of_reachableBy {token : String} {loaded : Table} {program : Act V α}
    {allow : State V α → Label V → Prop}
    {answers : List (Event V) → (e : Effect V) → Answer e → Prop}
    {allows : List (Event V) → Effect V → Prop} {P : List (Event V) → α → Prop}
    (hrespects : Respects loaded allow answers)
    (hmeets : program.Meets (traced answers allows) P []) {s : State V α}
    (h : (machine token loaded program).ReachableBy allow s) : Permitted allows s.trace := by
  refine h.invariant (I := fun s => Permitted allows s.trace) ?_ ?_
  · rintro _ ⟨mode, rfl⟩
    trivial
  · intro s l s' hr hs hl hstep
    have hnow := meets_of_reachableBy hrespects hmeets hr
    cases move_of_step hstep with
    | manager _ | setMode | service _ | request _ _ _ _ => exact hs
    | @perform _ e _ _ _ hprogram _ =>
      rw [hprogram] at hnow
      rw [State.answer_trace, State.touch_trace]
      exact ⟨hnow.1, hs⟩
    | resume _ hprogram _ =>
      rw [hprogram] at hnow
      exact ⟨hnow.1, hs⟩

section

variable {token : String} {loaded : Table} {program : Act V α} {allow : State V α → Label V → Prop}
  {answers : List (Event V) → (e : Effect V) → Answer e → Prop}
  {allows : List (Event V) → Effect V → Prop} {post : List (Event V) → α → Prop} {s : State V α}
  {kept : List (Event V) → Prop} {keeps : List (Event V) → (e : Effect V) → Answer e → Prop}

/-- The same for the runs whose trace is of a kind that is lost for good once it is lost. -/
theorem meets_of_kept (hearlier : ∀ event trace, kept (event :: trace) → kept trace)
    (hkeeps : ∀ trace e a, kept (⟨e, a⟩ :: trace) → keeps trace e a)
    (hrespects : Respects loaded allow answers)
    (hmeets : program.Meets (traced
      (fun trace e a => (Answers loaded e a ∧ keeps trace e a) ∧ answers trace e a) allows) post [])
    (h : (machine token loaded program).ReachableBy allow s) (hkept : kept s.trace) :
    s.program.Meets (traced
      (fun trace e a => (Answers loaded e a ∧ keeps trace e a) ∧ answers trace e a) allows) post
      s.trace := by
  refine h.invariant (I := fun s => kept s.trace → s.program.Meets (traced
    (fun trace e a => (Answers loaded e a ∧ keeps trace e a) ∧ answers trace e a) allows) post
    s.trace) ?_ ?_ hkept
  · rintro _ ⟨mode, rfl⟩ -
    exact hmeets
  · intro s l s' _ hs hl hstep hkept
    have hmove := move_of_step hstep
    cases hmove with
    | manager _ | setMode | service _ | request _ _ _ _ => exact hs hkept
    | @perform _ e k a _ hprogram ha =>
      rw [State.answer_trace, State.touch_trace] at hkept ⊢
      have hbefore := hs (hearlier _ _ hkept)
      rw [hprogram] at hbefore
      have hans : Answers loaded e a := answers_of_instant ha
      exact hbefore.2 a ⟨⟨hans, hkeeps _ _ _ hkept⟩,
        hrespects s _ _ hl (move_of_step hstep) e a (by simp) hans⟩
    | @resume _ e k a _ hprogram ha =>
      have hbefore := hs (hearlier _ _ hkept)
      rw [hprogram] at hbefore
      have hans : Answers loaded e a := answers_of_outcome ha
      exact hbefore.2 a ⟨⟨hans, hkeeps _ _ _ hkept⟩,
        hrespects s _ _ hl (move_of_step hstep) e a rfl hans⟩

theorem permitted_of_kept (hearlier : ∀ event trace, kept (event :: trace) → kept trace)
    (hkeeps : ∀ trace e a, kept (⟨e, a⟩ :: trace) → keeps trace e a)
    (hrespects : Respects loaded allow answers)
    (hmeets : program.Meets (traced
      (fun trace e a => (Answers loaded e a ∧ keeps trace e a) ∧ answers trace e a) allows) post [])
    (h : (machine token loaded program).ReachableBy allow s) (hkept : kept s.trace) :
    Permitted allows s.trace := by
  refine h.invariant (I := fun s => kept s.trace → Permitted allows s.trace) ?_ ?_ hkept
  · rintro _ ⟨mode, rfl⟩ -
    trivial
  · intro s l s' hr hs hl hstep hkept
    cases move_of_step hstep with
    | manager _ | setMode | service _ | request _ _ _ _ => exact hs hkept
    | @perform _ e _ _ _ hprogram _ =>
      rw [State.answer_trace, State.touch_trace] at hkept ⊢
      have hbefore := hearlier _ _ hkept
      have hnow := meets_of_kept hearlier hkeeps hrespects hmeets hr hbefore
      rw [hprogram] at hnow
      exact ⟨hnow.1, hs hbefore⟩
    | resume _ hprogram _ =>
      have hbefore := hearlier _ _ hkept
      have hnow := meets_of_kept hearlier hkeeps hrespects hmeets hr hbefore
      rw [hprogram] at hnow
      exact ⟨hnow.1, hs hbefore⟩

end

/-- Answers that, if they draw the operation's number, draw `n`. -/
def Drawing (loaded : Table) (n : Nat) (trace : List (Event V)) (e : Effect V) (a : Answer e) :
    Prop :=
  Answers loaded e a ∧ (drawn trace = none → ∀ m, Event.counter ⟨e, a⟩ = some m → m = n)

/-- The call has drawn no other number. -/
def DrawsOnly (n : Nat) (trace : List (Event V)) : Prop := drawn trace = none ∨ drawn trace = some n

theorem DrawsOnly.earlier {n : Nat} (event : Event V) (trace : List (Event V))
    (h : DrawsOnly n (event :: trace)) : DrawsOnly n trace := by
  unfold DrawsOnly at *
  cases htrace : drawn trace with
  | none => exact Or.inl rfl
  | some m => simpa [drawn, htrace] using h

theorem DrawsOnly.number_eq {n : Nat} (trace : List (Event V)) (e : Effect V) (a : Answer e)
    (h : DrawsOnly n (⟨e, a⟩ :: trace)) (hnone : drawn trace = none) (m : Nat)
    (hm : Event.counter ⟨e, a⟩ = some m) : m = n := by
  simpa [DrawsOnly, drawn, hnone, hm] using h

section

variable {token : String} {loaded : Table} {program : Act V α} {allow : State V α → Label V → Prop}
  {n : Nat} {answers : List (Event V) → (e : Effect V) → Answer e → Prop}
  {allows : List (Event V) → Effect V → Prop} {post : List (Event V) → α → Prop} {s : State V α}

/-- The same for the runs in which the call draws the number `n`. -/
theorem meets_of_drawn (hrespects : Respects loaded allow answers)
    (hmeets : program.Meets (traced
      (fun trace e a => Drawing loaded n trace e a ∧ answers trace e a) allows) post [])
    (h : (machine token loaded program).ReachableBy allow s) (hn : drawn s.trace = some n) :
    s.program.Meets (traced
      (fun trace e a => Drawing loaded n trace e a ∧ answers trace e a) allows) post s.trace :=
  meets_of_kept DrawsOnly.earlier DrawsOnly.number_eq hrespects hmeets h
    (Or.inr hn : DrawsOnly n s.trace)

theorem permitted_of_drawn (hrespects : Respects loaded allow answers)
    (hmeets : program.Meets (traced
      (fun trace e a => Drawing loaded n trace e a ∧ answers trace e a) allows) post [])
    (h : (machine token loaded program).ReachableBy allow s) (hn : drawn s.trace = some n) :
    Permitted allows s.trace :=
  permitted_of_kept DrawsOnly.earlier DrawsOnly.number_eq hrespects hmeets h
    (Or.inr hn : DrawsOnly n s.trace)

end

/-! ## Runs of instant effects -/

/-- Some run in which the call draws the number `n` brings the program to `p`. -/
def Arrives (token : String) (loaded : Table) (program : Act V α) (n : Nat) (p : Act V α) : Prop :=
  ∃ s, (machine token loaded program).Reachable s ∧ s.ticket = none ∧ drawn s.trace = some n ∧
    s.program = p

section

variable {token : String} {loaded : Table} {program : Act V α} {n : Nat}

theorem Arrives.perform {e : Effect V} {k : Answer e → Act V α}
    (h : Arrives token loaded program n (.act e k)) (choose : (e : Effect V) → Option (Answer e))
    {a : Answer e} (ha : ∀ mode, instant loaded mode choose e = some a) :
    Arrives token loaded program n (k a) := by
  obtain ⟨s, hs, hticket, hn, hprogram⟩ := h
  refine ⟨(s.touch e).answer e a k, hs.step (l := .perform choose) trivial ?_, rfl, ?_, rfl⟩
  · simp [machine, step, hticket, hprogram, ha]
  · simp [drawn, hn]

theorem Arrives.getStepData {hashedId : String} {k : Option Operation → Act V α}
    (h : Arrives token loaded program n (.act (.getStepData hashedId) k)) :
    Arrives token loaded program n (k (loaded hashedId)) :=
  h.perform (fun _ => none) fun _ => rfl

theorem Arrives.setMode {mode : ExecutionMode} {k : Unit → Act V α}
    (h : Arrives token loaded program n (.act (.setMode mode) k)) :
    Arrives token loaded program n (k ()) :=
  h.perform (fun _ => none) fun _ => rfl

theorem Arrives.getMode {p : Act V α}
    (h : Arrives token loaded program n (.act .getMode fun _ => p)) :
    Arrives token loaded program n p := by
  obtain ⟨s, hs, hticket, hn, hprogram⟩ := h
  refine ⟨s.answer .getMode s.mode fun _ => p, hs.step (l := .perform fun _ => none) trivial ?_, rfl,
    ?_, rfl⟩
  · simp [machine, step, hticket, hprogram, instant, State.touch]
  · simp [drawn, hn]

theorem arrives_of_fetchAdd {c : Nat} {k : Nat → Act V α} (h : program = .act (.fetchAdd c) k)
    (token : String) (loaded : Table) (n : Nat) : Arrives token loaded program n (k n) := by
  subst h
  let choose : (e : Effect V) → Option (Answer e)
    | .fetchAdd _ => some n
    | _ => none
  let s : State V α := .new token loaded .execution (.act (.fetchAdd c) k)
  exact ⟨s.answer (.fetchAdd c) n k,
    .step (.init ⟨_, rfl⟩) (l := .perform choose) trivial rfl, rfl, rfl, rfl⟩

end

end Call

/-- The way of a checkpoint through the manager, up to its caller's return. -/
def served (c : Nat) : List CheckpointManager.Label :=
  [.checkTerminating c, .checkAncestor c, .track c, .push c, .maybeStart c c, .takeBatch 0,
    .readToken (.worker 0), .send (.worker 0), .respond (.worker 0) (.ok {}),
    .writeToken (.worker 0), .merge (.worker 0), .finishBatch 0, .notify 0, .wake c, .notify 0,
    .checkRetry 0]

end LambdaDurable
