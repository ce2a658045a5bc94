import LambdaDurable.Types.Error

/-!
# Operations, their recorded state, and the updates sent for them

Timestamps of the recorded state are read by no operation and are left out.
-/

namespace LambdaDurable

inductive OperationType
  | step | wait | callback | chainedInvoke | context | execution
  deriving DecidableEq, Repr

inductive OperationStatus
  | ready | started | pending | succeeded | failed | unknown
  deriving DecidableEq, Repr

/-- The statuses `has_finished_ancestor` and the replay branches treat as final. -/
def OperationStatus.isTerminal : OperationStatus → Bool
  | .succeeded | .failed => true
  | _ => false

inductive OperationAction
  | start | retry | succeed | fail | cancel
  deriving DecidableEq, Repr

def OperationAction.isTerminal : OperationAction → Bool
  | .succeed | .fail => true
  | _ => false

structure StepDetails where
  attempt : Option Nat := none
  result : Option String := none
  error : Option ErrorObject := none
  deriving DecidableEq, Repr

structure CallbackDetails where
  callbackId : Option String := none
  result : Option String := none
  error : Option ErrorObject := none
  deriving DecidableEq, Repr

structure ExecutionDetails where
  inputPayload : Option String := none
  outputPayload : Option String := none
  deriving DecidableEq, Repr

structure ContextDetails where
  replayChildren : Option Bool := none
  result : Option String := none
  error : Option ErrorObject := none
  deriving DecidableEq, Repr

structure ChainedInvokeDetails where
  result : Option String := none
  error : Option ErrorObject := none
  deriving DecidableEq, Repr

structure Operation where
  id : String
  parentId : Option String := none
  name : Option String := none
  operationType : OperationType
  subType : Option String := none
  status : OperationStatus
  stepDetails : Option StepDetails := none
  callbackDetails : Option CallbackDetails := none
  executionDetails : Option ExecutionDetails := none
  contextDetails : Option ContextDetails := none
  chainedInvokeDetails : Option ChainedInvokeDetails := none
  deriving DecidableEq, Repr

/-- `attempt` of the step details, 0 where there is none. -/
def Operation.attemptIdx (op : Operation) : Nat := (op.stepDetails.bind (·.attempt)).getD 0

/-- `attempt_idx + 1` as the source adds it, in `u32`; the operations add in `Nat`. -/
def Operation.nextAttempt (op : Operation) : UInt32 := .ofNat op.attemptIdx + 1

theorem Operation.nextAttempt_toNat {op : Operation} (h : op.attemptIdx + 1 < 2 ^ 32) :
    op.nextAttempt.toNat = op.attemptIdx + 1 := by
  rw [nextAttempt, UInt32.toNat_add, UInt32.toNat_ofNat', UInt32.toNat_one]
  omega

/-- A table of operations by (hashed) operation ID. -/
abbrev Table := String → Option Operation

def Table.insert (t : Table) (op : Operation) : Table := Function.update t op.id (some op)

/-- `for op in operations { step_data.insert(op.id.clone(), op) }` -/
def Table.insertAll (t : Table) (ops : List Operation) : Table := ops.foldl Table.insert t

def Table.terminal (t : Table) (id : String) : Bool :=
  (t id).any fun op => op.status.isTerminal

theorem Table.insert_apply (t : Table) (op : Operation) (id : String) :
    t.insert op id = if id = op.id then some op else t id := by
  simp [Table.insert, Function.update_apply]

theorem Table.insertAll_apply (t : Table) (ops : List Operation) (id : String) :
    t.insertAll ops id = t id ∨ ∃ op ∈ ops, op.id = id ∧ t.insertAll ops id = some op := by
  induction ops generalizing t with
  | nil => exact Or.inl rfl
  | cons op ops ih =>
    obtain h | ⟨op', hmem, hid, h⟩ := ih (t.insert op)
    · by_cases hop : id = op.id
      · refine Or.inr ⟨op, List.mem_cons_self, hop.symm, h.trans ?_⟩
        rw [Table.insert_apply, if_pos hop]
      · refine Or.inl (h.trans ?_)
        rw [Table.insert_apply, if_neg hop]
    · exact Or.inr ⟨op', List.mem_cons_of_mem _ hmem, hid, h⟩

structure ContextUpdateOptions where
  replayChildren : Option Bool := none
  deriving DecidableEq, Repr

structure StepUpdateOptions where
  nextAttemptDelaySeconds : Option Int := none
  deriving DecidableEq, Repr

structure WaitUpdateOptions where
  waitSeconds : Option Int := none
  deriving DecidableEq, Repr

structure CallbackUpdateOptions where
  timeoutSeconds : Option Int := none
  heartbeatTimeoutSeconds : Option Int := none
  deriving DecidableEq, Repr

structure ChainedInvokeUpdateOptions where
  functionName : String
  tenantId : Option String := none
  deriving DecidableEq, Repr

structure OperationUpdate where
  id : String
  parentId : Option String := none
  name : Option String := none
  operationType : OperationType
  subType : Option String := none
  action : OperationAction
  payload : Option String := none
  error : Option ErrorObject := none
  contextOptions : Option ContextUpdateOptions := none
  stepOptions : Option StepUpdateOptions := none
  waitOptions : Option WaitUpdateOptions := none
  callbackOptions : Option CallbackUpdateOptions := none
  chainedInvokeOptions : Option ChainedInvokeUpdateOptions := none
  deriving DecidableEq, Repr

/-- The code points with the Unicode property White_Space, which `str::trim` removes. -/
def isWhiteSpace (c : Char) : Bool :=
  (9 ≤ c.toNat && c.toNat ≤ 13) || (0x2000 ≤ c.toNat && c.toNat ≤ 0x200A) ||
    [0x20, 0x85, 0xA0, 0x1680, 0x2028, 0x2029, 0x202F, 0x205F, 0x3000].contains c.toNat

/-- `s.trim().is_empty()` -/
def blank (s : String) : Bool := s.toList.all isWhiteSpace

/-- The checks of `OperationUpdateBuilder::build`. Every builder in the crate sets the
ID, the type and the action, so the update under construction already has them. -/
def OperationUpdate.build (u : OperationUpdate) : Except String OperationUpdate :=
  if (u.stepOptions.bind (·.nextAttemptDelaySeconds)).any (· < 0) then
    .error "next_attempt_delay_seconds must be >= 0"
  else if (u.waitOptions.bind (·.waitSeconds)).any (· < 0) then
    .error "wait_seconds must be >= 0"
  else if (u.callbackOptions.bind (·.timeoutSeconds)).any (· < 0) then
    .error "timeout_seconds must be >= 0"
  else if (u.callbackOptions.bind (·.heartbeatTimeoutSeconds)).any (· < 0) then
    .error "heartbeat_timeout_seconds must be >= 0"
  else if u.chainedInvokeOptions.any fun o => blank o.functionName then
    .error "function_name must not be empty"
  else .ok u

/-- The options of an update pass the builder's checks. -/
def OperationUpdate.Buildable (u : OperationUpdate) : Prop := u.build = .ok u

theorem OperationUpdate.build_eq_ok {u v : OperationUpdate} (h : u.build = .ok v) : v = u := by
  unfold build at h
  grind

theorem OperationUpdate.build_eq {u : OperationUpdate}
    (hstep : ∀ o ∈ u.stepOptions, ∀ d ∈ o.nextAttemptDelaySeconds, 0 ≤ d)
    (hwait : ∀ o ∈ u.waitOptions, ∀ d ∈ o.waitSeconds, 0 ≤ d)
    (htimeout : ∀ o ∈ u.callbackOptions, ∀ d ∈ o.timeoutSeconds, 0 ≤ d)
    (hheartbeat : ∀ o ∈ u.callbackOptions, ∀ d ∈ o.heartbeatTimeoutSeconds, 0 ≤ d)
    (hinvoke : ∀ o ∈ u.chainedInvokeOptions, blank o.functionName = false) : u.Buildable := by
  unfold Buildable build
  have hnot : ∀ {o : Option Int}, (∀ d ∈ o, 0 ≤ d) → o.any (· < 0) = false := by
    intro o ho
    cases o with
    | none => rfl
    | some d =>
      have hd := ho d rfl
      simp only [Option.any_some, decide_eq_false_iff_not]
      omega
  have hbind : ∀ {α : Type} {o : Option α} {f : α → Option Int}, (∀ a ∈ o, ∀ d ∈ f a, 0 ≤ d) →
      ∀ d ∈ o.bind f, 0 ≤ d := by
    intro α o f ho d hd
    obtain ⟨a, ha, hda⟩ := Option.bind_eq_some_iff.mp hd
    exact ho a ha d hda
  have hnamed : u.chainedInvokeOptions.any (fun o => blank o.functionName) = false := by
    cases hopts : u.chainedInvokeOptions with
    | none => rfl
    | some o => exact hinvoke o hopts
  simp [hnot (hbind hstep), hnot (hbind hwait), hnot (hbind htimeout), hnot (hbind hheartbeat), hnamed]

theorem OperationUpdate.build_of_plain {u : OperationUpdate} (hstep : u.stepOptions = none)
    (hwait : u.waitOptions = none) (hcallback : u.callbackOptions = none)
    (hinvoke : u.chainedInvokeOptions = none) : u.Buildable := by
  apply build_eq <;> simp [hstep, hwait, hcallback, hinvoke]

end LambdaDurable
