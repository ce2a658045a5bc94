import LambdaDurable.Types.Json
import LambdaDurable.Types.Operation

/-!
# Records as the service delivers them

A record comes in a response, through the types of the AWS SDK, or in the JSON of the
invocation. The service has more statuses than the crate.
-/

namespace LambdaDurable

open Json

/-- `aws_sdk_lambda::types::OperationStatus` -/
inductive SdkOperationStatus
  | cancelled | failed | pending | ready | started | stopped | succeeded | timedOut
  | unknown (value : String)
  deriving DecidableEq, Repr

namespace SdkOperationStatus

/-- The statuses the service never leaves. -/
def isFinal : SdkOperationStatus → Bool
  | succeeded | failed | timedOut | cancelled | stopped => true
  | _ => false

def asStr : SdkOperationStatus → String
  | cancelled => "CANCELLED"
  | failed => "FAILED"
  | pending => "PENDING"
  | ready => "READY"
  | started => "STARTED"
  | stopped => "STOPPED"
  | succeeded => "SUCCEEDED"
  | timedOut => "TIMED_OUT"
  | unknown value => value

end SdkOperationStatus

/-- `aws_sdk_lambda::types::OperationType` -/
inductive SdkOperationType
  | step | wait | callback | chainedInvoke | context | execution
  | unknown (value : String)
  deriving DecidableEq, Repr

structure SdkErrorObject where
  errorType : Option String := none
  errorMessage : Option String := none
  errorData : Option String := none
  stackTrace : Option (List String) := none

structure SdkStepDetails where
  attempt : Int32
  result : Option String := none
  error : Option SdkErrorObject := none

/-- The details of a callback, with its ID, and of a chained invoke. -/
structure SdkCallbackDetails where
  callbackId : Option String := none
  result : Option String := none
  error : Option SdkErrorObject := none

structure SdkChainedInvokeDetails where
  result : Option String := none
  error : Option SdkErrorObject := none

structure SdkContextDetails where
  replayChildren : Option Bool := none
  result : Option String := none
  error : Option SdkErrorObject := none

structure SdkExecutionDetails where
  inputPayload : Option String := none

/-- `aws_sdk_lambda::types::Operation`, without its timestamps. -/
structure SdkOperation where
  id : String
  parentId : Option String := none
  name : Option String := none
  type : SdkOperationType
  subType : Option String := none
  status : SdkOperationStatus
  stepDetails : Option SdkStepDetails := none
  callbackDetails : Option SdkCallbackDetails := none
  executionDetails : Option SdkExecutionDetails := none
  contextDetails : Option SdkContextDetails := none
  chainedInvokeDetails : Option SdkChainedInvokeDetails := none

def sdkErrorObjectToErrorObject (e : SdkErrorObject) : ErrorObject :=
  { errorType := e.errorType.getD "Error"
    errorMessage := e.errorMessage.getD "Unknown error"
    details := e.errorData.or (e.stackTrace.map ("\n".intercalate ·)) }

def sdkOperationTypeToOperationType : SdkOperationType → OperationType
  | .step => .step
  | .wait => .wait
  | .callback => .callback
  | .chainedInvoke => .chainedInvoke
  | .context => .context
  | .execution => .execution
  | .unknown _ => .step

def sdkOperationStatusToOperationStatus : SdkOperationStatus → OperationStatus
  | .ready => .ready
  | .started => .started
  | .pending => .pending
  | .succeeded => .succeeded
  | .failed => .failed
  | _ => .unknown

def sdkOperationToOperation (op : SdkOperation) : Operation where
  id := op.id
  parentId := op.parentId
  name := op.name
  operationType := sdkOperationTypeToOperationType op.type
  subType := op.subType
  status := sdkOperationStatusToOperationStatus op.status
  stepDetails := op.stepDetails.map fun d =>
    -- `d.attempt as u32`
    { attempt := some d.attempt.toUInt32.toNat, result := d.result,
      error := d.error.map sdkErrorObjectToErrorObject }
  callbackDetails := op.callbackDetails.map fun d =>
    { callbackId := d.callbackId, result := d.result,
      error := d.error.map sdkErrorObjectToErrorObject }
  executionDetails := op.executionDetails.map fun d => { inputPayload := d.inputPayload }
  contextDetails := op.contextDetails.map fun d =>
    { replayChildren := d.replayChildren, result := d.result,
      error := d.error.map sdkErrorObjectToErrorObject }
  chainedInvokeDetails := op.chainedInvokeDetails.map fun d =>
    { result := d.result, error := d.error.map sdkErrorObjectToErrorObject }

/-- The service counts the attempts in an `i32`, so a count leaves room for one attempt more. -/
theorem nextAttempt_of_sdk {op : SdkOperation}
    (hcount : ∀ d, op.stepDetails = some d → 0 ≤ d.attempt) :
    (sdkOperationToOperation op).nextAttempt.toNat = (sdkOperationToOperation op).attemptIdx + 1 := by
  apply Operation.nextAttempt_toNat
  cases hdetails : op.stepDetails with
  | none => simp [Operation.attemptIdx, sdkOperationToOperation, hdetails]
  | some d =>
    have hidx : (sdkOperationToOperation op).attemptIdx = d.attempt.toUInt32.toNat := by
      simp [Operation.attemptIdx, sdkOperationToOperation, hdetails]
    rw [hidx, Int32.toNat_toUInt32_of_le (hcount d hdetails)]
    have hlt := d.attempt.toNatClampNeg_lt
    omega

/-! ## The invocation input -/

/-- A unit variant: its name, or an object with the name for a key. -/
def readVariant : Json → Except String String
  | .string s => .ok s
  | .object [(key, .null)] => .ok key
  | _ => .error "invalid type"

def readU32 : Json → Except String Nat
  | .number (.posInt n) => if n.toNat < 2 ^ 32 then .ok n.toNat else .error "invalid value"
  | _ => .error "invalid type"

def readBool : Json → Except String Bool
  | .bool b => .ok b
  | _ => .error "invalid type"

/-- `FlexibleTimestamp`, checked and dropped. -/
def readTimestamp : Json → Except String Unit
  | .string _ | .number (.negInt _) => .ok ()
  | .number (.posInt n) =>
    if n.toNat < 2 ^ 63 then .ok ()
    else .error "data did not match any variant of untagged enum FlexibleTimestamp"
  | _ => .error "data did not match any variant of untagged enum FlexibleTimestamp"

def OperationType.fromJson (j : Json) : Except String OperationType := do
  match ← readVariant j with
  | "STEP" => .ok .step
  | "WAIT" => .ok .wait
  | "CALLBACK" => .ok .callback
  | "CHAINED_INVOKE" => .ok .chainedInvoke
  | "CONTEXT" => .ok .context
  | "EXECUTION" => .ok .execution
  | other => .error s!"unknown variant `{other}`"

/-- `#[serde(other)]` makes the last variant of every other name. -/
def OperationStatus.ofVariant : String → OperationStatus
  | "READY" => .ready
  | "STARTED" => .started
  | "PENDING" => .pending
  | "SUCCEEDED" => .succeeded
  | "FAILED" => .failed
  | _ => .unknown

def OperationStatus.fromJson (j : Json) : Except String OperationStatus :=
  (readVariant j).map ofVariant

/-- A field that may have a second name and is filled with `missing` where it is absent. -/
def defaultField {T : Type} (size position : Nat) (name second : String)
    (read : Json → Except String T) (missing : T) : Json → Except String T
  | .object fields =>
    match fields.filter fun f => f.1 == name || f.1 == second with
    | [] => .ok missing
    | [field] => read field.2
    | _ => .error s!"duplicate field `{name}`"
  | .array items =>
    if items.length ≤ size then ((items[position]?).map read).getD (.ok missing)
    else .error s!"invalid length {items.length}"
  | _ => .error "invalid type"

def ErrorObject.fromJson (remainingDepth : Nat) (j : Json) : Except String ErrorObject := do
  let _ ← enter remainingDepth
  let errorType ← defaultField 3 0 "ErrorType" "error_type" readString "Error" j
  let errorMessage ← defaultField 3 1 "ErrorMessage" "error_message" readString "" j
  let details ← defaultField 3 2 "Details" "Details" (fun j => optional readString (some j)) none j
  .ok { errorType, errorMessage, details }

def StepDetails.fromJson (remainingDepth : Nat) (j : Json) : Except String StepDetails := do
  let inside ← enter remainingDepth
  let attempt ← (← structField 4 0 "Attempt" j) |> optional readU32
  let _ ← (← structField 4 1 "NextAttemptTimestamp" j) |> optional readTimestamp
  let result ← (← structField 4 2 "Result" j) |> optional readString
  let error ← (← structField 4 3 "Error" j) |> optional (ErrorObject.fromJson inside)
  .ok { attempt, result, error }

def CallbackDetails.fromJson (remainingDepth : Nat) (j : Json) : Except String CallbackDetails := do
  let inside ← enter remainingDepth
  let callbackId ← (← structField 3 0 "CallbackId" j) |> optional readString
  let result ← (← structField 3 1 "Result" j) |> optional readString
  let error ← (← structField 3 2 "Error" j) |> optional (ErrorObject.fromJson inside)
  .ok { callbackId, result, error }

/-- `WaitDetails`, which hold a timestamp only. -/
def readWaitDetails (remainingDepth : Nat) (j : Json) : Except String Unit := do
  let _ ← enter remainingDepth
  let _ ← (← structField 1 0 "ScheduledEndTimestamp" j) |> optional readTimestamp
  .ok ()

def ExecutionDetails.fromJson (remainingDepth : Nat) (j : Json) :
    Except String ExecutionDetails := do
  let _ ← enter remainingDepth
  let inputPayload ← (← structField 2 0 "InputPayload" j) |> optional readString
  let outputPayload ← (← structField 2 1 "OutputPayload" j) |> optional readString
  .ok { inputPayload, outputPayload }

def ContextDetails.fromJson (remainingDepth : Nat) (j : Json) : Except String ContextDetails := do
  let inside ← enter remainingDepth
  let replayChildren ← (← structField 3 0 "ReplayChildren" j) |> optional readBool
  let result ← (← structField 3 1 "Result" j) |> optional readString
  let error ← (← structField 3 2 "Error" j) |> optional (ErrorObject.fromJson inside)
  .ok { replayChildren, result, error }

def ChainedInvokeDetails.fromJson (remainingDepth : Nat) (j : Json) :
    Except String ChainedInvokeDetails := do
  let inside ← enter remainingDepth
  let result ← (← structField 2 0 "Result" j) |> optional readString
  let error ← (← structField 2 1 "Error" j) |> optional (ErrorObject.fromJson inside)
  .ok { result, error }

/-- The `Status` of a record. -/
def statusField (j : Json) : Except String (Option Json) := structField 12 5 "Status" j

def Operation.fromJson (remainingDepth : Nat) (j : Json) : Except String Operation := do
  let inside ← enter remainingDepth
  let id ← (← structField 12 0 "Id" j) |> required "Id" readString
  let parentId ← (← structField 12 1 "ParentId" j) |> optional readString
  let name ← (← structField 12 2 "Name" j) |> optional readString
  let operationType ← (← structField 12 3 "Type" j) |> required "Type" OperationType.fromJson
  let subType ← (← structField 12 4 "SubType" j) |> optional readString
  let status ← (← statusField j) |> required "Status" OperationStatus.fromJson
  let stepDetails ← (← structField 12 6 "StepDetails" j) |> optional (StepDetails.fromJson inside)
  let callbackDetails ←
    (← structField 12 7 "CallbackDetails" j) |> optional (CallbackDetails.fromJson inside)
  let _ ← (← structField 12 8 "WaitDetails" j) |> optional (readWaitDetails inside)
  let executionDetails ←
    (← structField 12 9 "ExecutionDetails" j) |> optional (ExecutionDetails.fromJson inside)
  let contextDetails ←
    (← structField 12 10 "ContextDetails" j) |> optional (ContextDetails.fromJson inside)
  let chainedInvokeDetails ←
    (← structField 12 11 "ChainedInvokeDetails" j) |> optional (ChainedInvokeDetails.fromJson inside)
  .ok { id, parentId, name, operationType, subType, status, stepDetails, callbackDetails,
        executionDetails, contextDetails, chainedInvokeDetails }

/-! ## What becomes of a status -/

/-- `op` is the record the service delivered with the given status. -/
inductive Delivered (status : SdkOperationStatus) : Operation → Prop
  | sdk {record : SdkOperation} : record.status = status →
      Delivered status (sdkOperationToOperation record)
  | json {remainingDepth : Nat} {j field : Json} {op : Operation} :
      Operation.fromJson remainingDepth j = .ok op → statusField j = .ok (some field) →
      readVariant field = .ok status.asStr → Delivered status op

theorem ofVariant_asStr {status : SdkOperationStatus} (h : status.isFinal = true) :
    OperationStatus.ofVariant status.asStr = sdkOperationStatusToOperationStatus status := by
  cases status with
  | unknown value => cases h
  | _ => rfl

theorem status_of_fromJson {remainingDepth : Nat} {j field : Json} {op : Operation}
    {variant : String} (h : Operation.fromJson remainingDepth j = .ok op)
    (hfield : statusField j = .ok (some field)) (hvariant : readVariant field = .ok variant) :
    op.status = .ofVariant variant := by
  simp only [Operation.fromJson, bind_eq_ok] at h
  obtain ⟨_, -, _, -, _, -, _, -, _, -, _, -, _, -, _, -, _, -, _, -, _, -, h⟩ := h
  obtain ⟨_, hstatus, status, hread, h⟩ := h
  obtain ⟨_, -, _, -, _, -, _, -, _, -, _, -, _, -, _, -, _, -, _, -, _, -, _, -, h⟩ := h
  obtain rfl := Except.ok.inj (hfield.symm.trans hstatus)
  obtain ⟨name, hname, rfl⟩ := map_eq_ok.mp hread
  obtain rfl := Except.ok.inj (hvariant.symm.trans hname)
  obtain rfl := Except.ok.inj h
  rfl

theorem Delivered.status_eq {status : SdkOperationStatus} {op : Operation}
    (h : Delivered status op) (hfinal : status.isFinal = true) :
    op.status = sdkOperationStatusToOperationStatus status := by
  cases h with
  | sdk hstatus => exact congrArg sdkOperationStatusToOperationStatus hstatus
  | json hread hfield hvariant =>
    exact (status_of_fromJson hread hfield hvariant).trans (ofVariant_asStr hfinal)

end LambdaDurable
