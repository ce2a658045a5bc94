import LambdaDurable.Context.Recalled
import LambdaDurable.Context.Condition

/-!
# What a child leaves in its record

A child context that has returned, and whose record is final, has returned what the record
says: its value, what its closure answered where the record asks for the children, or its
failure.
-/

namespace LambdaDurable

open Effects Call Backend

variable {V T : Type}

/-- A value that is recorded can be read. -/
def Legible (codec : Codec T) (context : SerdesContext) (record : Option Operation) : Prop :=
  ∀ op, record = some op → op.status = .succeeded → op.replayChildren = false →
    ∃ payload value, op.contextDetails.bind (·.result) = some payload ∧
      codec.deserialize (some payload) context = .ok (some value)

namespace Child

/-- The final update after this outcome of the closure. -/
def Closes (maker : ExecutionContext) (label : Option String) (id : String)
    (config : ChildContextConfig V) (u : OperationUpdate) : DurableResult V → Prop
  | .ok value => ∃ payload,
    config.codec.serialize (some value) (maker.site id label).context = .ok payload ∧
      u = succeedUpdate maker label id config.subType payload
  | .error e => u = failUpdate maker label id config.subType e

/-- The update is the one for what the closure has answered. -/
def Reports (maker : ExecutionContext) (label : Option String) (id : String)
    (config : ChildContextConfig V) (trace : List (Event V)) (u : OperationUpdate) : Prop :=
  ∃ (counter : Nat) (outcome : DurableResult V),
    ⟨.contextFn id counter, outcome⟩ ∈ trace ∧ Closes maker label id config u outcome

/-- What a final record says of the result. -/
inductive Says (maker : ExecutionContext) (stepId : String) (codec : Codec V)
    (trace : List (Event V)) : OperationStatus × Option ContextDetails → DurableResult V → Prop
  | value {details : Option ContextDetails} {value : V} :
      details.bind (·.replayChildren) ≠ some true →
      codec.deserialize (details.bind (·.result)) (maker.site (maker.hashId stepId) none).context =
        .ok (some value) → Says maker stepId codec trace (.succeeded, details) (.ok value)
  | rerun {details : Option ContextDetails} {counter : Nat} {r : DurableResult V} :
      details.bind (·.replayChildren) = some true →
      ⟨.contextFn (maker.hashId stepId) counter, r⟩ ∈ trace →
      Says maker stepId codec trace (.succeeded, details) r
  | failed (details : Option ContextDetails) : Says maker stepId codec trace (.failed, details)
      (.error (.childContextFailed stepId
        (((details.bind (·.error)).map (·.errorMessage)).getD "Child context failed")))

/-- Nothing has been sent, and no closure has run. -/
structure Unstarted (id : String) (trace : List (Event V)) : Prop where
  sent : naming id (sent trace) = []
  closure : ∀ id' c r, ⟨.contextFn id' c, r⟩ ∉ trace

section

variable {maker : ExecutionContext} {stepId id : String} {label : Option String}
  {config : ChildContextConfig V} {loaded : Table} {trace : List (Event V)}

theorem Unstarted.cons (h : Unstarted id trace) {e : Effect V} {a : Answer e} (he : e.updates = [])
    (hclosure : ∀ id' c, e ≠ .contextFn id' c) : Unstarted id (⟨e, a⟩ :: trace) where
  sent := by
    rw [sent_cons_quiet he]
    exact h.sent
  closure id' c r hmem := by
    obtain heq | hmem := List.mem_cons.mp hmem
    · exact hclosure id' c (congrArg Sigma.fst heq).symm
    · exact h.closure id' c r hmem

end

end Child

namespace Batch

variable {ctx : ExecutionContext} {spec : BatchSpec} {cfg : BatchConfig V} {loaded : Table}
  {stepId batchId itemName token : String} {trace : List (Event V)}

end Batch

end LambdaDurable
