import LambdaDurable.Context.Child
import LambdaDurable.Types.BatchSerdes

/-!
# `map` and `parallel`

The two differ in their names, in the text of the summary, and in what follows the
loop: `map` cannot get there, `parallel` completes there when it has no branches.
A child runs as a task of its own; the operation sees its index and result when it
joins it.
-/

namespace LambdaDurable

variable {V I : Type}

structure BatchConfig (V : Type) where
  maxConcurrency : Option Nat := none
  serdes : Option (Serdes (BatchResult V)) := none
  /-- `BatchResultSerdes`, used where no serdes is configured -/
  batchResultSerdes : Serdes (BatchResult V)
  itemCodec : Codec V
  completionConfig : CompletionConfig := {}
  /-- `serde_json::from_str::<Value>(..).ok()` -/
  parseJson : String → Option JsonValue

structure MapConfig (I V : Type) extends BatchConfig V where
  itemNamer : Option (I → Nat → String) := none

def BatchConfig.batchSerdes (cfg : BatchConfig V) : Serdes (BatchResult V) :=
  cfg.serdes.getD cfg.batchResultSerdes

/-- What tells the two operations apart. -/
structure BatchSpec where
  noun : String
  subType : String
  childSubType : String
  summaryType : String
  summary : (totalCount successCount failureCount startedCount : Nat) →
    BatchCompletionReason → String

namespace Batch

def map : BatchSpec where
  noun := "map"
  subType := "Map"
  childSubType := "MapIteration"
  summaryType := "MapResult"
  summary total success failure _ reason := mapSummaryPayload total success failure reason

def parallel : BatchSpec where
  noun := "parallel"
  subType := "Parallel"
  childSubType := "ParallelBranch"
  summaryType := "ParallelResult"
  summary := parallelSummaryPayload

/-- The successes, failures and started indices of a batch; the counters of the source
are the lengths of the first two, `join_set.len()` is the length of the third. -/
structure Progress (V : Type) where
  successes : List (Nat × V) := []
  failures : List (Nat × DurableError) := []
  started : List Nat := []

namespace Progress

variable (p : Progress V)

def completedCount : Nat := p.successes.length + p.failures.length

/-- A child is joined. -/
def join (index : Nat) : DurableResult V → Progress V
  | .ok v => { p with successes := p.successes ++ [(index, v)], started := p.started.erase index }
  | .error e => { p with failures := p.failures ++ [(index, e)], started := p.started.erase index }

def items : List (BatchItem V) :=
  let all := p.successes.map (fun (index, v) =>
      { index, status := .succeeded, result := some v }) ++
    p.failures.map (fun (index, e) => { index, status := .failed, error := some e }) ++
    p.started.map (fun index => { index, status := .started })
  all.mergeSort fun a b => a.index ≤ b.index

def result (config : CompletionConfig) (totalItems : Nat) : BatchResult V where
  all := p.items
  completionReason := config.computeBatchCompletionReason p.failures.length p.successes.length
    p.completedCount totalItems

theorem shaped_of_mem {item : BatchItem V} (h : item ∈ p.items) : item.Shaped := by
  simp only [items, List.mem_mergeSort, List.mem_append, List.mem_map] at h
  obtain (⟨⟨i, v⟩, -, rfl⟩ | ⟨⟨i, e⟩, -, rfl⟩) | ⟨i, -, rfl⟩ := h
  · exact ⟨⟨v, rfl⟩, rfl⟩
  · exact ⟨rfl, e, rfl⟩
  · exact ⟨rfl, rfl⟩

theorem items_sorted : p.items.Pairwise fun a b => a.index ≤ b.index := by
  have hsorted : p.items.Pairwise fun a b => decide (a.index ≤ b.index) := by
    unfold items
    exact List.pairwise_mergeSort (by simpa using fun _ _ _ => Nat.le_trans)
      (by simpa using fun a b => Nat.le_total _ _) _
  exact hsorted.imp fun hle => by simpa using hle

theorem result_produced (config : CompletionConfig) (totalItems : Nat)
    (hbounded : ∀ item ∈ p.items, item.index < 2 ^ 64) : (p.result config totalItems).Produced where
  sorted := p.items_sorted
  shaped _ h := p.shaped_of_mem h
  bounded := hbounded

end Progress

section

variable (spec : BatchSpec) (ctx : ExecutionContext) (name : Option String) (cfg : BatchConfig V)

def startUpdate (hashedId : String) : OperationUpdate :=
  ctx.update name hashedId .context spec.subType .start

/-- The SUCCEED update: a payload over the limit is replaced by a summary. -/
def succeedUpdate (hashedId payload summary : String) : OperationUpdate :=
  let update : OperationUpdate :=
    { id := hashedId, operationType := .context, subType := some spec.subType, action := .succeed }
  if payload.utf8ByteSize > checkpointSizeLimitBytes then
    { update with payload := some summary, contextOptions := some ⟨some true⟩ }
  else { update with payload := some payload }

theorem startUpdate_buildable (hashedId : String) : (startUpdate spec ctx name hashedId).Buildable :=
  OperationUpdate.build_of_plain rfl rfl rfl rfl

theorem succeedUpdate_buildable (hashedId payload summary : String) :
    (succeedUpdate spec hashedId payload summary).Buildable := by
  unfold succeedUpdate
  dsimp only
  split <;> exact OperationUpdate.build_of_plain rfl rfl rfl rfl

def complete (stepId hashedId : String) (totalItems : Nat) (p : Progress V) :
    Act V (DurableResult (BatchResult V)) := do
  let result := p.result cfg.completionConfig totalItems
  let payload ← safeSerializeRequiredWithSerdes cfg.batchSerdes result (ctx.site hashedId name)
  let summary := spec.summary (p.completedCount + p.started.length) p.successes.length
    p.failures.length p.started.length result.completionReason
  (checkpoint stepId s!"{spec.noun} completion"
    (succeedUpdate spec hashedId payload summary)).andThen fun _ => .ret (.ok result)

/-- Another child may be spawned. -/
def maySpawn (totalItems : Nat) (p : Progress V) : Bool :=
  p.started.length < max (cfg.maxConcurrency.getD (max totalItems 1)) 1 &&
    cfg.completionConfig.shouldContinueBatch p.failures.length totalItems &&
    !cfg.completionConfig.minSuccessful.any (p.successes.length ≥ ·)

/-- The inner `while`: the children still to come, and the progress with those spawned. -/
def spawnChildren (totalItems : Nat) (p : Progress V) :
    List (String × Nat) → Act V (List (String × Nat) × Progress V)
  | [] => .ret ([], p)
  | (itemName, index) :: rest =>
    if maySpawn cfg totalItems p then do
      let childStepId ← ctx.nextOperationId (some itemName)
      .act (.spawn index childStepId (ctx.hashId childStepId) itemName) fun _ =>
        spawnChildren totalItems { p with started := p.started ++ [index] } rest
    else .ret ((itemName, index) :: rest, p)

/-- The task spawned for a child. -/
def runChild (batchHashedId childStepId childHashedId itemName : String) : Act V (DurableResult V) := do
  let parent ← ctx.withParentId batchHashedId
  parent.runInChildContextWithIds childStepId childHashedId (some itemName) userContext
    { subType := spec.childSubType, codec := cfg.itemCodec }

/-- The batch is over after a join. -/
def isOver (totalItems : Nat) (p : Progress V) : Bool :=
  p.completedCount == totalItems ||
    cfg.completionConfig.minSuccessful.any (p.successes.length ≥ ·) ||
    !cfg.completionConfig.shouldContinueBatch p.failures.length totalItems

/-- What follows a join: the batch is over, or the loop goes on. -/
def joined (stepId hashedId : String) (totalItems : Nat)
    (goOn : Progress V → Act V (DurableResult (BatchResult V))) (p : Progress V) :
    Except String (Nat × DurableResult V) → Act V (DurableResult (BatchResult V))
  -- `joined.map_err(..)?`: no update says that the operation failed
  | .error e => .ret (.error (.internal s!"Child task join error: {e}"))
  | .ok (index, res) =>
    if isOver cfg totalItems (p.join index res) then
      if (p.join index res).started = [] then
        complete spec ctx name cfg stepId hashedId totalItems (p.join index res)
      else
        .act .abortAll fun _ => complete spec ctx name cfg stepId hashedId totalItems (p.join index res)
    else goOn (p.join index res)

/-- The outer `loop`. Every turn but the last joins a child, so there are no more turns than
children and one; the set of children is never empty before. -/
def runLoop (stepId hashedId : String) (totalItems : Nat)
    (afterLoop : Progress V → Act V (DurableResult (BatchResult V))) :
    Nat → List (String × Nat) → Progress V → Act V (DurableResult (BatchResult V))
  | 0, _, _ => .act (.panic "no child left to join") Empty.elim
  | turns + 1, children, p => do
    let (rest, p) ← spawnChildren ctx cfg totalItems p children
    if p.started = [] then afterLoop p
    else
      .act .joinNext (joined spec ctx name cfg stepId hashedId totalItems
        (runLoop stepId hashedId totalItems afterLoop turns rest) p)

inductive ReplayDecision (V : Type)
  | return (result : BatchResult V)
  | reconstruct (totalCount : Nat)
  | continue

/-- The payload parses as a summary, not as a batch result. -/
def isSummary (parsed : Option JsonValue) : Bool :=
  parsed.any fun v => v.isObject && !((v.get "kind").bind (·.asStr) == some "BatchResult") &&
    ((v.get "type").bind (·.asStr) == some spec.summaryType || (v.get "totalCount").isSome)

/-- `totalCount` of a summary. -/
def summaryTotal (parsed : Option JsonValue) : Option Nat :=
  (parsed.bind (·.get "totalCount")).bind (·.asU64)

/-- One more than the greatest index of a batch. -/
def targetTotalCount (batch : BatchResult V) : Nat :=
  ((batch.all.map (·.index)).max?.map (· + 1)).getD 0

def tooMany (totalItems count : Nat) : DurableError :=
  .replayValidationFailed s!"{spec.noun} totalCount <= {totalItems}" (toString count)

/-- Draw the operation IDs of the children, so that the parent's counter stays in step. -/
def consumeIds : List String → Act V Unit
  | [] => .ret ()
  | itemName :: rest => do
    let _ ← (ctx.nextOperationId (some itemName) : Act V String)
    consumeIds rest

def evaluateReplay (itemNames : List String) (hashedId : String) :
    Act V (DurableResult (ReplayDecision V)) := do
  match ← getStepData hashedId with
  | none => .ret (.ok .continue)
  | some op =>
    match op.status with
    | .failed =>
      .ret (.error (.batchOperationFailed (name.getD spec.noun)
        (op.contextErrorMessage "Batch operation failed") 0 0))
    | .succeeded =>
      match op.contextDetails.bind (·.result) with
      | none => .ret (.ok .continue)
      | some payload =>
        if isSummary spec (cfg.parseJson payload) then
          match summaryTotal (cfg.parseJson payload) with
          | none => .ret (.ok .continue)
          | some totalCount =>
            if totalCount > itemNames.length then
              .ret (.error (tooMany spec itemNames.length totalCount))
            else .ret (.ok (.reconstruct totalCount))
        else do
          let batch ← safeDeserializeRequiredWithSerdes cfg.batchSerdes payload
            (ctx.site hashedId name)
          if targetTotalCount batch > itemNames.length then
            .ret (.error (tooMany spec itemNames.length (targetTotalCount batch)))
          else do
            consumeIds ctx (itemNames.take (targetTotalCount batch))
            .ret (.ok (.return batch))
    | _ => do
      setMode .execution
      .ret (.ok .continue)

/-- One turn of the reconstruction loop, for a child that is recorded. -/
def reconstructChild (parent : ExecutionContext) (op : Operation)
    (childStepId childHashedId itemName : String) (index : Nat) (p : Progress V) :
    Act V (DurableResult (Progress V)) :=
  match op.status with
  | .succeeded =>
    if op.replayChildren then do
      let res ← parent.runInChildContextWithIds childStepId childHashedId (some itemName) userContext
        { subType := spec.childSubType, codec := cfg.itemCodec }
      .ret (.ok (p.join index res))
    else do
      match ← safeDeserialize cfg.itemCodec (op.contextDetails.bind (·.result))
          (ctx.site childHashedId (some itemName)) with
      | some v => .ret (.ok (p.join index (.ok v)))
      | none => .ret (.error (.internal "Missing child context output in replay"))
  | .failed => .ret (.ok (p.join index
      (.error (.childContextFailed childStepId (op.contextErrorMessage "Child context failed")))))
  | _ => .ret (.ok { p with started := p.started ++ [index] })

def reconstructChildren (parent : ExecutionContext) :
    List (String × Nat) → Progress V → Act V (DurableResult (Progress V))
  | [], p => .ret (.ok p)
  | (itemName, index) :: rest, p => do
    let childStepId ← ctx.nextOperationId (some itemName)
    match ← getStepData (ctx.hashId childStepId) with
    | none => .ret (.error (.replayValidationFailed
        s!"{spec.noun} child context present for index {index}" "missing"))
    | some op =>
      (reconstructChild spec ctx cfg parent op childStepId (ctx.hashId childStepId) itemName index
        p).andThen fun p => reconstructChildren parent rest p

def reconstructFromChildren (itemNames : List String) (hashedId : String) (totalCount : Nat) :
    Act V (DurableResult (BatchResult V)) :=
  if totalCount > itemNames.length then
    .ret (.error (tooMany spec itemNames.length totalCount))
  else do
    let parent ← ctx.withParentId hashedId
    (reconstructChildren spec ctx cfg parent (itemNames.zipIdx.take totalCount) {}).andThen fun p =>
      .ret (.ok (p.result cfg.completionConfig itemNames.length))

end

def runMapExecution (ctx : ExecutionContext) (name : Option String) (cfg : BatchConfig V)
    (itemNames : List String) (stepId hashedId : String) : Act V (DurableResult (BatchResult V)) :=
  if itemNames.length = 0 then complete map ctx name cfg stepId hashedId 0 {}
  else
    runLoop map ctx name cfg stepId hashedId itemNames.length
      (fun _ => .act (.panic "map execution loop should return a batch result") Empty.elim)
      (itemNames.length + 1) itemNames.zipIdx {}

def runParallelExecution (ctx : ExecutionContext) (name : Option String) (cfg : BatchConfig V)
    (itemNames : List String) (stepId hashedId : String) : Act V (DurableResult (BatchResult V)) :=
  runLoop parallel ctx name cfg stepId hashedId itemNames.length
    (complete parallel ctx name cfg stepId hashedId itemNames.length)
    (itemNames.length + 1) itemNames.zipIdx {}

/-- The common body of `map` and `parallel_named`. -/
def run (spec : BatchSpec) (ctx : ExecutionContext) (name : Option String) (cfg : BatchConfig V)
    (itemNames : List String)
    (execute : (stepId hashedId : String) → Act V (DurableResult (BatchResult V))) :
    Act V (DurableResult (BatchResult V)) :=
  match cfg.completionConfig.validateCompletionConfig itemNames.length (name.getD spec.noun) with
  | .error e => .ret (.error e)
  | .ok _ => do
    let mode ← getMode
    let stepId ← ctx.nextOperationId name
    let hashedId := ctx.hashId stepId
    let operation ← getStepData hashedId
    let started : Act V (DurableResult Unit) :=
      match operation with
      | none => checkpoint stepId s!"{spec.noun} START" (startUpdate spec ctx name hashedId)
      | some _ => .ret (.ok ())
    started.andThen fun _ =>
      match mode with
      | .replay =>
        (evaluateReplay spec ctx name cfg itemNames hashedId).andThen fun
          | .return result => .ret (.ok result)
          | .reconstruct totalCount =>
            reconstructFromChildren spec ctx cfg itemNames hashedId totalCount
          | .continue => execute stepId hashedId
      | .execution => execute stepId hashedId

end Batch

def ExecutionContext.map (ctx : ExecutionContext) (name : Option String) (items : List I)
    (cfg : MapConfig I V) : Act V (DurableResult (BatchResult V)) :=
  let label := name.getD "map"
  let itemNames := items.zipIdx.map fun (item, index) =>
    match cfg.itemNamer with
    | some namer => namer item index
    | none => s!"{label}-item-{index}"
  Batch.run Batch.map ctx name cfg.toBatchConfig itemNames
    (Batch.runMapExecution ctx name cfg.toBatchConfig itemNames)

/-- `parallel_named`; a branch is given by its name. -/
def ExecutionContext.parallel (ctx : ExecutionContext) (name : Option String)
    (branches : List (Option String)) (cfg : BatchConfig V) :
    Act V (DurableResult (BatchResult V)) :=
  let label := name.getD "parallel"
  let branchNames := branches.zipIdx.map fun (branch, index) =>
    branch.getD s!"{label}-branch-{index}"
  Batch.run Batch.parallel ctx name cfg branchNames
    (Batch.runParallelExecution ctx name cfg branchNames)

end LambdaDurable
