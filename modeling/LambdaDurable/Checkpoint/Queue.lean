import LambdaDurable.Checkpoint.Coalesce

/-!
# The checkpoint queue and its batches

Each queued checkpoint owns a fresh `Notify`, named here by the number of the call
that queued it.
-/

namespace LambdaDurable

structure QueuedCheckpoint where
  stepId : String
  update : OperationUpdate
  notify : Nat
  deriving DecidableEq, Repr

namespace CheckpointManager

def maxPayloadSize : Nat := 750 * 1024

def estimateUpdateSize (update : OperationUpdate) : Nat :=
  100 + update.id.utf8ByteSize + (update.parentId.map (·.utf8ByteSize)).getD 0 +
    (update.name.map (·.utf8ByteSize)).getD 0 + (update.payload.map (·.utf8ByteSize)).getD 0

/-- The `while let Some(checkpoint) = queue.front()` loop of `process_queue`. -/
def fillBatch (currentSize : Nat) (batch : List QueuedCheckpoint) :
    List QueuedCheckpoint → List QueuedCheckpoint × List QueuedCheckpoint
  | [] => (batch, [])
  | c :: queue =>
    if currentSize + estimateUpdateSize c.update > maxPayloadSize ∧ batch ≠ [] then (batch, c :: queue)
    else fillBatch (currentSize + estimateUpdateSize c.update) (batch ++ [c]) queue

/-- The batch taken from a queue, and what stays in it. -/
def buildBatch (queue : List QueuedCheckpoint) : List QueuedCheckpoint × List QueuedCheckpoint :=
  fillBatch 100 [] queue

theorem fillBatch_append (size : Nat) (batch queue : List QueuedCheckpoint) :
    (fillBatch size batch queue).1 ++ (fillBatch size batch queue).2 = batch ++ queue := by
  induction queue generalizing size batch with
  | nil => simp [fillBatch]
  | cons c queue ih =>
    rw [fillBatch]
    split
    · rfl
    · rw [ih, List.append_assoc, List.singleton_append]

/-- A batch is a prefix of the queue: nothing is lost, duplicated or reordered. -/
theorem buildBatch_append (queue : List QueuedCheckpoint) :
    (buildBatch queue).1 ++ (buildBatch queue).2 = queue :=
  fillBatch_append 100 [] queue

theorem fillBatch_ne_nil (size : Nat) {batch : List QueuedCheckpoint} (queue : List QueuedCheckpoint)
    (h : batch ≠ []) : (fillBatch size batch queue).1 ≠ [] := by
  induction queue generalizing size batch with
  | nil => simpa [fillBatch] using h
  | cons c queue ih =>
    rw [fillBatch]
    split
    · exact h
    · exact ih _ (by simp)

theorem buildBatch_ne_nil {queue : List QueuedCheckpoint} (h : queue ≠ []) :
    (buildBatch queue).1 ≠ [] := by
  cases queue with
  | nil => exact absurd rfl h
  | cons c queue =>
    rw [buildBatch, fillBatch, if_neg (by simp)]
    exact fillBatch_ne_nil _ _ (by simp)

end CheckpointManager

end LambdaDurable
