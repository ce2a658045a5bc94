import LambdaDurable.Checkpoint.Merging
import LambdaDurable.Checkpoint.Move
import Mathlib.Algebra.BigOperators.Group.Finset.Piecewise
import Mathlib.Algebra.Order.BigOperators.Group.List
import Mathlib.Algebra.Order.Ring.Nat

/-!
# The size of a batch

The loop of `process_queue` keeps an estimate within `MAX_PAYLOAD_SIZE`. The estimate counts some
of the strings of an update, and a base of 100 bytes for the rest.
-/

namespace LambdaDurable

def byteSize (strings : List String) : Nat := (strings.map (·.utf8ByteSize)).sum

theorem utf8ByteSize_replicate (n : Nat) :
    (String.ofList (List.replicate n 'a')).utf8ByteSize = n := by
  induction n with
  | zero => rfl
  | succ n ih =>
    rw [List.replicate_succ', String.ofList_append, String.utf8ByteSize_append, ih,
      ← String.singleton_eq_ofList, String.utf8ByteSize_singleton]
    rfl

namespace OperationUpdate

/-- The strings that `estimate_update_size` counts. -/
def counted (u : OperationUpdate) : List String :=
  u.id :: (u.parentId.toList ++ u.name.toList ++ u.payload.toList)

/-- The strings that it leaves out. -/
def leftOut (u : OperationUpdate) : List String :=
  u.subType.toList ++
    u.error.elim [] (fun e => [e.errorType, e.errorMessage] ++ e.details.toList) ++
    u.chainedInvokeOptions.elim [] (fun o => o.functionName :: o.tenantId.toList)

/-- The bytes of all strings of an update. -/
def contentSize (u : OperationUpdate) : Nat := byteSize u.counted + byteSize u.leftOut

end OperationUpdate

namespace CheckpointManager

open Backend State

theorem byteSize_append (as bs : List String) : byteSize (as ++ bs) = byteSize as + byteSize bs := by
  simp [byteSize]

theorem estimateUpdateSize_eq (u : OperationUpdate) :
    estimateUpdateSize u = 100 + byteSize u.counted := by
  have hoption : ∀ o : Option String, (o.map (·.utf8ByteSize)).getD 0 = byteSize o.toList := by
    intro o
    cases o <;> simp [byteSize]
  simp only [estimateUpdateSize, OperationUpdate.counted, hoption]
  rw [← List.singleton_append, byteSize_append, byteSize_append, byteSize_append]
  simp only [byteSize, List.map_cons, List.map_nil, List.sum_cons, List.sum_nil]
  omega

/-! ## What coalescing does to sizes -/

/-- A merge is no larger than its parts. -/
def Subadditive (size : OperationUpdate → Nat) : Prop :=
  ∀ existing update, size (mergeUpdate existing update) ≤ size existing + size update

theorem byteSize_or (a b : Option String) :
    byteSize (a.or b).toList ≤ byteSize a.toList + byteSize b.toList := by
  cases a with
  | none => simp [byteSize]
  | some a => simp

theorem elim_or {α : Type} (size : α → Nat) (a b : Option α) :
    (a.or b).elim 0 size ≤ a.elim 0 size + b.elim 0 size := by
  cases a with
  | none => simp
  | some a => simp

theorem subadditive_counted : Subadditive fun u => byteSize u.counted := by
  intro existing update
  have hparent := byteSize_or update.parentId existing.parentId
  have hname := byteSize_or update.name existing.name
  have hpayload := byteSize_or update.payload existing.payload
  simp only [OperationUpdate.counted, mergeUpdate, ← List.singleton_append (l := _ ++ _),
    byteSize_append]
  omega

theorem byteSize_elim {α : Type} (strings : α → List String) (o : Option α) :
    byteSize (o.elim [] strings) = o.elim 0 (byteSize ∘ strings) := by
  cases o <;> rfl

theorem subadditive_leftOut : Subadditive fun u => byteSize u.leftOut := by
  intro existing update
  have hsubType := byteSize_or update.subType existing.subType
  simp only [OperationUpdate.leftOut, mergeUpdate, byteSize_append, byteSize_elim]
  have herror := elim_or (byteSize ∘ fun e : ErrorObject =>
    [e.errorType, e.errorMessage] ++ e.details.toList) update.error existing.error
  have hinvoke := elim_or (byteSize ∘ fun o : ChainedInvokeUpdateOptions =>
    o.functionName :: o.tenantId.toList) update.chainedInvokeOptions existing.chainedInvokeOptions
  omega

theorem subadditive_contentSize : Subadditive OperationUpdate.contentSize := by
  intro existing update
  have hcounted := subadditive_counted existing update
  have hleftOut := subadditive_leftOut existing update
  dsimp only at hcounted hleftOut
  simp only [OperationUpdate.contentSize]
  omega

theorem subadditive_estimateUpdateSize : Subadditive estimateUpdateSize := by
  intro existing update
  have hcounted := subadditive_counted existing update
  dsimp only at hcounted
  simp only [estimateUpdateSize_eq]
  omega

variable {size : OperationUpdate → Nat}

theorem merged_size_le (hsize : Subadditive size) {us : List OperationUpdate} {v : OperationUpdate}
    (h : merged us = some v) : size v ≤ (us.map size).sum := by
  induction us using List.reverseRecOn generalizing v with
  | nil => cases h
  | append_singleton us u ih =>
    rw [merged_append_singleton, Option.some.injEq] at h
    subst h
    rw [List.map_append, List.sum_append, List.map_singleton, List.sum_singleton]
    cases hus : merged us with
    | none => exact Nat.le_add_left _ _
    | some w => exact (hsize w u).trans (Nat.add_le_add_right (ih hus) _)

/-- The updates of distinct operations are distinct updates. -/
theorem sum_naming_le (ids : Finset String) (us : List OperationUpdate) :
    ∑ id ∈ ids, ((naming id us).map size).sum ≤ (us.map size).sum := by
  induction us with
  | nil => simp [naming]
  | cons u us ih =>
    have hcons : ∀ id, ((naming id (u :: us)).map size).sum =
        (if u.id = id then size u else 0) + ((naming id us).map size).sum := by
      intro id
      simp only [naming, List.filter_cons, beq_iff_eq]
      split <;> simp
    rw [Finset.sum_congr rfl fun id _ => hcons id, Finset.sum_add_distrib, Finset.sum_ite_eq,
      List.map_cons, List.sum_cons]
    split <;> omega

/-- What is sent is no larger than what was queued. -/
theorem sum_coalesced_le (hsize : Subadditive size) {us vs : List OperationUpdate}
    (h : coalesceUpdates us = .ok vs) : (vs.map size).sum ≤ (us.map size).sum := by
  have hnodup : (vs.map (·.id)).Nodup := (ids_of_coalesce h).2
  calc (vs.map size).sum ≤ (vs.map fun v => ((naming v.id us).map size).sum).sum :=
        List.sum_le_sum fun v hv => merged_size_le hsize (merged_of_coalesce h hv)
    _ = ((vs.map (·.id)).map fun id => ((naming id us).map size).sum).sum := by
        rw [List.map_map]
        rfl
    _ = ∑ id ∈ (vs.map (·.id)).toFinset, ((naming id us).map size).sum :=
        (List.sum_toFinset _ hnodup).symm
    _ ≤ (us.map size).sum := sum_naming_le _ us

/-! ## What is sent -/

/-- A worker that finds the queue sends the updates. -/
def Sends (queue : List QueuedCheckpoint) (updates : List OperationUpdate) : Prop :=
  coalesceUpdates ((buildBatch queue).1.map (·.update)) = .ok updates

/-- The loop stops before the estimate goes over the limit, except for a single update. -/
theorem fillBatch_estimate {currentSize : Nat} {batch queue : List QueuedCheckpoint}
    (h : batch.length ≤ 1 ∨ currentSize ≤ maxPayloadSize)
    (hsize : currentSize = 100 + (batch.map fun c => estimateUpdateSize c.update).sum) :
    (fillBatch currentSize batch queue).1.length ≤ 1 ∨
      100 + ((fillBatch currentSize batch queue).1.map fun c => estimateUpdateSize c.update).sum ≤
        maxPayloadSize := by
  induction queue generalizing currentSize batch with
  | nil => exact h.imp_right (hsize ▸ ·)
  | cons c queue ih =>
    rw [fillBatch]
    split
    · exact h.imp_right (hsize ▸ ·)
    · rename_i hmore
      apply ih
      · rw [not_and_or, not_not, not_lt] at hmore
        obtain hfits | rfl := hmore
        · exact Or.inr hfits
        · exact Or.inl (by simp)
      · simp [hsize, Nat.add_assoc]

theorem calling_of_setCall {s t : State} {o : Owner} {batch batch' : List QueuedCheckpoint}
    {call call' call'' : BatchCall} {w : Nat} (h : s.callOf o = some (batch, call))
    (hw : (t.setCall batch call' o).workers w = some (.calling batch' call''))
    (hworkers : t.workers = s.workers) :
    ∃ call, s.workers w = some (.calling batch' call) := by
  cases o with
  | force n => exact ⟨call'', hworkers ▸ hw⟩
  | worker v =>
    simp only [setCall, setWorker, Function.update_apply, hworkers] at hw
    split at hw
    · rename_i heq
      cases hw
      exact ⟨call, heq ▸ callOf_worker.mp h⟩
    · exact ⟨call'', hw⟩

theorem Move.calling {s s' : State} {l : Label} (h : Move s l s') {w : Nat}
    {batch : List QueuedCheckpoint} {call : BatchCall}
    (hw : s'.workers w = some (.calling batch call)) :
    (∃ call', s.workers w = some (.calling batch call')) ∨ batch = (buildBatch s.queue).1 := by
  cases h with
  | take =>
    obtain hold | hnew := eq_or_of_update hw
    · exact Or.inl ⟨call, hold⟩
    · cases hnew
      exact Or.inr rfl
  | readToken hcall | reject hcall | send hcall | fail hcall | accept hcall | writeToken hcall
  | merge hcall => exact Or.inl (calling_of_setCall hcall hw rfl)
  | startWorker | quit | finishOk | finishError | notify | notifiedOk | notifiedError | drain
  | release | notifyWaiters =>
    obtain hold | hnew := eq_or_of_update hw
    · exact Or.inl ⟨call, hold⟩
    · cases hnew
  | @workerTerminate _ _ _ _ resume =>
    obtain hold | hnew := eq_or_of_update hw
    · exact Or.inl ⟨call, hold⟩
    · cases resume <;> split at hnew <;> cases hnew
  | checkRetry | recheckRetry =>
    obtain hold | hnew := eq_or_of_update hw
    · exact Or.inl ⟨call, hold⟩
    · split at hnew <;> cases hnew
  | _ => exact Or.inl ⟨call, hw⟩

theorem Move.requested {s s' : State} {l : Label} (h : Move s l s') {o : Owner}
    {batch : List QueuedCheckpoint} {token : String} {updates : List OperationUpdate}
    (hevent : .requested o batch token updates ∈ s'.log) :
    .requested o batch token updates ∈ s.log ∨
      s.callOf o = some (batch, .holding token) ∧
        coalesceUpdates (batch.map (·.update)) = .ok updates := by
  cases h with
  | send hcall hupdates =>
    rw [State.setCall_log] at hevent
    obtain heq | hold := List.mem_cons.mp hevent
    · cases heq
      exact Or.inr ⟨hcall, hupdates⟩
    · exact Or.inl hold
  | reject | fail | accept =>
    rw [State.setCall_log] at hevent
    obtain heq | hold := List.mem_cons.mp hevent
    · cases heq
    · exact Or.inl hold
  | readToken | writeToken | merge =>
    rw [State.setCall_log] at hevent
    exact Or.inl hevent
  | _ => exact Or.inl hevent

/-- The calls of the workers send batches of some queue. -/
structure Batching (s : State) : Prop where
  calling : ∀ w batch call, s.workers w = some (.calling batch call) →
    ∃ queue, batch = (buildBatch queue).1
  requested : ∀ w batch token updates,
    ServiceEvent.requested (.worker w) batch token updates ∈ s.log → ∃ queue, Sends queue updates

theorem Batching.step {s s' : State} {l : Label} (h : Batching s) (hm : Move s l s') :
    Batching s' where
  calling w batch call hw := by
    obtain ⟨call', hw'⟩ | rfl := hm.calling hw
    · exact h.calling w batch call' hw'
    · exact ⟨s.queue, rfl⟩
  requested w batch token updates hevent := by
    obtain hold | ⟨hcall, hupdates⟩ := hm.requested hevent
    · exact h.requested w batch token updates hold
    · obtain ⟨queue, rfl⟩ := h.calling w batch _ (State.callOf_worker.mp hcall)
      exact ⟨queue, hupdates⟩

theorem sends_of_requested {token : String} {stepData : Table} {s : State}
    (h : (machine token stepData).Reachable s) {w : Nat} {batch : List QueuedCheckpoint}
    {token' : String} {updates : List OperationUpdate}
    (hevent : ServiceEvent.requested (.worker w) batch token' updates ∈ s.log) :
    ∃ queue, Sends queue updates := by
  have hbatching : Batching s := by
    refine h.invariant ?_ fun s l s' _ hs hstep => hs.step (move_of_step hstep)
    rintro s rfl
    constructor
    · intro w batch call hw
      cases hw
    · intro w batch token updates hnew
      cases hnew
  exact hbatching.requested w batch token' updates hevent

/-- The estimate of a batch of two or more updates is within the limit. -/
theorem Sends.estimate_le {queue : List QueuedCheckpoint} {updates : List OperationUpdate}
    (h : Sends queue updates) (htwo : 2 ≤ updates.length) :
    100 + (((buildBatch queue).1.map (·.update)).map estimateUpdateSize).sum ≤ maxPayloadSize := by
  have hlength := (sublist_of_coalesce h).length_le
  rw [List.length_map, List.length_map, List.length_map] at hlength
  have hfits := @fillBatch_estimate 100 [] queue (Or.inl (by simp)) rfl
  rw [List.map_map]
  exact hfits.resolve_left fun hone => by
    rw [buildBatch] at hlength
    omega

theorem contentSize_add (u : OperationUpdate) :
    u.contentSize + 100 = estimateUpdateSize u + byteSize u.leftOut := by
  rw [estimateUpdateSize_eq, OperationUpdate.contentSize]
  omega

theorem contentSize_le {u : OperationUpdate} (h : byteSize u.leftOut ≤ 100) :
    u.contentSize ≤ estimateUpdateSize u := by
  have hadd := contentSize_add u
  omega

theorem sum_contentSize (us : List OperationUpdate) :
    (us.map (·.contentSize)).sum + 100 * us.length =
      (us.map estimateUpdateSize).sum + (us.map fun u => byteSize u.leftOut).sum := by
  induction us with
  | nil => rfl
  | cons u us ih =>
    have hadd := contentSize_add u
    simp only [List.map_cons, List.sum_cons, List.length_cons]
    omega

/-- If no queued update leaves out more than its base, no batch is over the limit. -/
theorem Sends.content_le {queue : List QueuedCheckpoint} {updates : List OperationUpdate}
    (h : Sends queue updates) (htwo : 2 ≤ updates.length)
    (hleftOut : ∀ c ∈ queue, byteSize c.update.leftOut ≤ 100) :
    (updates.map (·.contentSize)).sum ≤ maxPayloadSize := by
  have hbatch : ∀ u ∈ (buildBatch queue).1.map (·.update), byteSize u.leftOut ≤ 100 := by
    intro u hu
    obtain ⟨c, hc, rfl⟩ := List.mem_map.mp hu
    exact hleftOut c (buildBatch_append queue ▸ List.mem_append_left _ hc)
  calc (updates.map (·.contentSize)).sum
      ≤ (((buildBatch queue).1.map (·.update)).map (·.contentSize)).sum :=
        sum_coalesced_le subadditive_contentSize h
    _ ≤ (((buildBatch queue).1.map (·.update)).map estimateUpdateSize).sum :=
        List.sum_le_sum fun u hu => contentSize_le (hbatch u hu)
    _ ≤ maxPayloadSize := (Nat.le_add_left _ 100).trans (h.estimate_le htwo)

/-! ## A full batch of updates that leave out one byte more -/

/-- A queue within the limit is one batch. -/
theorem fillBatch_of_le {currentSize : Nat} {batch queue : List QueuedCheckpoint}
    (h : currentSize + (queue.map fun c => estimateUpdateSize c.update).sum ≤ maxPayloadSize) :
    (fillBatch currentSize batch queue).1 = batch ++ queue := by
  induction queue generalizing currentSize batch with
  | nil => simp [fillBatch]
  | cons c queue ih =>
    rw [List.map_cons, List.sum_cons] at h
    rw [fillBatch, if_neg (by omega), ih (by omega), List.append_assoc]
    rfl

/-- An update that is estimated at 4388 bytes, whatever its ID, and leaves out 101 bytes. -/
def wideUpdate (i : Nat) : OperationUpdate where
  id := String.ofList (List.replicate i 'a')
  operationType := .step
  action := .succeed
  subType := some (String.ofList (List.replicate 101 'a'))
  payload := some (String.ofList (List.replicate (4288 - i) 'a'))

theorem estimate_wideUpdate {i : Nat} (hi : i < 175) : estimateUpdateSize (wideUpdate i) = 4388 := by
  simp only [estimateUpdateSize, wideUpdate, Option.map_some, Option.map_none, Option.getD_some,
    Option.getD_none, utf8ByteSize_replicate]
  omega

theorem leftOut_wideUpdate (i : Nat) : byteSize (wideUpdate i).leftOut = 101 :=
  utf8ByteSize_replicate 101

/-- Together they are estimated at exactly the limit. -/
def wideQueue : List QueuedCheckpoint := (List.range 175).map fun i => ⟨"", wideUpdate i, i⟩

theorem wideQueue_update : ∀ c ∈ wideQueue, ∃ i < 175, c.update = wideUpdate i := by
  intro c hc
  obtain ⟨i, hi, rfl⟩ := List.mem_map.mp hc
  exact ⟨i, List.mem_range.mp hi, rfl⟩

theorem wideQueue_nodup : ((wideQueue.map (·.update)).map (·.id)).Nodup := by
  rw [wideQueue, List.map_map, List.map_map]
  refine List.Nodup.map (fun i j hij => ?_) List.nodup_range
  have hlength := congrArg String.utf8ByteSize hij
  simpa [wideUpdate, utf8ByteSize_replicate] using hlength

theorem length_wideQueue : wideQueue.length = 175 := by simp [wideQueue]

theorem wideQueue_exceeds : ∃ updates, Sends wideQueue updates ∧ 2 ≤ updates.length ∧
    maxPayloadSize < (updates.map (·.contentSize)).sum := by
  have hestimate : (wideQueue.map fun c => estimateUpdateSize c.update).sum = 175 * 4388 := by
    have hsize : ∀ size ∈ wideQueue.map fun c => estimateUpdateSize c.update, size = 4388 := by
      intro size hsize
      obtain ⟨c, hc, rfl⟩ := List.mem_map.mp hsize
      obtain ⟨i, hi, hupdate⟩ := wideQueue_update c hc
      rw [hupdate, estimate_wideUpdate hi]
    rw [List.eq_replicate_of_mem hsize, List.sum_replicate_nat, List.length_map, length_wideQueue]
  have hbatch : (buildBatch wideQueue).1 = wideQueue := by
    apply fillBatch_of_le
    rw [hestimate, maxPayloadSize]
  obtain ⟨updates, hupdates⟩ := exists_coalesce wideQueue_nodup
  have hlength : updates.length = 175 := by
    have hids := congrArg List.length (ids_of_coalesce hupdates).1
    rw [eraseDups_of_nodup wideQueue_nodup] at hids
    simpa [length_wideQueue] using hids
  have hsize : ∀ size ∈ updates.map (·.contentSize), size = 4389 := by
    intro size hsize
    obtain ⟨v, hv, rfl⟩ := List.mem_map.mp hsize
    obtain ⟨c, hc, rfl⟩ := List.mem_map.mp (mem_of_coalesce wideQueue_nodup hupdates hv)
    obtain ⟨i, hi, hupdate⟩ := wideQueue_update c hc
    have hadd := contentSize_add (wideUpdate i)
    rw [estimate_wideUpdate hi, leftOut_wideUpdate] at hadd
    rw [hupdate]
    omega
  have hsends : Sends wideQueue updates := by
    unfold Sends
    simpa only [hbatch] using hupdates
  refine ⟨updates, hsends, by omega, ?_⟩
  rw [List.eq_replicate_of_mem hsize, List.sum_replicate_nat, List.length_map, hlength,
    maxPayloadSize]
  omega

/-- What a worker sends is a batch of some queue. The estimates of a batch of two or more updates
are within the limit, and its strings are exactly as long as those that the estimate leaves out need
no more than the bases and the rest of the limit. A bound on what the queued updates leave out
keeps every batch within the limit exactly if it is at most the base. -/
theorem batch_fits_iff (token : String) (stepData : Table) :
    (∀ s : State, (machine token stepData).Reachable s → ∀ w batch token' updates,
      ServiceEvent.requested (.worker w) batch token' updates ∈ s.log →
        ∃ queue, Sends queue updates) ∧
    (∀ queue updates, Sends queue updates → 2 ≤ updates.length →
      100 + (updates.map estimateUpdateSize).sum ≤ maxPayloadSize ∧
      ((updates.map (·.contentSize)).sum ≤ maxPayloadSize ↔
        (updates.map fun u => byteSize u.leftOut).sum ≤
          100 * updates.length + (maxPayloadSize - (updates.map estimateUpdateSize).sum))) ∧
    ∀ bound, (∀ queue updates, (∀ c ∈ queue, byteSize c.update.leftOut ≤ bound) →
      Sends queue updates → 2 ≤ updates.length →
        (updates.map (·.contentSize)).sum ≤ maxPayloadSize) ↔ bound ≤ 100 := by
  refine ⟨fun s h w batch token' updates => sends_of_requested h, ?_, ?_⟩
  · intro queue updates hsends htwo
    have hqueued := hsends.estimate_le htwo
    have hsent := sum_coalesced_le subadditive_estimateUpdateSize hsends
    have hcontent := sum_contentSize updates
    have hestimate : 100 + (updates.map estimateUpdateSize).sum ≤ maxPayloadSize :=
      (Nat.add_le_add_left hsent 100).trans hqueued
    exact ⟨hestimate, by omega⟩
  · intro bound
    constructor
    · intro h
      by_contra hbound
      obtain ⟨updates, hsends, htwo, hexceeds⟩ := wideQueue_exceeds
      have hfits := h wideQueue updates (fun c hc => ?_) hsends htwo
      · omega
      · obtain ⟨i, -, hupdate⟩ := wideQueue_update c hc
        rw [hupdate, leftOut_wideUpdate]
        omega
    · intro hbound queue updates hleftOut hsends htwo
      exact hsends.content_le htwo fun c hc => (hleftOut c hc).trans hbound

def failUpdate (id message : String) : OperationUpdate where
  id := id
  operationType := .step
  action := .fail
  error := some { errorType := "Error", errorMessage := message, details := none }

def failQueue (message : String) : List QueuedCheckpoint :=
  [⟨"a", failUpdate "a" message, 0⟩, ⟨"b", failUpdate "b" message, 1⟩]

theorem sends_failQueue (message : String) :
    Sends (failQueue message) [failUpdate "a" message, failUpdate "b" message] := by
  have ha : estimateUpdateSize (failUpdate "a" message) = 101 := rfl
  have hb : estimateUpdateSize (failUpdate "b" message) = 101 := rfl
  have hbatch : (buildBatch (failQueue message)).1 = failQueue message := by
    simp [buildBatch, failQueue, fillBatch, ha, hb, maxPayloadSize]
  rw [Sends, hbatch]
  rfl

theorem batch_fits_iff_short :
    ([failUpdate "a" "boom", failUpdate "b" "boom"].map (·.contentSize)).sum ≤ maxPayloadSize := by
  obtain ⟨-, -, hbounds⟩ := batch_fits_iff "token" fun _ => none
  refine (hbounds 100).mpr le_rfl _ _ ?_ (sends_failQueue "boom") (by decide)
  decide +kernel

/-- Two errors of 400000 bytes are estimated at 101 bytes each. -/
theorem batch_exceeds : ¬ ∀ queue updates, Sends queue updates → 2 ≤ updates.length →
    (updates.map (·.contentSize)).sum ≤ maxPayloadSize := by
  intro h
  obtain ⟨message, hlong⟩ : ∃ message : String, message.utf8ByteSize = 400000 :=
    ⟨_, utf8ByteSize_replicate 400000⟩
  have hfits := h _ _ (sends_failQueue message) (by simp)
  simp only [List.map_cons, List.map_nil, List.sum_cons, List.sum_nil, failUpdate,
    OperationUpdate.contentSize, OperationUpdate.leftOut, byteSize, maxPayloadSize,
    Option.elim_some, Option.elim_none] at hfits
  simp [hlong] at hfits
  omega

end CheckpointManager

end LambdaDurable
