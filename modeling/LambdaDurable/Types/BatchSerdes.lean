import LambdaDurable.Types.Batch
import LambdaDurable.Types.Json

/-!
# `BatchResultSerdes`

The writer leaves `result` out where there is none; the reader takes a `null` for
none. So a batch comes back as it was written where no result is written `null`,
and none nests so deep that serde_json gives up inside the payload.
-/

namespace LambdaDurable

open Json

variable {V : Type}

def batchResultKind : String := "BatchResult"

def itemStatusStr : BatchItemStatus → String
  | .succeeded => "SUCCEEDED"
  | .failed => "FAILED"
  | .started => "STARTED"

def parseItemStatus : String → Except String BatchItemStatus
  | "SUCCEEDED" => .ok .succeeded
  | "FAILED" => .ok .failed
  | "STARTED" => .ok .started
  | other => .error s!"Invalid batch item status: {other}"

def completionReasonStr : BatchCompletionReason → String
  | .allCompleted => "ALL_COMPLETED"
  | .minSuccessfulReached => "MIN_SUCCESSFUL_REACHED"
  | .failureToleranceExceeded => "FAILURE_TOLERANCE_EXCEEDED"

def parseCompletionReason : String → Except String BatchCompletionReason
  | "ALL_COMPLETED" => .ok .allCompleted
  | "MIN_SUCCESSFUL_REACHED" => .ok .minSuccessfulReached
  | "FAILURE_TOLERANCE_EXCEEDED" => .ok .failureToleranceExceeded
  | other => .error s!"Invalid batch completion reason: {other}"

@[simp] theorem parseItemStatus_str (status : BatchItemStatus) :
    parseItemStatus (itemStatusStr status) = .ok status := by
  cases status <;> rfl

@[simp] theorem parseCompletionReason_str (reason : BatchCompletionReason) :
    parseCompletionReason (completionReasonStr reason) = .ok reason := by
  cases reason <;> rfl

/-- The text an error is stored as. -/
def DurableError.storedMessage : DurableError → String
  | .internal message => message
  | other => other.display

/-! ## The writer -/

/-- `BatchItemPayload` -/
def BatchItem.payload (item : BatchItem V) (result : Option Json) : Json :=
  .object <|
    [("index", .number (.posInt (UInt64.ofNat item.index))),
      ("status", .string (itemStatusStr item.status))] ++
    unlessNone "result" result ++
    unlessNone "error" (item.error.map fun e => .string e.storedMessage)

def BatchItem.toJson (codec : JsonCodec V) (item : BatchItem V) : Except String Json :=
  match item.result with
  | some v => (codec.toJson v).map fun j => item.payload (some j)
  | none => .ok (item.payload none)

/-- `BatchResultPayload` -/
def BatchResult.payload (batch : BatchResult V) (items : List Json) : Json :=
  .object [("kind", .string batchResultKind),
    ("completion_reason", .string (completionReasonStr batch.completionReason)),
    ("items", .array items)]

def BatchResult.toJson (codec : JsonCodec V) (batch : BatchResult V) : Except String Json :=
  (batch.all.mapM (BatchItem.toJson codec)).map batch.payload

/-! ## The reader -/

structure BatchItemPayloadOwned (V : Type) where
  index : Nat
  status : String
  result : Option V
  error : Option String

structure BatchResultPayloadOwned (V : Type) where
  kind : String
  completionReason : String
  items : List (BatchItemPayloadOwned V)

def BatchItemPayloadOwned.fromJson (codec : JsonCodec V) (remainingDepth : Nat) (j : Json) :
    Except String (BatchItemPayloadOwned V) := do
  let inside ← enter remainingDepth
  let index ← (← structField 4 0 "index" j) |> required "index" readUsize
  let status ← (← structField 4 1 "status" j) |> required "status" readString
  let result ← (← structField 4 2 "result" j) |> optional (codec.fromJson inside)
  let error ← (← structField 4 3 "error" j) |> optional readString
  .ok { index, status, result, error }

def BatchResultPayloadOwned.fromJson (codec : JsonCodec V) (remainingDepth : Nat) (j : Json) :
    Except String (BatchResultPayloadOwned V) := do
  let inside ← enter remainingDepth
  let kind ← (← structField 3 0 "kind" j) |> required "kind" readString
  let completionReason ←
    (← structField 3 1 "completion_reason" j) |> required "completion_reason" readString
  let items ← (← structField 3 2 "items" j) |>
    required "items" (readVec (BatchItemPayloadOwned.fromJson codec) inside)
  .ok { kind, completionReason, items }

def BatchItemPayloadOwned.item (payload : BatchItemPayloadOwned V) :
    Except String (BatchItem V) := do
  let status ← parseItemStatus payload.status
  let error := match status with
    | .failed => some (.internal (payload.error.getD "Batch item failed"))
    | _ => none
  .ok { index := payload.index, status, result := payload.result, error }

def BatchResultPayloadOwned.batch (payload : BatchResultPayloadOwned V) :
    Except String (BatchResult V) :=
  if payload.kind ≠ batchResultKind then
    .error s!"Unexpected batch payload kind: {payload.kind}"
  else do
    let completionReason ← parseCompletionReason payload.completionReason
    let all ← payload.items.mapM BatchItemPayloadOwned.item
    .ok { all := all.mergeSort fun a b => a.index ≤ b.index, completionReason }

def batchResultSerdes (text : JsonText) (codec : JsonCodec V) : Serdes (BatchResult V) where
  serialize
    | some batch, _ => (batch.toJson codec).map fun j => some (text.print j)
    | none, _ => .ok none
  deserialize
    | some data, _ => do
      let j ← text.parse data
      let payload ← BatchResultPayloadOwned.fromJson codec recursionLimit j
      some <$> payload.batch
    | none, _ => .ok none

/-! ## There and back -/

section

variable (item : BatchItem V) (result : Option Json)

theorem structField_index :
    structField 4 0 "index" (item.payload result) =
      .ok (some (.number (.posInt (UInt64.ofNat item.index)))) := by
  cases result <;> cases herror : item.error <;>
    simp [BatchItem.payload, structField, unlessNone, herror]

theorem structField_status :
    structField 4 1 "status" (item.payload result) =
      .ok (some (.string (itemStatusStr item.status))) := by
  cases result <;> cases herror : item.error <;>
    simp [BatchItem.payload, structField, unlessNone, herror]

theorem structField_result : structField 4 2 "result" (item.payload result) = .ok result := by
  cases result <;> cases herror : item.error <;>
    simp [BatchItem.payload, structField, unlessNone, herror]

theorem structField_error :
    structField 4 3 "error" (item.payload result) =
      .ok (item.error.map fun e => .string e.storedMessage) := by
  cases result <;> cases herror : item.error <;>
    simp [BatchItem.payload, structField, unlessNone, herror]

theorem fromJson_payload (codec : JsonCodec V) (remainingDepth : Nat) (hindex : item.index < 2 ^ 64) :
    BatchItemPayloadOwned.fromJson codec (remainingDepth + 2) (item.payload result) =
      (optional (codec.fromJson (remainingDepth + 1)) result).map fun r =>
        { index := item.index, status := itemStatusStr item.status, result := r,
          error := item.error.map DurableError.storedMessage } := by
  have herror : optional readString (item.error.map fun e => .string e.storedMessage) =
      .ok (item.error.map DurableError.storedMessage) := by
    cases item.error <;> rfl
  simp only [BatchItemPayloadOwned.fromJson, enter, structField_index, structField_status,
    structField_result, structField_error, required, readUsize_ofNat hindex, readString, herror,
    bind, Except.bind]
  cases optional (codec.fromJson (remainingDepth + 1)) result <;> rfl

end

/-- What `map` and `parallel` make of a child. -/
def BatchItem.Shaped (item : BatchItem V) : Prop :=
  match item.status with
  | .succeeded => (∃ v, item.result = some v) ∧ item.error = none
  | .failed => item.result = none ∧ ∃ e, item.error = some e
  | .started => item.result = none ∧ item.error = none

/-- The results of `map` and `parallel`; an index is a `usize`. -/
structure BatchResult.Produced (batch : BatchResult V) : Prop where
  sorted : batch.all.Pairwise fun a b => a.index ≤ b.index
  shaped : ∀ item ∈ batch.all, item.Shaped
  bounded : ∀ item ∈ batch.all, item.index < 2 ^ 64

/-- The item as it is kept: an error is its stored text. -/
def BatchItem.kept (item : BatchItem V) (result : Option V) : BatchItem V :=
  { item with result, error := item.error.map fun e => .internal e.storedMessage }

variable (codec : JsonCodec V)

/-- Three levels of the payload are around a result. -/
def readBack : Option V → Except String (Option V)
  | none => .ok none
  | some v => codec.toJson v >>= fun j => optional (codec.fromJson (recursionLimit - 3)) (some j)

def reread (item : BatchItem V) : Except String (BatchItem V) :=
  item.toJson codec >>= fun j =>
    BatchItemPayloadOwned.fromJson codec (recursionLimit - 2) j >>= BatchItemPayloadOwned.item

theorem item_of_kept {item : BatchItem V} (hshaped : item.Shaped) (result : Option V) :
    BatchItemPayloadOwned.item
      { index := item.index, status := itemStatusStr item.status, result,
        error := item.error.map DurableError.storedMessage } = .ok (item.kept result) := by
  simp only [BatchItemPayloadOwned.item, parseItemStatus_str, bind, Except.bind, BatchItem.kept]
  unfold BatchItem.Shaped at hshaped
  cases hstatus : item.status with
  | succeeded =>
    rw [hstatus] at hshaped
    simp [hshaped.2]
  | failed =>
    rw [hstatus] at hshaped
    obtain ⟨-, e, he⟩ := hshaped
    simp [he]
  | started =>
    rw [hstatus] at hshaped
    simp [hshaped.2]

theorem reread_eq {item : BatchItem V} (hshaped : item.Shaped) (hindex : item.index < 2 ^ 64) :
    reread codec item = (readBack codec item.result).map item.kept := by
  have hread : ∀ result, (BatchItemPayloadOwned.fromJson codec (recursionLimit - 2)
      (item.payload result) >>= BatchItemPayloadOwned.item) =
        (optional (codec.fromJson (recursionLimit - 3)) result).map item.kept := by
    intro result
    rw [show recursionLimit - 2 = 124 + 2 from rfl, fromJson_payload item result codec 124 hindex,
      show recursionLimit - 3 = 124 + 1 from rfl]
    cases optional (codec.fromJson (124 + 1)) result with
    | error e => rfl
    | ok r => exact item_of_kept hshaped r
  cases hresult : item.result with
  | none =>
    have hnone := hread none
    simp only [reread, BatchItem.toJson, hresult]
    exact hnone
  | some v =>
    simp only [reread, BatchItem.toJson, hresult, readBack]
    cases codec.toJson v with
    | error e => rfl
    | ok j => exact hread (some j)

theorem fromJson_batchPayload (batch : BatchResult V) (items : List Json) :
    BatchResultPayloadOwned.fromJson codec recursionLimit (batch.payload items) =
      (items.mapM (BatchItemPayloadOwned.fromJson codec (recursionLimit - 2))).map fun payloads =>
        { kind := batchResultKind, completionReason := completionReasonStr batch.completionReason,
          items := payloads } := by
  simp only [BatchResultPayloadOwned.fromJson, BatchResult.payload, recursionLimit, enter,
    structField, required, readString, readVec, bind, Except.bind]
  simp only [List.filter, String.reduceBEq]
  cases items.mapM (BatchItemPayloadOwned.fromJson codec 126) <;> rfl

theorem batch_of_payloads (batch : BatchResult V) (payloads : List (BatchItemPayloadOwned V)) :
    BatchResultPayloadOwned.batch
      { kind := batchResultKind, completionReason := completionReasonStr batch.completionReason,
        items := payloads } =
      (payloads.mapM BatchItemPayloadOwned.item).map fun all =>
        ⟨all.mergeSort fun a b => a.index ≤ b.index, batch.completionReason⟩ := by
  simp only [BatchResultPayloadOwned.batch, ne_eq, not_true_eq_false, if_false,
    parseCompletionReason_str, bind, Except.bind]
  cases payloads.mapM BatchItemPayloadOwned.item <;> rfl

theorem deserialize_serialize {text : JsonText} {batch decoded : BatchResult V}
    (htext : ∀ j, batch.toJson codec = .ok j → text.parse (text.print j) = .ok j)
    (context : SerdesContext) :
    (∃ payload, (batchResultSerdes text codec).serialize (some batch) context = .ok (some payload) ∧
      (batchResultSerdes text codec).deserialize (some payload) context = .ok (some decoded)) ↔
    ∃ all, batch.all.mapM (reread codec) = .ok all ∧
      decoded = ⟨all.mergeSort fun a b => a.index ≤ b.index, batch.completionReason⟩ := by
  have hread : ∀ items, batch.all.mapM (BatchItem.toJson codec) = .ok items →
      ((batchResultSerdes text codec).deserialize (some (text.print (batch.payload items))) context =
          .ok (some decoded) ↔
        ∃ all, items.mapM (fun j => BatchItemPayloadOwned.fromJson codec (recursionLimit - 2) j >>=
            BatchItemPayloadOwned.item) = .ok all ∧
          decoded = ⟨all.mergeSort fun a b => a.index ≤ b.index, batch.completionReason⟩) := by
    intro items hitems
    have hparse : text.parse (text.print (batch.payload items)) = .ok (batch.payload items) :=
      htext _ (map_eq_ok.mpr ⟨items, hitems, rfl⟩)
    simp only [batchResultSerdes, hparse, ← mapM_mapM_eq_ok]
    constructor
    · intro h
      obtain ⟨j, hj, hrest⟩ := bind_eq_ok.mp h
      cases hj
      obtain ⟨payload, hpayload, hbatch⟩ := bind_eq_ok.mp hrest
      rw [fromJson_batchPayload] at hpayload
      obtain ⟨payloads, hpayloads, rfl⟩ := map_eq_ok.mp hpayload
      rw [batch_of_payloads] at hbatch
      obtain ⟨b, hb, hdecoded⟩ := map_eq_ok.mp hbatch
      obtain ⟨all, hall, rfl⟩ := map_eq_ok.mp hb
      exact ⟨all, ⟨payloads, hpayloads, hall⟩, (Option.some.inj hdecoded).symm⟩
    · rintro ⟨all, ⟨payloads, hpayloads, hall⟩, rfl⟩
      have hfrom : BatchResultPayloadOwned.fromJson codec recursionLimit (batch.payload items) =
          .ok ⟨batchResultKind, completionReasonStr batch.completionReason, payloads⟩ := by
        rw [fromJson_batchPayload, hpayloads]
        rfl
      refine bind_eq_ok.mpr ⟨_, rfl, bind_eq_ok.mpr ⟨_, hfrom, ?_⟩⟩
      rw [batch_of_payloads, hall]
      rfl
  have hreread : reread codec = fun item => item.toJson codec >>= fun j =>
      BatchItemPayloadOwned.fromJson codec (recursionLimit - 2) j >>= BatchItemPayloadOwned.item := rfl
  rw [hreread]
  simp only [← mapM_mapM_eq_ok (f := BatchItem.toJson codec)]
  constructor
  · rintro ⟨payload, hwrite, hdecode⟩
    obtain ⟨j, hj, hpayload⟩ := map_eq_ok.mp hwrite
    obtain ⟨items, hitems, rfl⟩ := map_eq_ok.mp hj
    obtain rfl := Option.some.inj hpayload
    obtain ⟨all, hall, hdecoded⟩ := (hread items hitems).mp hdecode
    exact ⟨all, ⟨items, hitems, hall⟩, hdecoded⟩
  · rintro ⟨all, ⟨items, hitems, hall⟩, hdecoded⟩
    refine ⟨text.print (batch.payload items), ?_, (hread items hitems).mpr ⟨all, hall, hdecoded⟩⟩
    exact map_eq_ok.mpr ⟨_, map_eq_ok.mpr ⟨items, hitems, rfl⟩, rfl⟩

/-! ## What is preserved -/

structure BatchItem.Same (item out : BatchItem V) : Prop where
  index : out.index = item.index
  status : out.status = item.status
  result : out.result = item.result
  error : out.error.map DurableError.storedMessage = item.error.map DurableError.storedMessage

structure BatchResult.Preserved (batch out : BatchResult V) : Prop where
  completionReason : out.completionReason = batch.completionReason
  all : List.Forall₂ BatchItem.Same batch.all out.all
  values : out.values = batch.values
  succeeded : List.Forall₂ BatchItem.Same batch.succeeded out.succeeded
  successCount : out.successCount = batch.successCount
  failureCount : out.failureCount = batch.failureCount
  startedCount : out.started.length = batch.started.length
  totalCount : out.all.length = batch.all.length

theorem filter_same {xs ys : List (BatchItem V)} (h : List.Forall₂ BatchItem.Same xs ys)
    (status : BatchItemStatus) :
    List.Forall₂ BatchItem.Same (xs.filter (·.status = status)) (ys.filter (·.status = status)) := by
  induction h with
  | nil => exact .nil
  | @cons x y xs ys hxy _ ih =>
    by_cases hx : x.status = status
    · have hy : y.status = status := hxy.status.trans hx
      simpa [List.filter_cons, hx, hy] using ⟨hxy, ih⟩
    · have hy : y.status ≠ status := hxy.status ▸ hx
      simpa [List.filter_cons, hx, hy] using ih

theorem filterMap_same {xs ys : List (BatchItem V)} (h : List.Forall₂ BatchItem.Same xs ys) :
    ys.filterMap (fun i => i.result.map fun r => (i.index, r)) =
      xs.filterMap fun i => i.result.map fun r => (i.index, r) := by
  induction h with
  | nil => rfl
  | cons hxy _ ih => simp only [List.filterMap_cons, hxy.result, hxy.index, ih]

theorem preserved_of_same {batch out : BatchResult V}
    (hreason : out.completionReason = batch.completionReason)
    (h : List.Forall₂ BatchItem.Same batch.all out.all) : batch.Preserved out where
  completionReason := hreason
  all := h
  values := by simp only [BatchResult.values, filterMap_same h]
  succeeded := filter_same h .succeeded
  successCount := (filter_same h .succeeded).length_eq.symm
  failureCount := (filter_same h .failed).length_eq.symm
  startedCount := (filter_same h .started).length_eq.symm
  totalCount := h.length_eq.symm

/-- The encoding of a result is not that of an absent one, and can be read at its place. -/
def Survives (v : V) : Prop :=
  ∀ j, codec.toJson v = .ok j → j ≠ .null ∧ codec.fromJson (recursionLimit - 3) j = .ok v

theorem readBack_iff (hcodec : codec.RoundTrips) (result : Option V) :
    readBack codec result = .ok result ↔ ∀ v, result = some v → Survives codec v := by
  cases result with
  | none => simp [readBack]
  | some v =>
    obtain ⟨j, hj, -⟩ := hcodec v
    simp only [readBack, hj, Option.some.injEq, forall_eq', Survives, Except.ok.injEq]
    by_cases hnull : j = .null
    · subst hnull
      simp [bind, Except.bind, Json.optional]
    · simp only [bind, Except.bind, optional_of_ne_null hnull, map_eq_ok, Option.some.injEq,
        exists_eq_right, ne_eq, hnull, not_false_eq_true, true_and]

theorem same_iff_of_reread (hcodec : codec.RoundTrips) {item : BatchItem V}
    (hshaped : item.Shaped) (hindex : item.index < 2 ^ 64) :
    (∃ out, reread codec item = .ok out ∧ item.Same out) ↔
      ∀ v, item.result = some v → Survives codec v := by
  rw [← readBack_iff codec hcodec, reread_eq codec hshaped hindex]
  constructor
  · rintro ⟨out, hout, hsame⟩
    obtain ⟨r, hr, rfl⟩ := map_eq_ok.mp hout
    exact hr.trans (congrArg _ hsame.result)
  · intro h
    refine ⟨item.kept item.result, map_eq_ok.mpr ⟨_, h, rfl⟩, rfl, rfl, rfl, ?_⟩
    cases herror : item.error <;> simp [BatchItem.kept, herror, DurableError.storedMessage]

theorem index_of_reread {item out : BatchItem V} (hshaped : item.Shaped)
    (hindex : item.index < 2 ^ 64) (h : reread codec item = .ok out) : out.index = item.index := by
  rw [reread_eq codec hshaped hindex] at h
  obtain ⟨r, -, rfl⟩ := map_eq_ok.mp h
  rfl

theorem indices_of_reread {batch : BatchResult V} (hproduced : batch.Produced)
    {all : List (BatchItem V)} (h : batch.all.mapM (reread codec) = .ok all) :
    all.map BatchItem.index = batch.all.map BatchItem.index := by
  rw [mapM_eq_ok] at h
  refine List.ext_get (by simpa using h.length_eq.symm) fun i hi hi' => ?_
  rw [List.length_map] at hi hi'
  have hmem : batch.all.get ⟨i, hi'⟩ ∈ batch.all := List.get_mem _ _
  simpa using index_of_reread codec (hproduced.shaped _ hmem) (hproduced.bounded _ hmem)
    ((List.forall₂_iff_get.mp h).2 i hi' hi)

/-- Sorting what was read changes nothing: the indices are those written. -/
theorem sort_of_reread {batch : BatchResult V} (hproduced : batch.Produced)
    {all : List (BatchItem V)} (h : batch.all.mapM (reread codec) = .ok all) :
    all.mergeSort (fun a b => a.index ≤ b.index) = all := by
  have hindices := indices_of_reread codec hproduced h
  have hsorted : all.Pairwise fun a b => a.index ≤ b.index := by
    rw [← List.pairwise_map (R := fun a b : Nat => a ≤ b), hindices, List.pairwise_map]
    exact hproduced.sorted
  exact List.mergeSort_of_pairwise (hsorted.imp fun hle => by simpa using hle)

/-- The round trip of `BatchResultSerdes`. -/
theorem batchResultSerdes_roundtrip {text : JsonText} (hcodec : codec.RoundTrips)
    {batch : BatchResult V} (hproduced : batch.Produced)
    (htext : ∀ j, batch.toJson codec = .ok j → text.parse (text.print j) = .ok j)
    (context : SerdesContext) :
    (∃ payload out,
      (batchResultSerdes text codec).serialize (some batch) context = .ok (some payload) ∧
      (batchResultSerdes text codec).deserialize (some payload) context = .ok (some out) ∧
      batch.Preserved out) ↔
    ∀ item ∈ batch.all, ∀ v, item.result = some v → Survives codec v := by
  constructor
  · rintro ⟨payload, out, hwrite, hread, hpreserved⟩
    obtain ⟨all, hall, rfl⟩ := (deserialize_serialize codec htext context).mp ⟨payload, hwrite, hread⟩
    have hsame := hpreserved.all
    rw [sort_of_reread codec hproduced hall] at hsame
    intro item hitem
    obtain ⟨i, rfl⟩ := List.mem_iff_get.mp hitem
    have hlt : i.1 < all.length := hsame.length_eq ▸ i.2
    refine (same_iff_of_reread codec hcodec (hproduced.shaped _ hitem) (hproduced.bounded _ hitem)).mp
      ⟨all.get ⟨i.1, hlt⟩, ?_, ?_⟩
    · exact (List.forall₂_iff_get.mp (mapM_eq_ok.mp hall)).2 i.1 i.2 hlt
    · exact (List.forall₂_iff_get.mp hsame).2 i.1 i.2 hlt
  · intro hsurvive
    have hitem : ∀ item ∈ batch.all, ∃ out, reread codec item = .ok out ∧ item.Same out :=
      fun item hmem => (same_iff_of_reread codec hcodec (hproduced.shaped _ hmem)
        (hproduced.bounded _ hmem)).mpr (hsurvive item hmem)
    obtain ⟨all, hall, hsame⟩ := exists_mapM hitem
    obtain ⟨payload, hwrite, hread⟩ := (deserialize_serialize codec htext context).mpr ⟨all, hall, rfl⟩
    rw [sort_of_reread codec hproduced hall] at hread
    exact ⟨payload, _, hwrite, hread, preserved_of_same rfl hsame⟩

/-- The items of a result that is read back have the indices that were written. -/
def Serdes.PreservesIndices (serdes : Serdes (BatchResult V)) : Prop :=
  ∀ batch out context payload, batch.Produced →
    serdes.serialize (some batch) context = .ok (some payload) →
    serdes.deserialize (some payload) context = .ok (some out) →
    out.all.map (·.index) = batch.all.map (·.index)

/-! ## A result written `null` -/

/-- serde_json at `()`. -/
def unitCodec : JsonCodec Unit where
  toJson _ := .ok .null
  fromJson
    | _, .null => .ok ()
    | _, _ => .error "invalid type"

/-- serde_json at `u64`. -/
def u64Codec : JsonCodec UInt64 where
  toJson n := .ok (.number (.posInt n))
  fromJson
    | _, .number (.posInt n) => .ok n
    | _, _ => .error "invalid type"

def oneSuccess (v : V) : BatchResult V where
  all := [{ index := 0, status := .succeeded, result := some v }]
  completionReason := .allCompleted

def oneDocument (result : Json) : Json :=
  .object [("kind", .string "BatchResult"), ("completion_reason", .string "ALL_COMPLETED"),
    ("items", .array [.object [("index", .number (.posInt 0)), ("status", .string "SUCCEEDED"),
      ("result", result)]])]

/-- serde_json on the payload of one success, whose result is written `text`. -/
def oneText (result : Json) (text : String) : JsonText where
  print _ := "\x7b\"kind\":\"BatchResult\",\"completion_reason\":\"ALL_COMPLETED\",\"items\":[" ++
    s!"\x7b\"index\":0,\"status\":\"SUCCEEDED\",\"result\":{text}\x7d]\x7d"
  parse _ := .ok (oneDocument result)

theorem oneSuccess_produced (v : V) : (oneSuccess v).Produced where
  sorted := List.pairwise_singleton _ _
  shaped := by
    intro item hitem
    obtain rfl := List.mem_singleton.mp hitem
    exact ⟨⟨v, rfl⟩, rfl⟩
  bounded := by
    intro item hitem
    obtain rfl := List.mem_singleton.mp hitem
    show 0 < 2 ^ 64
    decide

theorem oneText_parse {codec : JsonCodec V} {v : V} {j : Json} (hv : codec.toJson v = .ok j)
    (text : String) (document : Json) (h : (oneSuccess v).toJson codec = .ok document) :
    (oneText j text).parse ((oneText j text).print document) = .ok document := by
  have hdocument : (oneSuccess v).toJson codec = .ok (oneDocument j) := by
    simp only [BatchResult.toJson, oneSuccess, List.mapM_cons, List.mapM_nil, BatchItem.toJson, hv]
    rfl
  exact hdocument.symm.trans h

theorem unitCodec_roundTrips : unitCodec.RoundTrips := fun _ => ⟨.null, rfl, rfl⟩

theorem u64Codec_roundTrips : u64Codec.RoundTrips := fun n => ⟨.number (.posInt n), rfl, rfl⟩

theorem u64Codec_survives (n : UInt64) : Survives u64Codec n := by
  rintro j ⟨⟩
  constructor
  · rintro ⟨⟩
  · rfl

/-- One item of each status. -/
def mixedBatch : BatchResult UInt64 where
  all := [{ index := 0, status := .succeeded, result := some 7 },
    { index := 1, status := .failed, error := some (.internal "boom") },
    { index := 2, status := .started }]
  completionReason := .failureToleranceExceeded

def mixedDocument : Json :=
  .object [("kind", .string "BatchResult"), ("completion_reason", .string "FAILURE_TOLERANCE_EXCEEDED"),
    ("items", .array [
      .object [("index", .number (.posInt 0)), ("status", .string "SUCCEEDED"),
        ("result", .number (.posInt 7))],
      .object [("index", .number (.posInt 1)), ("status", .string "FAILED"),
        ("error", .string (DurableError.internal "boom").storedMessage)],
      .object [("index", .number (.posInt 2)), ("status", .string "STARTED")]])]

/-- serde_json on that payload. -/
def mixedText : JsonText where
  print _ := "\x7b\"kind\":\"BatchResult\",\"completion_reason\":\"FAILURE_TOLERANCE_EXCEEDED\"," ++
    "\"items\":[" ++
    "\x7b\"index\":0,\"status\":\"SUCCEEDED\",\"result\":7\x7d," ++
    "\x7b\"index\":1,\"status\":\"FAILED\",\"error\":\"" ++
    (DurableError.internal "boom").storedMessage ++ "\"\x7d," ++
    "\x7b\"index\":2,\"status\":\"STARTED\"\x7d]\x7d"
  parse _ := .ok mixedDocument

theorem mixedBatch_produced : mixedBatch.Produced where
  sorted := by decide
  shaped := by
    intro item hitem
    simp only [mixedBatch, List.mem_cons, List.not_mem_nil, or_false] at hitem
    obtain rfl | rfl | rfl := hitem
    · exact ⟨⟨7, rfl⟩, rfl⟩
    · exact ⟨rfl, ⟨_, rfl⟩⟩
    · exact ⟨rfl, rfl⟩
  bounded := by
    intro item hitem
    simp only [mixedBatch, List.mem_cons, List.not_mem_nil, or_false] at hitem
    obtain rfl | rfl | rfl := hitem <;> decide

theorem batchResultSerdes_roundtrip_u64 : ∃ payload out,
    (batchResultSerdes mixedText u64Codec).serialize (some mixedBatch) ⟨"entity", "arn"⟩ =
      .ok (some payload) ∧
    (batchResultSerdes mixedText u64Codec).deserialize (some payload) ⟨"entity", "arn"⟩ =
      .ok (some out) ∧
    mixedBatch.Preserved out := by
  have htext : ∀ j, mixedBatch.toJson u64Codec = .ok j →
      mixedText.parse (mixedText.print j) = .ok j := by
    rintro j ⟨⟩
    rfl
  exact (batchResultSerdes_roundtrip u64Codec u64Codec_roundTrips mixedBatch_produced htext
    ⟨"entity", "arn"⟩).mpr fun _ _ v _ => u64Codec_survives v

/-- The result of a child that returns `()` is written `null`, and read as absent. -/
theorem unitResult_lost : unitCodec.RoundTrips ∧
    ¬ ∀ (text : JsonText) (batch : BatchResult Unit), batch.Produced →
    (∀ j, batch.toJson unitCodec = .ok j → text.parse (text.print j) = .ok j) →
      ∀ context, ∃ payload out,
        (batchResultSerdes text unitCodec).serialize (some batch) context = .ok (some payload) ∧
        (batchResultSerdes text unitCodec).deserialize (some payload) context = .ok (some out) ∧
        batch.Preserved out := by
  refine ⟨unitCodec_roundTrips, fun hclaim => ?_⟩
  obtain ⟨payload, out, hwrite, hread, hpreserved⟩ :=
    hclaim (oneText .null "null") (oneSuccess ()) (oneSuccess_produced ())
      (oneText_parse rfl "null") ⟨"entity", "arn"⟩
  obtain ⟨all, hall, rfl⟩ := (deserialize_serialize unitCodec (oneText_parse rfl "null")
    ⟨"entity", "arn"⟩).mp ⟨payload, hwrite, hread⟩
  have hread : (oneSuccess ()).all.mapM (reread unitCodec) =
      .ok [{ index := 0, status := .succeeded }] := rfl
  obtain rfl := Except.ok.inj (hread.symm.trans hall)
  have hsame := hpreserved.all
  rw [List.mergeSort_singleton] at hsame
  obtain _ | ⟨hitem, -⟩ := hsame
  exact absurd hitem.result nofun

end LambdaDurable
