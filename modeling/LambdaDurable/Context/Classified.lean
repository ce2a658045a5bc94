import LambdaDurable.Context.Agreement

/-!
# How a replay reads the payload of a batch

The update of a batch has the full payload, or a summary and the flag `replay_children`. A replay
does not look at the flag but at the payload.
-/

namespace LambdaDurable

open Effects

variable {V I : Type}

namespace Batch

/-- The update that `complete` makes when the children are `0, .., k - 1`. -/
structure Recorded (spec : BatchSpec) (ctx : ExecutionContext) (name : Option String)
    (cfg : BatchConfig V) (totalItems : Nat) (hashedId : String) (p : Progress V) (k : Nat)
    (payload : String) (u : OperationUpdate) : Prop where
  indices : p.indices.Perm (List.range k)
  bound : k ≤ totalItems
  serialized : cfg.batchSerdes.serialize (some (p.result cfg.completionConfig totalItems))
    (ctx.site hashedId name).context = .ok (some payload)
  update : u = succeedUpdate spec hashedId payload (spec.summary k p.successes.length
    p.failures.length p.started.length (p.result cfg.completionConfig totalItems).completionReason)

/-- The operation has the record `op`. -/
def Finds (hashedId : String) (op : Operation) : (e : Effect V) → Answer e → Prop
  | .getStepData id, found => id = hashedId → found = some op
  | _, _ => True

/-- A replay that looks up its own record and draws IDs. -/
def Reads (hashedId : String) : Effect V → Prop
  | .getStepData id => id = hashedId
  | .fetchAdd _ => True
  | _ => False

def reading (hashedId : String) (op : Operation) : Monitor (Effect V) Answer Unit where
  answers _ := Finds hashedId op
  allows _ := Reads hashedId
  after _ _ _ := ()

/-- `evaluate_map_replay` or `evaluate_parallel_replay` comes to the decision. -/
def Decides (spec : BatchSpec) (ctx : ExecutionContext) (name : Option String) (cfg : BatchConfig V)
    (itemNames : List String) (hashedId : String) (op : Operation) (decision : ReplayDecision V) :
    Prop :=
  (evaluateReplay spec ctx name cfg itemNames hashedId).Meets (reading hashedId op)
    (fun _ r => r = .ok decision) ()

section

variable {spec : BatchSpec} {ctx : ExecutionContext} {name : Option String} {cfg : BatchConfig V}
  {itemNames : List String} {hashedId : String} {op : Operation} {p : Progress V} {k : Nat}
  {payload : String} {u : OperationUpdate} {decision : ReplayDecision V}

theorem decides_reconstruct {total : Nat} (hstatus : op.status = .succeeded)
    (hresult : op.contextDetails.bind (·.result) = some payload)
    (hparse : ReadsSummary cfg.parseJson payload total) (htotal : total ≤ itemNames.length) :
    Decides spec ctx name cfg itemNames hashedId op (.reconstruct total) := by
  obtain ⟨hsummary, hcount⟩ := @ReadsSummary.isSummary spec _ _ _ hparse
  unfold Decides evaluateReplay
  rw [getStepData_bind]
  refine ⟨rfl, fun found hfound => ?_⟩
  obtain rfl := hfound rfl
  simp [hstatus, hresult, hsummary, hcount, Nat.not_lt.mpr htotal]

/-- A payload that looks like a summary is never read as a batch. -/
theorem not_decides_return {out : BatchResult V} (hstatus : op.status = .succeeded)
    (hresult : op.contextDetails.bind (·.result) = some payload)
    (hsummary : isSummary spec (cfg.parseJson payload) = true) :
    ¬ Decides spec ctx name cfg itemNames hashedId op (.return out) := by
  unfold Decides evaluateReplay
  rw [getStepData_bind]
  rintro ⟨-, h⟩
  have hdecided := h (some op) fun _ => rfl
  simp only [hstatus, hresult, hsummary, if_true] at hdecided
  split at hdecided
  · cases hdecided
  · split at hdecided <;> cases hdecided

theorem meets_consumeIds (names : List String) :
    (consumeIds ctx names : Act V Unit).Meets (reading hashedId op) (fun _ _ => True) () := by
  induction names with
  | nil => trivial
  | cons itemName rest ih => exact ⟨trivial, fun _ _ => ih⟩

theorem decides_return {out : BatchResult V} (hstatus : op.status = .succeeded)
    (hresult : op.contextDetails.bind (·.result) = some payload)
    (hfull : isSummary spec (cfg.parseJson payload) = false)
    (hread : cfg.batchSerdes.deserialize (some payload) (ctx.site hashedId name).context =
      .ok (some out)) (htarget : targetTotalCount out ≤ itemNames.length) :
    Decides spec ctx name cfg itemNames hashedId op (.return out) := by
  unfold Decides evaluateReplay
  rw [getStepData_bind]
  refine ⟨rfl, fun found hfound => ?_⟩
  obtain rfl := hfound rfl
  simp only [hstatus, hresult, hfull, Bool.false_eq_true, if_false,
    safeDeserializeRequiredWithSerdes, hread, Prog.ret_bind, if_neg (Nat.not_lt.mpr htarget)]
  rw [Prog.meets_bind]
  exact (meets_consumeIds _).mono fun _ _ _ => rfl

theorem Recorded.produced (h : Recorded spec ctx name cfg itemNames.length hashedId p k payload u)
    (hlen : itemNames.length < 2 ^ 64) :
    ((p.result cfg.completionConfig itemNames.length).all.map (·.index)).Perm (List.range k) ∧
      (p.result cfg.completionConfig itemNames.length).Produced := by
  have hindices := (items_indices p).trans h.indices
  refine ⟨hindices, p.result_produced _ _ fun item hitem => ?_⟩
  have hlt := List.mem_range.mp (hindices.mem_iff.mp (List.mem_map_of_mem hitem))
  have hbound := h.bound
  omega

/-- What a replay decides is right exactly if a full payload does not look like a summary. -/
theorem payload_classified_iff {out : BatchResult V}
    (h : Recorded spec ctx name cfg itemNames.length hashedId p k payload u)
    (hlen : itemNames.length < 2 ^ 64) (hserdes : cfg.batchSerdes.PreservesIndices)
    (hread : cfg.batchSerdes.deserialize (some payload) (ctx.site hashedId name).context =
      .ok (some out))
    (hparse : ∀ summary, u.payload = some summary → u.contextOptions ≠ none →
      ReadsSummary cfg.parseJson summary k)
    (hstatus : op.status = .succeeded)
    (hresult : op.contextDetails.bind (·.result) = u.payload) :
    Decides spec ctx name cfg itemNames hashedId op
        (if u.contextOptions = none then .return out else .reconstruct k) ↔
      (u.contextOptions = none → isSummary spec (cfg.parseJson payload) = false) := by
  have hu := h.update
  unfold succeedUpdate at hu
  dsimp only at hu
  split at hu
  · subst hu
    simp only [reduceCtorEq, if_false, false_implies, iff_true]
    exact decides_reconstruct hstatus hresult (hparse _ rfl (by simp)) h.bound
  · subst hu
    simp only [if_true, true_implies]
    constructor
    · intro hdecides
      by_contra hsummary
      exact not_decides_return hstatus hresult (by simpa using hsummary) hdecides
    · intro hfull
      obtain ⟨hindices, hproduced⟩ := h.produced hlen
      have hsame := hserdes _ out _ payload hproduced h.serialized hread
      have htarget : targetTotalCount out = k := targetTotalCount_eq (hsame ▸ hindices)
      exact decides_return hstatus hresult hfull hread (htarget.trans_le h.bound)

end

end Batch

/-- What a batch has reported in a run is recorded so. -/
theorem Executed.recorded {spec : BatchSpec} {ctx : ExecutionContext} {name : Option String}
    {cfg : BatchConfig V} {totalItems n k : Nat} {trace : List (Event V)} {u : OperationUpdate}
    {r : DurableResult (BatchResult V)} (h : Executed spec ctx name cfg totalItems n k trace u r) :
    ∃ payload, Batch.Recorded spec ctx name cfg totalItems (callId ctx name n)
      (Batch.progress trace) k payload u := by
  obtain ⟨payload, hserialized, hupdate⟩ := h.update
  exact ⟨payload, h.indices, h.bound, hserialized, hupdate⟩

namespace Batch

/-! ## A serdes of the user -/

/-- A serdes that knows one batch, which it writes as `text`. -/
def oneSerdes (text : String) : Serdes (BatchResult Nat) where
  serialize
    | some ⟨[⟨0, .succeeded, some 7, none⟩], .allCompleted⟩, _ => .ok (some text)
    | _, _ => .error "unsupported batch"
  deserialize _ _ := .ok (some (oneSuccess 7))

theorem oneSerdes_undoes (text : String) (batch : BatchResult Nat) (context : SerdesContext)
    (payload : String) (h : (oneSerdes text).serialize (some batch) context = .ok (some payload)) :
    (oneSerdes text).deserialize (some payload) context = .ok (some batch) := by
  simp only [oneSerdes] at h ⊢
  split at h
  · rename_i heq
    cases heq
    rfl
  · cases h

theorem oneSerdes_preservesIndices (text : String) : (oneSerdes text).PreservesIndices := by
  intro batch out context payload _ hwrite hread
  rw [oneSerdes_undoes text batch context payload hwrite] at hread
  cases hread
  rfl

/-- An object with the number of results, as a summary has it. -/
def countedText : String := "\x7b\"results\":[7],\"totalCount\":1\x7d"

def countedJson : JsonValue :=
  .object [("results", .array [.number (some 7)]), ("totalCount", .number (some 1))]

/-- `serde_json` on the texts used here. -/
def parseCounted (text : String) : Option JsonValue :=
  if text = countedText then some countedJson
  else if text = "[7]" then some (.array [.number (some 7)])
  else none

def oneConfig (text : String) : BatchConfig Nat where
  serdes := some (oneSerdes text)
  batchResultSerdes := oneSerdes text
  itemCodec := .nat
  parseJson := parseCounted

def oneProgress : Progress Nat := { successes := [(0, 7)] }

def oneContext : ExecutionContext := { durableExecutionArn := "arn", hashId := id }

def oneUpdate (text : String) : OperationUpdate :=
  { id := "map_0", operationType := .context, subType := some "Map", action := .succeed,
    payload := some text }

def oneRecord (text : String) : Operation :=
  { id := "map_0", operationType := .context, status := .succeeded,
    contextDetails := some { result := some text } }

theorem oneProgress_result : oneProgress.result {} 1 = oneSuccess 7 := by
  simp [oneProgress, Progress.result, Progress.items, Progress.completedCount, oneSuccess,
    CompletionConfig.computeBatchCompletionReason, CompletionConfig.shouldContinueBatch,
    CompletionConfig.hasCompletionCriteria]

theorem recorded_one {text : String} (h : text.utf8ByteSize ≤ checkpointSizeLimitBytes) :
    Recorded map oneContext none (oneConfig text) 1 "map_0" oneProgress 1 text (oneUpdate text) where
  indices := by decide
  bound := Nat.le_refl 1
  serialized := by
    have hresult : oneProgress.result (oneConfig text).completionConfig 1 = oneSuccess 7 :=
      oneProgress_result
    rw [hresult]
    rfl
  update := by
    simp only [succeedUpdate]
    rw [if_neg (Nat.not_lt.mpr h)]
    rfl

theorem payload_classified_iff_plain :
    Decides map oneContext none (oneConfig "[7]") ["map-item-0"] "map_0" (oneRecord "[7]")
      (.return (oneSuccess 7)) := by
  have hrecorded : Recorded map oneContext none (oneConfig "[7]") ["map-item-0"].length "map_0"
      oneProgress 1 "[7]" (oneUpdate "[7]") := recorded_one (by decide +kernel)
  have hserdes : (oneConfig "[7]").batchSerdes.PreservesIndices := oneSerdes_preservesIndices "[7]"
  have hread : (oneConfig "[7]").batchSerdes.deserialize (some "[7]")
      (oneContext.site "map_0" none).context = .ok (some (oneSuccess 7)) := rfl
  have hparse : ∀ summary, (oneUpdate "[7]").payload = some summary →
      (oneUpdate "[7]").contextOptions ≠ none →
      ReadsSummary (oneConfig "[7]").parseJson summary 1 := fun _ _ h => absurd rfl h
  have hresult : (oneRecord "[7]").contextDetails.bind (·.result) = (oneUpdate "[7]").payload := rfl
  exact (payload_classified_iff hrecorded (by decide) hserdes hread hparse rfl hresult).mpr
    fun _ => by decide +kernel

/-- A user's serdes writes the object with `totalCount`; the full payload is taken for a summary. -/
theorem payload_misread :
    Recorded map oneContext none (oneConfig countedText) 1 "map_0" oneProgress 1 countedText
        (oneUpdate countedText) ∧
      (∀ batch context payload,
        (oneSerdes countedText).serialize (some batch) context = .ok (some payload) →
        (oneSerdes countedText).deserialize (some payload) context = .ok (some batch)) ∧
      ¬ Decides map oneContext none (oneConfig countedText) ["map-item-0"] "map_0"
        (oneRecord countedText) (.return (oneSuccess 7)) ∧
      Decides map oneContext none (oneConfig countedText) ["map-item-0"] "map_0"
        (oneRecord countedText) (.reconstruct 1) := by
  have hjson : parseCounted countedText = some countedJson := if_pos rfl
  have hcounted : ReadsSummary (oneConfig countedText).parseJson countedText 1 :=
    ⟨countedJson, hjson, rfl, rfl, rfl⟩
  exact ⟨recorded_one (by decide +kernel), oneSerdes_undoes countedText,
    not_decides_return rfl rfl hcounted.isSummary.1, decides_reconstruct rfl rfl hcounted (by decide)⟩

end Batch

end LambdaDurable
