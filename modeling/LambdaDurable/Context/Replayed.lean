import LambdaDurable.Context.Progress

/-!
# The IDs a batch draws in replay

From a full payload it draws a number for each child up to the greatest index, from a
summary one for each child that is counted, until a child cannot be reconstructed.
-/

namespace LambdaDurable

open Effects Call

variable {V T : Type}

/-- No result can be read from the record of the child. -/
def lost (loaded : Table) (ctx : ExecutionContext) (codec : Codec V) (childStepId itemName : String) :
    Bool :=
  match loaded (ctx.hashId childStepId) with
  | none => true
  | some op => op.status = .succeeded && !op.replayChildren &&
    match codec.deserialize (op.contextDetails.bind (·.result))
        (ctx.site (ctx.hashId childStepId) (some itemName)).context with
    | .ok none => true
    | _ => false

/-- The children that reconstruction draws a number for. -/
def reached (loaded : Table) (ctx : ExecutionContext) (codec : Codec V) (n : Nat) :
    List (String × Nat) → Nat
  | [] => 0
  | (itemName, index) :: rest =>
    if lost loaded ctx codec (ctx.operationId (some itemName) (n + 1 + index)) itemName then 1
    else reached loaded ctx codec n rest + 1

section

variable (loaded : Table) (spec : BatchSpec) (ctx : ExecutionContext) (name : Option String)
  (cfg : BatchConfig V) (itemNames : List String) (n : Nat)

/-- The children a replay draws a number for, by the recorded payload. -/
def consumed (payload : String) : Option Nat :=
  if Batch.isSummary spec (cfg.parseJson payload) then
    (Batch.summaryTotal (cfg.parseJson payload)).map fun totalCount =>
      if totalCount > itemNames.length then 0
      else reached loaded ctx cfg.itemCodec n (itemNames.zipIdx.take totalCount)
  else
    match cfg.batchSerdes.deserialize (some payload) (ctx.site (callId ctx name n) name).context with
    | .ok (some batch) =>
      some (if Batch.targetTotalCount batch > itemNames.length then 0 else Batch.targetTotalCount batch)
    | _ => some 0

/-- The same by the record of the batch. -/
def told : Option Nat :=
  (loaded (callId ctx name n)).bind fun op =>
    if op.status = .succeeded then
      (op.contextDetails.bind (·.result)).bind (consumed loaded spec ctx name cfg itemNames n)
    else none

/-- A full payload that is recorded can be read. -/
def Decodes : Prop :=
  ∀ op payload, loaded (callId ctx name n) = some op → op.status = .succeeded →
    op.contextDetails.bind (·.result) = some payload →
    Batch.isSummary spec (cfg.parseJson payload) = false →
    ∃ batch, cfg.batchSerdes.deserialize (some payload) (ctx.site (callId ctx name n) name).context =
      .ok (some batch)

end

/-- What holds of a batch that has returned. -/
structure Ran (loaded : Table) (spec : BatchSpec) (ctx : ExecutionContext) (name : Option String)
    (cfg : BatchConfig V) (itemNames : List String) (n : Nat) (trace : List (Event V))
    (r : DurableResult (BatchResult V)) : Prop where
  own : drawn trace = some n
  executed : ∀ stepId u a, ⟨.checkpoint stepId u, a⟩ ∈ trace → u.action = .succeed →
    ∃ k, Executed spec ctx name cfg itemNames.length n k trace u r
  replayed : ⟨.getMode, .replay⟩ ∈ trace →
    ∀ m, told loaded spec ctx name cfg itemNames n = some m → Counted ctx n m trace
  decoded : ⟨.getMode, .replay⟩ ∈ trace → Decodes loaded spec ctx name cfg n

section

variable {loaded : Table} {spec : BatchSpec} {ctx : ExecutionContext} {name : Option String}
  {cfg : BatchConfig V} {itemNames : List String} {trace : List (Event V)} {n k : Nat}
  {r : DurableResult (BatchResult V)}

theorem decodes_of_told (h : told loaded spec ctx name cfg itemNames n = none) :
    Decodes loaded spec ctx name cfg n := by
  intro op payload hop hstatus hpayload hfull
  simp only [told, hop, Option.bind_some, if_pos hstatus, hpayload, consumed, hfull] at h
  split at h
  · contradiction
  · split at h <;> cases h

theorem Unreported.ran (h : Unreported ctx n k trace)
    (hk : ∀ m, told loaded spec ctx name cfg itemNames n = some m → m = k)
    (hdecodes : Decodes loaded spec ctx name cfg n) :
    Ran loaded spec ctx name cfg itemNames n trace r where
  own := h.own
  executed stepId u a hmem haction := absurd haction (h.unsettled stepId u a hmem)
  replayed _ m hm := by
    obtain rfl := hk m hm
    exact h.toCounted
  decoded _ := hdecodes

theorem Concludes.ran
    (h : Concludes (told loaded spec ctx name cfg itemNames n = none) spec ctx name cfg
      itemNames.length n trace r) : Ran loaded spec ctx name cfg itemNames n trace r where
  own := h.own
  executed := h.executed
  replayed hmem m hm := by
    rw [h.mode hmem] at hm
    cases hm
  decoded hmem := decodes_of_told (h.mode hmem)

theorem Ran.whole (h : Ran loaded spec ctx name cfg itemNames n trace r) :
    ∀ m, drawn trace = some m → Ran loaded spec ctx name cfg itemNames m trace r := by
  intro m hm
  obtain rfl : n = m := Option.some.inj (h.own.symm.trans hm)
  exact h

/-! ## Full payloads -/

theorem counts_consumeIds {names : List String} (h : Unreported ctx n k trace) :
    Counts loaded ctx name itemNames (fun trace' _ => Unreported ctx n (k + names.length) trace')
      (Batch.consumeIds ctx names : Act V Unit) trace := by
  induction names generalizing k trace with
  | nil => exact h
  | cons itemName rest ih =>
    simp only [Batch.consumeIds, nextOperationId_bind]
    refine ⟨trivial, fun m hm => ?_⟩
    rw [List.length_cons, ← Nat.add_assoc, Nat.add_right_comm]
    exact ih (h.draw hm.2)

/-- What the replay decides on, with what it has drawn. -/
def Decided (loaded : Table) (spec : BatchSpec) (ctx : ExecutionContext) (name : Option String)
    (cfg : BatchConfig V) (itemNames : List String) (n : Nat) (trace : List (Event V)) :
    DurableResult (Batch.ReplayDecision V) → Prop
  | .ok (.reconstruct totalCount) => Unreported ctx n 0 trace ∧ totalCount ≤ itemNames.length ∧
    told loaded spec ctx name cfg itemNames n =
      some (reached loaded ctx cfg.itemCodec n (itemNames.zipIdx.take totalCount)) ∧
    Decodes loaded spec ctx name cfg n
  | .ok .continue =>
    Looped (told loaded spec ctx name cfg itemNames n = none) ctx n 0 trace
  | .ok (.return _) | .error _ => Decodes loaded spec ctx name cfg n ∧ ∃ k, Unreported ctx n k trace ∧
    ∀ m, told loaded spec ctx name cfg itemNames n = some m → m = k

theorem Looped.because {reason reason' : Prop} (h : Looped reason ctx n k trace)
    (hreason : reason → reason') : Looped reason' ctx n k trace :=
  ⟨h.toUnreported, h.indices, fun hmem => hreason (h.mode hmem)⟩

theorem told_of_payload {op : Operation} {payload : String} (hop : loaded (callId ctx name n) = some op)
    (hstatus : op.status = .succeeded) (hpayload : op.contextDetails.bind (·.result) = some payload) :
    told loaded spec ctx name cfg itemNames n =
      consumed loaded spec ctx name cfg itemNames n payload := by
  simp [told, hop, hstatus, hpayload]

theorem decodes_of_payload {op : Operation} {payload : String}
    (hop : loaded (callId ctx name n) = some op)
    (hpayload : op.contextDetails.bind (·.result) = some payload)
    (h : Batch.isSummary spec (cfg.parseJson payload) = true ∨ ∃ batch,
      cfg.batchSerdes.deserialize (some payload) (ctx.site (callId ctx name n) name).context =
        .ok (some batch)) : Decodes loaded spec ctx name cfg n := by
  intro op' payload' hop' _ hpayload' hfull
  obtain rfl : op = op' := Option.some.inj (hop.symm.trans hop')
  obtain rfl : payload = payload' := Option.some.inj (hpayload.symm.trans hpayload')
  obtain hsummary | hbatch := h
  · rw [hsummary] at hfull
    cases hfull
  · exact hbatch

theorem counts_summary (itemNames : List String) {op : Operation} {payload : String}
    (h : Looped True ctx n 0 trace)
    (hop : loaded (callId ctx name n) = some op) (hstatus : op.status = .succeeded)
    (hpayload : op.contextDetails.bind (·.result) = some payload)
    (hsummary : Batch.isSummary spec (cfg.parseJson payload) = true) :
    Decided loaded spec ctx name cfg itemNames n trace
      (match Batch.summaryTotal (cfg.parseJson payload) with
      | none => .ok .continue
      | some totalCount =>
        if totalCount > itemNames.length then
          .error (Batch.tooMany spec itemNames.length totalCount)
        else .ok (.reconstruct totalCount)) := by
  have htold : told loaded spec ctx name cfg itemNames n =
      consumed loaded spec ctx name cfg itemNames n payload := told_of_payload hop hstatus hpayload
  have hdecodes : Decodes loaded spec ctx name cfg n := decodes_of_payload hop hpayload (Or.inl hsummary)
  cases htotal : Batch.summaryTotal (cfg.parseJson payload) with
  | none => exact h.because fun _ => by simp [htold, consumed, hsummary, htotal]
  | some totalCount =>
    dsimp only
    split
    · rename_i hmany
      refine ⟨hdecodes, 0, h.toUnreported, fun m hm => ?_⟩
      simp only [htold, consumed, hsummary, htotal, if_true, Option.map_some, if_pos hmany] at hm
      exact (Option.some.inj hm).symm
    · rename_i hfew
      refine ⟨h.toUnreported, Nat.le_of_not_lt hfew, ?_, hdecodes⟩
      simp only [htold, consumed, hsummary, htotal, if_true, Option.map_some, if_neg hfew]

theorem counts_full {op : Operation} {payload : String} (h : Looped True ctx n 0 trace)
    (hop : loaded (callId ctx name n) = some op) (hstatus : op.status = .succeeded)
    (hpayload : op.contextDetails.bind (·.result) = some payload)
    (hfull : Batch.isSummary spec (cfg.parseJson payload) = false) :
    Counts loaded ctx name itemNames
      (fun trace' r => Decided loaded spec ctx name cfg itemNames n trace' r)
      (safeDeserializeRequiredWithSerdes cfg.batchSerdes payload (ctx.site (callId ctx name n) name) >>=
        fun batch =>
          if Batch.targetTotalCount batch > itemNames.length then
            .ret (.error (Batch.tooMany spec itemNames.length (Batch.targetTotalCount batch)))
          else do
            Batch.consumeIds ctx (itemNames.take (Batch.targetTotalCount batch))
            .ret (.ok (.return batch))) trace := by
  have htold : told loaded spec ctx name cfg itemNames n =
      consumed loaded spec ctx name cfg itemNames n payload := told_of_payload hop hstatus hpayload
  simp only [safeDeserializeRequiredWithSerdes]
  split
  · rename_i batch hbatch
    have hdecodes : Decodes loaded spec ctx name cfg n :=
      decodes_of_payload hop hpayload (Or.inr ⟨batch, hbatch⟩)
    have htold : told loaded spec ctx name cfg itemNames n =
        some (if Batch.targetTotalCount batch > itemNames.length then 0
          else Batch.targetTotalCount batch) := by
      rw [htold]
      simp [consumed, hfull, hbatch]
    rw [Prog.ret_bind]
    split
    · rename_i hmany
      rw [if_pos hmany] at htold
      refine ⟨hdecodes, 0, h.toUnreported, fun m hm => ?_⟩
      exact (Option.some.inj (htold.symm.trans hm)).symm
    · rename_i hfew
      rw [if_neg hfew] at htold
      refine Prog.Meets.bind (counts_consumeIds h.toUnreported) fun _ trace' h => ?_
      refine ⟨hdecodes, _, h, fun m hm => ?_⟩
      rw [List.length_take_of_le (Nat.le_of_not_lt hfew), Nat.zero_add]
      exact (Option.some.inj (htold.symm.trans hm)).symm
  · rw [terminateForSerdesFailure, suspend_bind]
    exact ⟨trivial, fun _ _ => ⟨trivial, fun a => a.elim⟩⟩
  · rw [terminateForSerdesFailure, suspend_bind]
    exact ⟨trivial, fun _ _ => ⟨trivial, fun a => a.elim⟩⟩

theorem counts_evaluateReplay (h : Looped True ctx n 0 trace) :
    Counts loaded ctx name itemNames
      (fun trace' r => Decided loaded spec ctx name cfg itemNames n trace' r)
      (Batch.evaluateReplay spec ctx name cfg itemNames (callId ctx name n)) trace := by
  simp only [Batch.evaluateReplay, getStepData_bind, setMode_bind]
  refine ⟨⟨n, h.own, Or.inl rfl⟩, fun operation hop => ?_⟩
  obtain rfl : operation = loaded (callId ctx name n) := hop.1
  have h : Looped True ctx n 0 (⟨.getStepData (callId ctx name n), loaded (callId ctx name n)⟩ :: trace) :=
    h.cons _ rfl (fun _ => rfl) (fun _ _ _ heq => by cases heq) fun heq => by cases heq
  cases hop : loaded (callId ctx name n) with
  | none =>
    rw [hop] at h
    exact h.because fun _ => by simp [told, hop]
  | some op =>
    rw [hop] at h
    dsimp only
    split
    · rename_i hstatus
      refine ⟨?_, 0, h.toUnreported, fun m hm => ?_⟩
      · intro op' _ hop' hsucceeded
        obtain rfl : op = op' := Option.some.inj (hop.symm.trans hop')
        rw [hstatus] at hsucceeded
        cases hsucceeded
      · simp [told, hop, hstatus] at hm
    · rename_i hstatus
      cases hpayload : op.contextDetails.bind (·.result) with
      | none => exact h.because fun _ => by simp [told, hop, hpayload]
      | some payload =>
        dsimp only
        split
        · rename_i hsummary
          have hdecided := counts_summary itemNames h hop hstatus hpayload hsummary
          cases htotal : Batch.summaryTotal (cfg.parseJson payload) with
          | none =>
            rw [htotal] at hdecided
            exact hdecided
          | some totalCount =>
            rw [htotal] at hdecided
            dsimp only at hdecided ⊢
            split <;> rename_i hmany
            · rwa [if_pos hmany] at hdecided
            · rwa [if_neg hmany] at hdecided
        · rename_i hfull
          exact counts_full h hop hstatus hpayload (by simpa using hfull)
    · rename_i hfailed hsucceeded
      refine ⟨trivial, fun _ _ => ?_⟩
      have h : Looped True ctx n 0 (⟨.setMode .execution, ()⟩ :: _) :=
        h.cons _ rfl (fun _ => rfl) (fun _ _ _ heq => by cases heq) fun heq => by cases heq
      have hne : op.status ≠ .succeeded := hsucceeded
      exact h.because fun _ => by simp [told, hop, hne]

/-! ## Summaries -/

variable {itemName : String} {index : Nat}

/-- A part that draws nothing, names this child only and reports no success. -/
theorem counts_reconstructChild {batch : ExecutionContext} {op : Operation} {stepId : String}
    (hchild : IsChild ctx itemNames n index itemName stepId (ctx.hashId stepId))
    (hop : loaded (ctx.hashId stepId) = some op) (h : Unreported ctx n k trace) (p : Batch.Progress V) :
    Counts loaded ctx name itemNames
      (fun trace' r => Unreported ctx n k trace' ∧
        ((∃ q, r = .ok q) ↔ lost loaded ctx cfg.itemCodec stepId itemName = false))
      (Batch.reconstructChild spec ctx cfg batch op stepId (ctx.hashId stepId) itemName index p)
      trace := by
  have hnamed : ∀ {trace' : List (Event V)}, Unreported ctx n k trace' → ∃ m, drawn trace' = some m ∧
      (ctx.hashId stepId = callId ctx name m ∨ ∃ index itemName childStepId,
        IsChild ctx itemNames m index itemName childStepId (ctx.hashId stepId)) :=
    fun h => ⟨n, h.own, Or.inr ⟨_, _, _, hchild⟩⟩
  unfold Batch.reconstructChild
  split
  · rename_i hstatus
    split
    · rename_i hreplay
      have hkept : lost loaded ctx cfg.itemCodec stepId itemName = false := by
        simp [lost, hop, hreplay]
      simp only [ExecutionContext.runInChildContextWithIds, getStepData_bind, Prog.act_bind]
      refine ⟨hnamed h, fun operation hanswer => ?_⟩
      obtain rfl : operation = some op := hanswer.1.trans hop
      have h := h.cons ⟨.getStepData (ctx.hashId stepId), some op⟩ rfl fun _ _ _ heq => by cases heq
      simp only [Child.evaluateReplay, hstatus, hreplay, if_true, Prog.ret_ok_andThen,
        withParentId_bind, Prog.act_bind]
      refine ⟨trivial, fun counter _ => ?_⟩
      have h := h.cons ⟨.newCounter, counter⟩ rfl fun _ _ _ heq => by cases heq
      refine ⟨hnamed h, fun outcome _ => ?_⟩
      have h := h.cons ⟨.contextFn (ctx.hashId stepId) counter, outcome⟩ rfl fun _ _ _ heq => by
        cases heq
      exact ⟨h, fun _ => hkept, fun _ => ⟨_, rfl⟩⟩
    · rename_i hreplay
      have hlost : lost loaded ctx cfg.itemCodec stepId itemName =
          match cfg.itemCodec.deserialize (op.contextDetails.bind (·.result))
            (ctx.site (ctx.hashId stepId) (some itemName)).context with
          | .ok none => true
          | _ => false := by
        simp [lost, hop, hstatus, hreplay]
      simp only [safeDeserialize]
      cases hdecode : cfg.itemCodec.deserialize (op.contextDetails.bind (·.result))
          (ctx.site (ctx.hashId stepId) (some itemName)).context with
      | error e =>
        simp only [terminateForSerdesFailure, suspend_bind]
        exact ⟨trivial, fun _ _ => ⟨trivial, fun a => a.elim⟩⟩
      | ok value =>
        rw [hdecode] at hlost
        cases value with
        | none => exact ⟨h, by simp [hlost]⟩
        | some v => exact ⟨h, by simp [hlost]⟩
  · rename_i hstatus
    exact ⟨h, by simp [lost, hop, hstatus]⟩
  · rename_i hsucceeded hfailed
    have hne : op.status ≠ .succeeded := hsucceeded
    exact ⟨h, by simp [lost, hop, hne]⟩

theorem reached_cons (itemName : String) (index : Nat) (rest : List (String × Nat)) :
    reached loaded ctx cfg.itemCodec n ((itemName, index) :: rest) =
      if lost loaded ctx cfg.itemCodec (ctx.operationId (some itemName) (n + 1 + index)) itemName then 1
      else reached loaded ctx cfg.itemCodec n rest + 1 := rfl

theorem counts_reconstructChildren {batch : ExecutionContext} {names : List String}
    (hnames : names <+: itemNames) (h : Unreported ctx n k trace) (p : Batch.Progress V) :
    Counts loaded ctx name itemNames
      (fun trace' _ => Unreported ctx n (k + reached loaded ctx cfg.itemCodec n (names.zipIdx.drop k))
        trace')
      (Batch.reconstructChildren spec ctx cfg batch (names.zipIdx.drop k) p) trace := by
  generalize hchildren : names.zipIdx.drop k = children
  induction children generalizing k p trace with
  | nil => exact h
  | cons child rest ih =>
    obtain ⟨itemName, index⟩ := child
    obtain ⟨rfl, hitem, rfl⟩ := drop_zipIdx hchildren
    simp only [Batch.reconstructChildren, nextOperationId_bind, getStepData_bind]
    refine ⟨trivial, fun m hm => ?_⟩
    have hnext : m = n + index + 1 := hm.2 rfl _ h.last
    have h := h.draw hm.2
    obtain rfl : m = n + 1 + index := hnext.trans (Nat.add_right_comm ..)
    have hchild : IsChild ctx itemNames n index itemName
        (ctx.operationId (some itemName) (n + 1 + index))
        (ctx.hashId (ctx.operationId (some itemName) (n + 1 + index))) := by
      obtain ⟨hlt, hget⟩ := List.getElem?_eq_some_iff.mp hitem
      exact ⟨hget ▸ List.prefix_iff_getElem?.mp hnames index hlt, rfl, rfl⟩
    refine ⟨⟨n, h.own, Or.inr ⟨_, _, _, hchild⟩⟩, fun operation hanswer => ?_⟩
    have hop : operation = loaded (ctx.hashId (ctx.operationId (some itemName) (n + 1 + index))) :=
      hanswer.1
    have h := h.cons ⟨.getStepData _, operation⟩ rfl fun _ _ _ heq => by cases heq
    rw [reached_cons]
    cases operation with
    | none =>
      have hlost : lost loaded ctx cfg.itemCodec
          (ctx.operationId (some itemName) (n + 1 + index)) itemName = true := by
        simp [lost, ← hop]
      rw [if_pos hlost]
      exact h
    | some op =>
      refine Prog.Meets.andThen (counts_reconstructChild hchild hop.symm h p) (fun q trace' hdone => ?_)
        fun e trace' hdone => ?_
      · rw [if_neg (by simp [hdone.2.mp ⟨q, rfl⟩]), Nat.add_comm _ 1, ← Nat.add_assoc]
        exact ih hdone.1 q rfl
      · rw [if_pos]
        · exact hdone.1
        · by_contra hkept
          obtain ⟨q, hq⟩ := hdone.2.mpr (by simpa using hkept)
          cases hq

/-! ## The whole call -/

theorem take_zipIdx (names : List String) (count : Nat) :
    names.zipIdx.take count = (names.take count).zipIdx.drop 0 := by
  apply List.ext_getElem?
  intro i
  rw [List.drop_zero, List.getElem?_take, List.getElem?_zipIdx, List.getElem?_zipIdx,
    List.getElem?_take]
  split <;> rfl

theorem counts_reconstruct {totalCount : Nat} (h : Unreported ctx n 0 trace)
    (hdecodes : Decodes loaded spec ctx name cfg n) (htotal : totalCount ≤ itemNames.length)
    (htold : told loaded spec ctx name cfg itemNames n =
      some (reached loaded ctx cfg.itemCodec n (itemNames.zipIdx.take totalCount))) :
    Counts loaded ctx name itemNames
      (fun trace' r => Ran loaded spec ctx name cfg itemNames n trace' r)
      (Batch.reconstructFromChildren spec ctx cfg itemNames (callId ctx name n) totalCount) trace := by
  have htake := take_zipIdx itemNames totalCount
  simp only [Batch.reconstructFromChildren, if_neg (Nat.not_lt.mpr htotal), withParentId_bind]
  refine ⟨trivial, fun counter _ => ?_⟩
  have h := h.cons ⟨.newCounter, counter⟩ rfl fun _ _ _ heq => by cases heq
  rw [htake] at htold ⊢
  have hran : ∀ {trace' : List (Event V)} {r : DurableResult (BatchResult V)}, Unreported ctx n
      (0 + reached loaded ctx cfg.itemCodec n ((itemNames.take totalCount).zipIdx.drop 0)) trace' →
      Ran loaded spec ctx name cfg itemNames n trace' r := by
    intro trace' r h
    refine h.ran (fun m hm => ?_) hdecodes
    rw [htold, ← Nat.zero_add (reached ..)] at hm
    exact (Option.some.inj hm).symm
  exact Prog.Meets.andThen (counts_reconstructChildren (List.take_prefix _ _) h {})
    (fun _ _ h => hran h) fun _ _ h => hran h

theorem counts_run {execute : String → String → Act V (DurableResult (BatchResult V))}
    (hexecute : ∀ n trace, Looped (told loaded spec ctx name cfg itemNames n = none) ctx n 0 trace →
      Counts loaded ctx name itemNames
        (fun trace' r => Concludes (told loaded spec ctx name cfg itemNames n = none) spec ctx name cfg
          itemNames.length n trace' r)
        (execute (ctx.operationId name n) (callId ctx name n)) trace) :
    Counts loaded ctx name itemNames
      (fun trace' r => ∀ n, drawn trace' = some n →
        Ran loaded spec ctx name cfg itemNames n trace' r)
      (Batch.run spec ctx name cfg itemNames execute) [] := by
  unfold Batch.run
  split
  · intro n hn
    cases hn
  · simp only [getMode_bind, nextOperationId_bind, getStepData_bind]
    refine ⟨trivial, fun mode _ => ⟨trivial, fun n _ => ?_⟩⟩
    refine ⟨⟨n, rfl, Or.inl rfl⟩, fun operation hop => ?_⟩
    have h : Looped (mode = .replay) ctx n 0 [⟨.getStepData (callId ctx name n), operation⟩,
        ⟨.fetchAdd ctx.operationCounter, n⟩, ⟨.getMode, mode⟩] := by
      refine ⟨⟨⟨rfl, by simp [lastDraw, Event.drawnFrom]⟩, ?_⟩, .refl _, fun hmem => ?_⟩
      · intro stepId u a hmem
        simp at hmem
      · obtain _ | ⟨_, _ | ⟨_, _ | ⟨_, hmem⟩⟩⟩ := hmem
        · rfl
        · cases hmem
    refine Prog.Meets.andThen
      (m := fun trace' r => Looped (mode = .replay) ctx n 0 trace' ∧ r = .ok ()) ?_
      (fun _ trace' h => ?_) fun e trace' h => by cases h.2
    · cases operation with
      | some op => exact ⟨h, rfl⟩
      | none =>
        rw [checkpoint_of_build (Batch.startUpdate_buildable ..)]
        refine ⟨trivial, fun r hr => ⟨?_, hr.1⟩⟩
        refine h.cons _ rfl (fun _ => rfl) ?_ fun heq => by cases heq
        rintro _ _ _ ⟨⟩ haction
        cases haction
    · have hexecute : ∀ trace'', Looped (told loaded spec ctx name cfg itemNames n = none) ctx n 0 trace'' →
          Counts loaded ctx name itemNames
            (fun trace' r => ∀ n, drawn trace' = some n → Ran loaded spec ctx name cfg itemNames n trace' r)
            (execute (ctx.operationId name n) (callId ctx name n)) trace'' :=
        fun trace'' h => Prog.Meets.mono (fun _ _ hdone => hdone.ran.whole) (hexecute n trace'' h)
      cases mode with
      | execution => exact hexecute trace' (h.1.because fun heq => by cases heq)
      | replay =>
        refine Prog.Meets.andThen (counts_evaluateReplay (h.1.because fun _ => trivial))
          (fun decision trace'' hdecided => ?_) fun e trace'' hdecided => ?_
        · cases decision with
          | «return» result =>
            obtain ⟨hdecodes, k, h, hk⟩ := hdecided
            exact (h.ran hk hdecodes).whole
          | «continue» => exact hexecute trace'' hdecided
          | reconstruct totalCount =>
            obtain ⟨h, htotal, htold, hdecodes⟩ := hdecided
            exact Prog.Meets.mono (fun _ _ hran => hran.whole) (counts_reconstruct h hdecodes htotal htold)
        · obtain ⟨hdecodes, k, h, hk⟩ := hdecided
          exact (h.ran hk hdecodes).whole

end

end LambdaDurable
