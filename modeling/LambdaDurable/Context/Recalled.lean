import LambdaDurable.Context.Synchronised

/-!
# A batch that is recorded as succeeded

If the flag is read as replay and the records can be read, the call sends nothing and gives back
what is recorded.
-/

namespace LambdaDurable

open Effects Call Tasks

variable {V I : Type}

namespace Batch

/-- The record of a batch can be replayed: it has a summary, or a full payload that can be read, of
no more children than there are. -/
def Replayable (spec : BatchSpec) (ctx : ExecutionContext) (cfg : BatchConfig V) (totalItems : Nat)
    (hashedId : String) (op : Operation) : Prop :=
  ∃ payload, op.contextDetails.bind (·.result) = some payload ∧
    if isSummary spec (cfg.parseJson payload) then
      ∃ total ≤ totalItems, summaryTotal (cfg.parseJson payload) = some total
    else
      ∃ batch, cfg.batchSerdes.deserialize (some payload) (ctx.site hashedId none).context =
        .ok (some batch) ∧ targetTotalCount batch ≤ totalItems

/-- There is a record, and a value in it can be read. -/
def Present (loaded : Table) (ctx : ExecutionContext) (codec : Codec V) (hashedId : String) : Prop :=
  ∃ op, loaded hashedId = some op ∧ (op.status = .succeeded → op.replayChildren = false →
    ∃ v, codec.deserialize (op.contextDetails.bind (·.result)) (ctx.site hashedId none).context =
      .ok (some v))

/-- The flag is read as replay, and the records of the children, looked up once their parent
has a counter, are there. -/
def Recalls (loaded : Table) (ctx : ExecutionContext) (codec : Codec V) (trace : List (Event V)) :
    (e : Effect V) → Answer e → Prop
  | .getMode, mode => mode = .replay
  | .getStepData hashedId, _ =>
    (∃ counter : Nat, ⟨.newCounter, counter⟩ ∈ trace) → Present loaded ctx codec hashedId
  | _, _ => True

/-- No update is sent, no child is started or waited for, a closure runs only where the record asks
for it, and the call goes on: it neither suspends nor panics. -/
def Reuses (loaded : Table) : Effect V → Prop
  | .checkpoint _ _ | .checkpointQueued _ _ | .forceCheckpoint | .spawn _ _ _ _ => False
  | .contextFn hashedId _ =>
    ∃ op, loaded hashedId = some op ∧ op.status = .succeeded ∧ op.replayChildren = true
  | .stepFn _ _ | .submitter _ _ | .checkFn _ _ => False
  | .joinNext | .abortAll | .terminate _ | .pending | .panic _ => False
  | _ => True

/-- What the record of a child stands for; a closure that ran again may have said it. -/
inductive Restored (loaded : Table) (ctx : ExecutionContext) (codec : Codec V)
    (trace : List (Event V)) (stepId : String) (index : Nat) : BatchItem V → Prop
  | value {op : Operation} {v : V} : loaded (ctx.hashId stepId) = some op → op.status = .succeeded →
      op.replayChildren = false →
      codec.deserialize (op.contextDetails.bind (·.result))
        (ctx.site (ctx.hashId stepId) none).context = .ok (some v) →
      Restored loaded ctx codec trace stepId index (outcomeItem index (.ok v))
  | rerun {op : Operation} {counter : Nat} {r : DurableResult V} :
      loaded (ctx.hashId stepId) = some op → op.status = .succeeded → op.replayChildren = true →
      ⟨.contextFn (ctx.hashId stepId) counter, r⟩ ∈ trace →
      Restored loaded ctx codec trace stepId index (outcomeItem index r)
  | failed {op : Operation} : loaded (ctx.hashId stepId) = some op → op.status = .failed →
      Restored loaded ctx codec trace stepId index (outcomeItem index
        (.error (.childContextFailed stepId (op.contextErrorMessage "Child context failed"))))
  | started {op : Operation} : loaded (ctx.hashId stepId) = some op → op.status ≠ .succeeded →
      op.status ≠ .failed → Restored loaded ctx codec trace stepId index (startedItem index)

/-- The item of a child whose ID has a number that the call has drawn. -/
def RestoredChild (loaded : Table) (ctx : ExecutionContext) (codec : Codec V)
    (trace : List (Event V)) (child : String × Nat) (item : BatchItem V) : Prop :=
  ∃ m : Nat, ⟨.fetchAdd ctx.operationCounter, m⟩ ∈ trace ∧
    Restored loaded ctx codec trace (ctx.operationId (some child.1) m) child.2 item

section

variable {loaded : Table} {spec : BatchSpec} {ctx : ExecutionContext} {name : Option String}
  {cfg : BatchConfig V} {itemNames : List String} {trace trace' : List (Event V)}
  {n : Nat} {S T : Type}

/-- The program reuses what is recorded. -/
abbrev Reusing (loaded : Table) (ctx : ExecutionContext) (codec : Codec V) (n : Nat)
    (post : List (Event V) → T → Prop) (p : Act V T) (trace : List (Event V)) : Prop :=
  p.Meets (traced (fun trace e a => Drawing loaded n trace e a ∧ Recalls loaded ctx codec trace e a)
    fun _ => Reuses loaded) post trace

theorem RestoredChild.later {codec : Codec V} {child : String × Nat} {item : BatchItem V}
    (h : RestoredChild loaded ctx codec trace child item) (hsub : trace ⊆ trace') :
    RestoredChild loaded ctx codec trace' child item := by
  obtain ⟨m, hm, h⟩ := h
  refine ⟨m, hsub hm, ?_⟩
  cases h with
  | value hop hstatus hplain hvalue => exact .value hop hstatus hplain hvalue
  | rerun hop hstatus hreplay hmem => exact .rerun hop hstatus hreplay (hsub hmem)
  | failed hop hstatus => exact .failed hop hstatus
  | started hop hsucceeded hfailed => exact .started hop hsucceeded hfailed

theorem Restored.index_eq {codec : Codec V} {stepId : String} {index : Nat} {item : BatchItem V}
    (h : Restored loaded ctx codec trace stepId index item) : item.index = index := by
  cases h with
  | rerun hop hstatus hreplay hmem =>
    rename_i r
    cases r <;> rfl
  | _ => rfl

theorem reusing_andThen {codec : Codec V} {m : List (Event V) → S → Prop}
    {post : List (Event V) → DurableResult T → Prop} {p : Act V (DurableResult S)}
    {f : S → Act V (DurableResult T)}
    (h : Reusing loaded ctx codec n (fun trace r => ∃ a, r = .ok a ∧ m trace a) p trace)
    (hf : ∀ a trace, m trace a → Reusing loaded ctx codec n post (f a) trace) :
    Reusing loaded ctx codec n post (p.andThen f) trace := by
  refine Prog.Meets.bind h fun r trace hr => ?_
  obtain ⟨a, rfl, ha⟩ := hr
  exact hf a trace ha

/-- The items of the progress are, in some order, those of the children. -/
def Gathered (R : String × Nat → BatchItem V → Prop) (children : List (String × Nat))
    (p : Progress V) : Prop :=
  ∃ items, List.Forall₂ R children items ∧ items.Perm p.entries

/-- The children so far have given the items of the progress. -/
def Rebuilt (loaded : Table) (ctx : ExecutionContext) (codec : Codec V) (trace : List (Event V))
    (children : List (String × Nat)) (p : Progress V) : Prop :=
  ∃ items, List.Forall₂ (RestoredChild loaded ctx codec trace) children items ∧
    items.Perm p.entries

section

variable {R R' : String × Nat → BatchItem V → Prop} {children : List (String × Nat)}
  {child : String × Nat} {p : Progress V}

theorem Gathered.mono (h : Gathered R children p) (hsub : ∀ child item, R child item → R' child item) :
    Gathered R' children p := by
  obtain ⟨items, hitems, hperm⟩ := h
  exact ⟨items, hitems.imp hsub, hperm⟩

theorem forall₂_indices {items : List (BatchItem V)} (hindex : ∀ child item, R child item →
    item.index = child.2) (h : List.Forall₂ R children items) :
    items.map (·.index) = children.map (·.2) := by
  induction h with
  | nil => rfl
  | cons hitem _ ih => rw [List.map_cons, List.map_cons, ih, hindex _ _ hitem]

theorem entries_append {index : Nat} (r : DurableResult V) (h : index ∉ p.started) :
    (p.join index r).entries.Perm (p.entries ++ [outcomeItem index r]) := by
  cases r with
  | ok v =>
    simp only [Progress.join, Progress.entries, List.erase_of_not_mem h, List.map_append,
      List.map_cons, List.map_nil, List.append_assoc]
    refine List.Perm.append_left _ ?_
    rw [List.singleton_append, ← List.append_assoc]
    exact (List.perm_append_singleton _ _).symm
  | error e =>
    simp only [Progress.join, Progress.entries, List.erase_of_not_mem h, List.map_append,
      List.map_cons, List.map_nil, List.append_assoc]
    refine List.Perm.append_left _ (List.Perm.append_left _ ?_)
    exact (List.perm_append_singleton _ _).symm

/-- One more child, not seen before. -/
theorem Gathered.join {r : DurableResult V} (h : Gathered R children p)
    (hindex : ∀ child item, R child item → item.index = child.2)
    (hchild : R child (outcomeItem child.2 r)) (hnew : child.2 ∉ children.map (·.2)) :
    Gathered R (children ++ [child]) (p.join child.2 r) := by
  obtain ⟨items, hitems, hperm⟩ := h
  refine ⟨items ++ [outcomeItem child.2 r], List.rel_append hitems (.cons hchild .nil), ?_⟩
  have hstarted : child.2 ∉ p.started := by
    intro hmem
    apply hnew
    rw [← forall₂_indices hindex hitems, (hperm.map _).mem_iff, entries_indices]
    exact List.mem_append_right _ hmem
  exact (hperm.append_right _).trans (entries_append r hstarted).symm

theorem Gathered.start (h : Gathered R children p) (hchild : R child (startedItem child.2)) :
    Gathered R (children ++ [child]) { p with started := p.started ++ [child.2] } := by
  obtain ⟨items, hitems, hperm⟩ := h
  refine ⟨items ++ [startedItem child.2], List.rel_append hitems (.cons hchild .nil), ?_⟩
  refine (hperm.append_right _).trans (List.Perm.of_eq ?_)
  simp [Progress.entries]

theorem indices_take (total : Nat) :
    (itemNames.zipIdx.take total).map (·.2) = List.range (itemNames.zipIdx.take total).length := by
  rw [take_zipIdx, List.drop_zero, List.zipIdx_map_snd, List.length_zipIdx, List.range_eq_range']

/-- The reason of a batch is told by the states of its items. -/
theorem result_completionReason (p : Progress V) (config : CompletionConfig) (totalItems : Nat) :
    (p.result config totalItems).completionReason = config.computeBatchCompletionReason
      ((p.result config totalItems).all.countP (·.status = .failed))
      ((p.result config totalItems).all.countP (·.status = .succeeded))
      ((p.result config totalItems).all.countP (·.status ≠ .started)) totalItems := by
  obtain ⟨hsucceeded, hfailed, -, hcompleted⟩ := Tasks.countP_entries p
  rw [Progress.result, (items_perm p).countP_eq, (items_perm p).countP_eq, (items_perm p).countP_eq,
    hsucceeded, hfailed, hcompleted]

/-- The items of the first children make up the batch. -/
theorem Gathered.result {total : Nat} (h : Gathered R (itemNames.zipIdx.take total) p)
    (hindex : ∀ child item, R child item → item.index = child.2) (config : CompletionConfig)
    (totalItems : Nat) :
    List.Forall₂ R (itemNames.zipIdx.take total) (p.result config totalItems).all ∧
      (p.result config totalItems).completionReason = config.computeBatchCompletionReason
        ((p.result config totalItems).all.countP (·.status = .failed))
        ((p.result config totalItems).all.countP (·.status = .succeeded))
        ((p.result config totalItems).all.countP (·.status ≠ .started)) totalItems := by
  obtain ⟨items, hitems, hperm⟩ := h
  have hnumbered : items.map (·.index) = List.range items.length := by
    rw [forall₂_indices hindex hitems, indices_take, hitems.length_eq]
  refine ⟨?_, result_completionReason p config totalItems⟩
  rw [Progress.result, Tasks.items_eq hperm hnumbered]
  exact hitems

end

theorem RestoredChild.index_eq {codec : Codec V} (child : String × Nat) (item : BatchItem V)
    (h : RestoredChild loaded ctx codec trace child item) : item.index = child.2 := by
  obtain ⟨m, -, h⟩ := h
  exact h.index_eq

theorem Rebuilt.later {codec : Codec V} {children : List (String × Nat)} {p : Progress V}
    (h : Rebuilt loaded ctx codec trace children p) (hsub : trace ⊆ trace') :
    Rebuilt loaded ctx codec trace' children p :=
  Gathered.mono h fun _ _ h => h.later hsub

/-- The record of a child is there, so it is not an error. -/
theorem reusing_reconstructChild {parent : ExecutionContext} {op : Operation} {stepId : String}
    {itemName : String} {index m : Nat} {children : List (String × Nat)} {p : Progress V}
    (hop : loaded (ctx.hashId stepId) = some op)
    (hpresent : Present loaded ctx cfg.itemCodec (ctx.hashId stepId))
    (hid : stepId = ctx.operationId (some itemName) m)
    (hm : (⟨.fetchAdd ctx.operationCounter, m⟩ : Event V) ∈ trace)
    (h : Rebuilt loaded ctx cfg.itemCodec trace children p)
    (hnew : index ∉ children.map (·.2)) :
    Reusing loaded ctx cfg.itemCodec n
      (fun trace' r => ∃ q, r = .ok q ∧ trace ⊆ trace' ∧
        Rebuilt loaded ctx cfg.itemCodec trace' (children ++ [(itemName, index)]) q)
      (reconstructChild spec ctx cfg parent op stepId (ctx.hashId stepId) itemName index p)
      trace := by
  have hrestored : ∀ {trace' : List (Event V)} {item : BatchItem V}, trace ⊆ trace' →
      Restored loaded ctx cfg.itemCodec trace' stepId index item →
      RestoredChild loaded ctx cfg.itemCodec trace' (itemName, index) item :=
    fun hsub hitem => ⟨m, hsub hm, hid ▸ hitem⟩
  have hjoined : ∀ {trace' : List (Event V)} {r : DurableResult V}, trace ⊆ trace' →
      Restored loaded ctx cfg.itemCodec trace' stepId index (outcomeItem index r) →
      ∃ q, (.ok (p.join index r) : DurableResult (Progress V)) = .ok q ∧ trace ⊆ trace' ∧
        Rebuilt loaded ctx cfg.itemCodec trace' (children ++ [(itemName, index)]) q :=
    fun hsub hitem => ⟨_, rfl, hsub,
      Gathered.join (h.later hsub) RestoredChild.index_eq (hrestored hsub hitem) hnew⟩
  unfold reconstructChild
  split
  · rename_i hstatus
    split
    · rename_i hreplay
      simp only [ExecutionContext.runInChildContextWithIds, getStepData_bind, Prog.act_bind]
      refine ⟨trivial, fun operation hanswer => ?_⟩
      obtain rfl : operation = some op := hanswer.1.1.trans hop
      simp only [Child.evaluateReplay, hstatus, hreplay, if_true, Prog.ret_ok_andThen,
        withParentId_bind, Prog.act_bind]
      refine ⟨trivial, fun counter _ => ⟨⟨op, hop, hstatus, hreplay⟩, fun r _ => ?_⟩⟩
      refine hjoined (fun _ hmem => ?_) (.rerun hop hstatus hreplay (List.mem_cons_self ..))
      exact List.mem_cons_of_mem _ (List.mem_cons_of_mem _ (List.mem_cons_of_mem _ hmem))
    · rename_i hplain
      obtain ⟨op', hop', hvalue⟩ := hpresent
      obtain rfl : op = op' := Option.some.inj (hop.symm.trans hop')
      obtain ⟨v, hdecode⟩ := hvalue hstatus (by simpa using hplain)
      have hdecode' : cfg.itemCodec.deserialize (op.contextDetails.bind (·.result))
          (ctx.site (ctx.hashId stepId) (some itemName)).context = .ok (some v) := hdecode
      simp only [safeDeserialize, hdecode']
      exact hjoined (List.Subset.refl _) (.value hop hstatus (by simpa using hplain) hdecode)
  · rename_i hstatus
    exact hjoined (List.Subset.refl _) (.failed hop hstatus)
  · rename_i hsucceeded hfailed
    have hitem : Restored loaded ctx cfg.itemCodec trace stepId index (startedItem index) :=
      .started hop hsucceeded hfailed
    exact ⟨_, rfl, List.Subset.refl _, Gathered.start h (hrestored (List.Subset.refl _) hitem)⟩

theorem reusing_reconstructChildren {parent : ExecutionContext} {counter : Nat}
    (children done : List (String × Nat)) (p : Progress V)
    (hcounter : (⟨.newCounter, counter⟩ : Event V) ∈ trace)
    (h : Rebuilt loaded ctx cfg.itemCodec trace done p)
    (hnodup : ((done ++ children).map (·.2)).Nodup) :
    Reusing loaded ctx cfg.itemCodec n
      (fun trace' r => ∃ q, r = .ok q ∧
        Rebuilt loaded ctx cfg.itemCodec trace' (done ++ children) q)
      (reconstructChildren spec ctx cfg parent children p) trace := by
  induction children generalizing done p trace with
  | nil => exact ⟨p, rfl, by rwa [List.append_nil]⟩
  | cons child rest ih =>
    obtain ⟨itemName, index⟩ := child
    simp only [reconstructChildren, nextOperationId_bind, getStepData_bind]
    refine ⟨trivial, fun m _ => ⟨trivial, fun operation hanswer => ?_⟩⟩
    obtain ⟨op, hop, hvalue⟩ := hanswer.2 ⟨counter, List.mem_cons_of_mem _ hcounter⟩
    obtain rfl : operation = some op := hanswer.1.1.trans hop
    have hnew : index ∉ done.map (·.2) := by
      intro hmem
      rw [List.map_append, List.nodup_append] at hnodup
      exact hnodup.2.2 _ hmem _ (List.mem_cons_self ..) rfl
    refine reusing_andThen (reusing_reconstructChild hop ⟨op, hop, hvalue⟩ rfl
      (List.mem_cons_of_mem _ (List.mem_cons_self ..))
      (h.later fun _ hmem => List.mem_cons_of_mem _ (List.mem_cons_of_mem _ hmem)) hnew)
      fun q trace' hdone => ?_
    have hassoc : done ++ (itemName, index) :: rest = (done ++ [(itemName, index)]) ++ rest := by simp
    rw [hassoc] at hnodup ⊢
    exact ih _ q (hdone.1 (List.mem_cons_of_mem _ (List.mem_cons_of_mem _ hcounter))) hdone.2 hnodup

/-- The batch is the one that is recorded, or is put together from the records of its children. -/
def Recalled (loaded : Table) (spec : BatchSpec) (ctx : ExecutionContext) (cfg : BatchConfig V)
    (itemNames : List String) (hashedId : String) (op : Operation) (trace : List (Event V))
    (batch : BatchResult V) : Prop :=
  ∃ payload, op.contextDetails.bind (·.result) = some payload ∧
    if isSummary spec (cfg.parseJson payload) then
      ∃ total, summaryTotal (cfg.parseJson payload) = some total ∧
        List.Forall₂ (RestoredChild loaded ctx cfg.itemCodec trace) (itemNames.zipIdx.take total)
          batch.all ∧
        batch.completionReason = cfg.completionConfig.computeBatchCompletionReason
          (batch.all.countP (·.status = .failed)) (batch.all.countP (·.status = .succeeded))
          (batch.all.countP (·.status ≠ .started)) itemNames.length
    else cfg.batchSerdes.deserialize (some payload) (ctx.site hashedId none).context =
      .ok (some batch)

theorem reusing_reconstructFromChildren {op : Operation} {payload hashedId : String} {total : Nat}
    (hresult : op.contextDetails.bind (·.result) = some payload)
    (hsummary : isSummary spec (cfg.parseJson payload) = true)
    (htotal : summaryTotal (cfg.parseJson payload) = some total) (hle : total ≤ itemNames.length) :
    Reusing loaded ctx cfg.itemCodec n
      (fun trace' r => ∃ batch, r = .ok batch ∧
        Recalled loaded spec ctx cfg itemNames hashedId op trace' batch)
      (reconstructFromChildren spec ctx cfg itemNames hashedId total) trace := by
  unfold reconstructFromChildren
  rw [if_neg (Nat.not_lt.mpr hle), withParentId_bind]
  refine ⟨trivial, fun counter _ => ?_⟩
  refine reusing_andThen (reusing_reconstructChildren _ [] {} (List.mem_cons_self ..)
    ⟨[], .nil, .refl _⟩ ?_) fun q trace' hdone => ?_
  · rw [List.nil_append, indices_take]
    exact List.nodup_range
  · rw [List.nil_append] at hdone
    obtain ⟨hall, hreason⟩ := Gathered.result hdone RestoredChild.index_eq cfg.completionConfig
      itemNames.length
    refine ⟨_, rfl, payload, hresult, ?_⟩
    rw [if_pos hsummary]
    exact ⟨total, htotal, hall, hreason⟩

theorem reusing_consumeIds {codec : Codec V} {post : List (Event V) → Unit → Prop} (names : List String)
    (h : ∀ trace, post trace ()) :
    Reusing loaded ctx codec n post (consumeIds ctx names : Act V Unit) trace := by
  induction names generalizing trace with
  | nil => exact h trace
  | cons itemName rest ih => exact ⟨trivial, fun _ _ => ih⟩

/-- What the replay of such a record decides; it never goes on to execute. -/
def Settles (loaded : Table) (spec : BatchSpec) (ctx : ExecutionContext) (cfg : BatchConfig V)
    (itemNames : List String) (hashedId : String) (op : Operation) (trace : List (Event V)) :
    ReplayDecision V → Prop
  | .return batch => Recalled loaded spec ctx cfg itemNames hashedId op trace batch
  | .reconstruct total => ∃ payload, op.contextDetails.bind (·.result) = some payload ∧
    isSummary spec (cfg.parseJson payload) = true ∧
    summaryTotal (cfg.parseJson payload) = some total ∧ total ≤ itemNames.length
  | .continue => False

theorem reusing_evaluateReplay {op : Operation} {hashedId : String} (hop : loaded hashedId = some op)
    (hstatus : op.status = .succeeded)
    (hreplayable : Replayable spec ctx cfg itemNames.length hashedId op) :
    Reusing loaded ctx cfg.itemCodec n
      (fun trace' r => ∃ decision, r = .ok decision ∧
        Settles loaded spec ctx cfg itemNames hashedId op trace' decision)
      (evaluateReplay spec ctx name cfg itemNames hashedId) trace := by
  obtain ⟨payload, hresult, hpayload⟩ := hreplayable
  unfold evaluateReplay
  rw [getStepData_bind]
  refine ⟨trivial, fun operation hanswer => ?_⟩
  obtain rfl : operation = some op := hanswer.1.1.trans hop
  simp only [hstatus, hresult]
  split
  · rename_i hsummary
    rw [if_pos hsummary] at hpayload
    obtain ⟨total, hle, htotal⟩ := hpayload
    simp only [htotal, if_neg (Nat.not_lt.mpr hle)]
    exact ⟨_, rfl, payload, hresult, hsummary, htotal, hle⟩
  · rename_i hfull
    rw [if_neg hfull] at hpayload
    obtain ⟨batch, hbatch, hle⟩ := hpayload
    have hbatch' : cfg.batchSerdes.deserialize (some payload) (ctx.site hashedId name).context =
        .ok (some batch) := hbatch
    simp only [safeDeserializeRequiredWithSerdes, hbatch']
    rw [Prog.ret_bind, if_neg (Nat.not_lt.mpr hle)]
    refine Prog.Meets.bind (m := fun _ _ => True) (reusing_consumeIds _ fun _ => trivial) fun _ _ _ => ?_
    refine ⟨_, rfl, payload, hresult, ?_⟩
    rw [if_neg hfull]
    exact hbatch

theorem reusing_run {op : Operation}
    {execute : (stepId hashedId : String) → Act V (DurableResult (BatchResult V))}
    (hop : loaded (callId ctx name n) = some op) (hstatus : op.status = .succeeded)
    (hreplayable : Replayable spec ctx cfg itemNames.length (callId ctx name n) op) :
    Reusing loaded ctx cfg.itemCodec n
      (fun trace' r => drawn trace' = some n → ∃ batch, r = .ok batch ∧
        Recalled loaded spec ctx cfg itemNames (callId ctx name n) op trace' batch)
      (run spec ctx name cfg itemNames execute) [] := by
  unfold run
  split
  · intro hn
    cases hn
  · simp only [getMode_bind, nextOperationId_bind, getStepData_bind]
    refine ⟨trivial, fun mode hmode => ⟨trivial, fun m hm => ⟨trivial, fun operation hanswer => ?_⟩⟩⟩
    obtain rfl : mode = .replay := hmode.2
    obtain rfl : m = n := hm.1.2 rfl m rfl
    obtain rfl : operation = some op := hanswer.1.1.trans hop
    simp only [Prog.ret_ok_andThen]
    refine reusing_andThen (reusing_evaluateReplay hop hstatus hreplayable)
      fun decision trace' hdecision => ?_
    cases decision with
    | «return» batch => exact fun _ => ⟨batch, rfl, hdecision⟩
    | reconstruct total =>
      obtain ⟨payload, hresult, hsummary, htotal, hle⟩ := hdecision
      have hrebuilt : Reusing loaded ctx cfg.itemCodec m
          (fun trace' r => ∃ batch, r = .ok batch ∧
            Recalled loaded spec ctx cfg itemNames (callId ctx name m) op trace' batch)
          (reconstructFromChildren spec ctx cfg itemNames (callId ctx name m) total) trace' :=
        reusing_reconstructFromChildren hresult hsummary htotal hle
      exact hrebuilt.mono fun trace' r hdone (_ : drawn trace' = some m) => hdone
    | «continue» => exact hdecision.elim

end

end Batch

section

variable {loaded : Table} {spec : BatchSpec} {ctx : ExecutionContext} {name : Option String}
  {cfg : BatchConfig V} {itemNames : List String} {n : Nat} {call : DurableCall V I}
  {op : Operation}

theorem reusing_call (hcall : call.batch name = some (spec, cfg, itemNames))
    (hop : loaded (callId ctx name n) = some op) (hstatus : op.status = .succeeded)
    (hreplayable : Batch.Replayable spec ctx cfg itemNames.length (callId ctx name n) op) :
    Batch.Reusing loaded ctx cfg.itemCodec n
      (fun trace' r => drawn trace' = some n → ∃ batch, r = .ok (.batch batch) ∧
        Batch.Recalled loaded spec ctx cfg itemNames (callId ctx name n) op trace' batch)
      (call.run ctx name) [] := by
  have hreturning : ∀ {p : Act V (DurableResult (BatchResult V))},
      Batch.Reusing loaded ctx cfg.itemCodec n
        (fun trace' r => drawn trace' = some n → ∃ batch, r = .ok batch ∧
          Batch.Recalled loaded spec ctx cfg itemNames (callId ctx name n) op trace' batch) p [] →
      Batch.Reusing loaded ctx cfg.itemCodec n
        (fun trace' r => drawn trace' = some n → ∃ batch, r = .ok (.batch batch) ∧
          Batch.Recalled loaded spec ctx cfg itemNames (callId ctx name n) op trace' batch)
        (returning Output.batch p) [] := by
    intro p h
    refine Prog.Meets.bind h fun r trace hr => ?_
    cases r with
    | ok batch =>
      intro hn
      obtain ⟨batch', heq, hrecalled⟩ := hr hn
      cases heq
      exact ⟨batch, rfl, hrecalled⟩
    | error e =>
      intro hn
      obtain ⟨_, heq, -⟩ := hr hn
      cases heq
  unfold DurableCall.batch at hcall
  split at hcall
  · obtain ⟨rfl, rfl, rfl⟩ : _ ∧ _ ∧ _ := by simpa using hcall
    rw [DurableCall.run, map_eq_run]
    exact hreturning (Batch.reusing_run hop hstatus hreplayable)
  · obtain ⟨rfl, rfl, rfl⟩ : _ ∧ _ ∧ _ := by simpa using hcall
    exact hreturning (Batch.reusing_run hop hstatus hreplayable)
  · cases hcall

/-- Whatever the other tasks do, the call of a batch that is recorded as succeeded sends no
update, goes on until it returns, and returns what is recorded. -/
theorem batch_recalled {token : String} {s : Call.State V (DurableResult (Output V))}
    (hcall : call.batch name = some (spec, cfg, itemNames))
    (hop : loaded (callId ctx name n) = some op) (hstatus : op.status = .succeeded)
    (hreplayable : Batch.Replayable spec ctx cfg itemNames.length (callId ctx name n) op)
    (h : (Call.machine token loaded (call.run ctx name)).ReachableBy
      (Tasks.Instantly loaded (Batch.Recalls loaded ctx cfg.itemCodec)) s)
    (hn : drawn s.trace = some n) :
    (∀ e, Tasks.nextEffect s.program = some e ∨ (∃ a, ⟨e, a⟩ ∈ s.trace) → Batch.Reuses loaded e) ∧
      ∀ r, s.program = .ret r → ∃ batch, r = .ok (.batch batch) ∧
        Batch.Recalled loaded spec ctx cfg itemNames (callId ctx name n) op s.trace batch := by
  have hrespects : Respects loaded (Instantly loaded (Batch.Recalls loaded ctx cfg.itemCodec))
      (Batch.Recalls loaded ctx cfg.itemCodec) := by
    intro s l s' hl hm e a htrace hanswers
    refine (respects_instantly (fun trace m n e a ha => ?_) s l s' hl hm e a htrace hanswers).2
    cases e with
    | getMode | getStepData _ => cases ha
    | _ => trivial
  have hmeets := reusing_call hcall hop hstatus hreplayable
  have hnow := meets_of_drawn hrespects hmeets h hn
  have hpermitted := permitted_of_drawn hrespects hmeets h hn
  constructor
  · rintro e (hnext | ⟨a, hmem⟩)
    · cases hprogram : s.program with
      | ret r =>
        rw [hprogram] at hnext
        cases hnext
      | act e' k =>
        rw [hprogram] at hnext hnow
        obtain rfl := Option.some.inj hnext
        exact hnow.1
    · obtain ⟨later, earlier, htrace⟩ := List.append_of_mem hmem
      rw [htrace] at hpermitted
      exact permitted_event hpermitted
  · intro r hprogram
    rw [hprogram] at hnow
    exact hnow hn

end

namespace Tasks

/-- The flag is read as replay, and no record is looked up for a child. -/
def recallsPlainly (s : Call.State Nat (DurableResult (Output Nat))) : Call.Label Nat → Bool
  | .perform _ => match nextEffect s.program with
    | some .getMode => s.mode == .replay
    | some (.getStepData _) => s.trace.all fun event => match event.1 with
      | .newCounter => false
      | _ => true
    | _ => true
  | _ => true

theorem recallsPlainly_sound {loaded : Table} {ctx : ExecutionContext} {codec : Codec Nat}
    {s : Call.State Nat (DurableResult (Output Nat))} {l : Call.Label Nat}
    (h : recallsPlainly s l = true) : Instantly loaded (Batch.Recalls loaded ctx codec) s l := by
  rintro choose e k a rfl hprogram ha
  simp only [recallsPlainly, hprogram, nextEffect] at h
  cases e with
  | getMode =>
    obtain rfl := Option.some.inj ha
    have hmode : s.mode = .replay := by simpa using h
    exact hmode
  | getStepData hashedId =>
    rintro ⟨counter, hmem⟩
    have hno := List.all_eq_true.mp h _ hmem
    cases hno
  | _ => trivial

def answersCounter (m : Nat) : Call.Label Nat :=
  .perform fun
    | .fetchAdd _ => some m
    | _ => none

theorem batch_recalled_plain : ∃ s : Call.State Nat (DurableResult (Output Nat)),
    (Call.machine "t1" plainTable (plainOne.run rootContext (some "map"))).Reachable s ∧
      s.program = .ret (.ok (.batch (oneSuccess 7))) ∧
      ∀ e, (∃ a, ⟨e, a⟩ ∈ s.trace) → Batch.Reuses plainTable e := by
  have hend : ((Call.machine "t1" plainTable (plainOne.run rootContext (some "map"))).checkedRun
      recallsPlainly (.new "t1" plainTable .replay (plainOne.run rootContext (some "map")))
      [.perform fun _ => none, answersCounter 0, .perform fun _ => none, .perform fun _ => none,
        answersCounter 1]).any
      (fun s => s.program.returned.isSome && drawn s.trace == some 0) = true := by decide +kernel
  obtain ⟨s, hrun, hend⟩ := Option.any_eq_true _ _ |>.mp hend
  simp only [Bool.and_eq_true, beq_iff_eq] at hend
  obtain ⟨r, hr⟩ := Option.isSome_iff_exists.mp hend.1
  have hprogram : s.program = .ret r := Prog.eq_ret_of_returned hr
  have hreach : (Call.machine "t1" plainTable (plainOne.run rootContext (some "map"))).ReachableBy
      (Instantly plainTable (Batch.Recalls plainTable rootContext .nat)) s :=
    Transition.Machine.checkedRun_reachableBy (fun _ _ _ => recallsPlainly_sound) _ (.init ⟨_, rfl⟩) hrun
  have hcall : plainOne.batch (some "map") = some (Batch.map, Batch.oneConfig "[7]", ["map-item-0"]) :=
    rfl
  have hop : plainTable (callId rootContext (some "map") 0) = some (Backend.finished
      (Backend.created (Batch.oneUpdate "[7]")) .succeeded (Batch.oneUpdate "[7]")) := by
    decide +kernel
  have hfull : ¬ Batch.isSummary Batch.map ((Batch.oneConfig "[7]").parseJson "[7]") = true := by
    decide +kernel
  have hreplayable : Batch.Replayable Batch.map rootContext (Batch.oneConfig "[7]") 1
      (callId rootContext (some "map") 0) (Backend.finished
        (Backend.created (Batch.oneUpdate "[7]")) .succeeded (Batch.oneUpdate "[7]")) := by
    refine ⟨"[7]", rfl, ?_⟩
    rw [if_neg hfull]
    exact ⟨_, rfl, by decide⟩
  obtain ⟨hreuses, hreturns⟩ := batch_recalled hcall hop rfl hreplayable hreach hend.2
  obtain ⟨batch, rfl, payload, hpayload, hbatch⟩ := hreturns r hprogram
  cases hpayload
  rw [if_neg hfull] at hbatch
  cases hbatch
  exact ⟨s, hreach.reachable, hprogram, fun e he => hreuses e (Or.inr he)⟩

def emptySerdes : Serdes (BatchResult Nat) where
  serialize _ _ := .ok (some "[]")
  deserialize _ _ := .ok (some { all := [], completionReason := .allCompleted })

def emptyMap : DurableCall Nat Nat :=
  .map [] { batchResultSerdes := emptySerdes, itemCodec := .nat, parseJson := fun _ => none }

/-- The map is finished, the step is not. -/
def finishedMap : Table :=
  Backend.applyAll (fun _ => none)
    [{ id := "a_0", name := some "a", operationType := .step, action := .start },
      { id := "map_1", name := some "map", operationType := .context, action := .succeed,
        payload := some "[]" }]

def reexecutedRun : List (Label Nat Nat) :=
  [.begin 0 (some "a") (.step { codec := .nat }), quick 0, quick 0, quick 0,
    .begin 0 (some "map") emptyMap, quick 1, quick 1, quick 1] ++ asked 1 0 0

/-- The step turns the flag before the map reads it; the map is executed and reported again. -/
theorem batch_reexecuted : ∃ s : State Nat Nat,
    (machine "t0" finishedMap rootContext).run (.new "t0" finishedMap .replay rootContext)
        reexecutedRun = some s ∧
      (∃ op, finishedMap "map_1" = some op ∧ op.status = .succeeded) ∧
      ∃ c ∈ s.manager.queue, c.update.id = "map_1" ∧ c.update.action = .succeed := by
  have hend : ((machine "t0" finishedMap rootContext).run
      (.new "t0" finishedMap .replay rootContext) reexecutedRun).any
      (fun s => s.manager.queue.any fun c => c.update.id == "map_1" && c.update.action == .succeed) =
        true := by decide +kernel
  obtain ⟨s, hs, hqueue⟩ := Option.any_eq_true _ _ |>.mp hend
  obtain ⟨c, hc, hupdate⟩ := List.any_eq_true.mp hqueue
  simp only [Bool.and_eq_true, beq_iff_eq] at hupdate
  exact ⟨s, hs, ⟨_, rfl, rfl⟩, c, hc, hupdate⟩

end Tasks

end LambdaDurable
