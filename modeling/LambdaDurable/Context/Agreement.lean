import LambdaDurable.Context.Counters
import LambdaDurable.Context.Replayed

/-!
# The counter after a batch

A batch that is executed draws as many numbers as one that is replayed from its record,
unless the record is a summary and a child it counts cannot be read.
-/

namespace LambdaDurable

open Effects Call Tasks

variable {V I : Type}

def MapConfig.itemNames (config : MapConfig I V) (name : Option String) (items : List I) : List String :=
  let label := name.getD "map"
  items.zipIdx.map fun p =>
    (config.itemNamer.map fun namer => namer p.1 p.2).getD s!"{label}-item-{p.2}"

def branchNames (name : Option String) (branches : List (Option String)) : List String :=
  let label := name.getD "parallel"
  branches.zipIdx.map fun p => p.1.getD s!"{label}-branch-{p.2}"

/-- A call that is a batch, with the names of its children. -/
def DurableCall.batch (name : Option String) :
    DurableCall V I → Option (BatchSpec × BatchConfig V × List String)
  | .map items config => some (Batch.map, config.toBatchConfig, config.itemNames name items)
  | .parallel branches config => some (Batch.parallel, config, branchNames name branches)
  | _ => none

theorem map_eq_run (ctx : ExecutionContext) (name : Option String) (items : List I)
    (config : MapConfig I V) : ctx.map name items config =
      Batch.run Batch.map ctx name config.toBatchConfig (config.itemNames name items)
        (Batch.runMapExecution ctx name config.toBatchConfig (config.itemNames name items)) := by
  unfold ExecutionContext.map MapConfig.itemNames
  cases config.itemNamer <;> rfl

section

variable {loaded : Table} {spec : BatchSpec} {ctx : ExecutionContext} {name : Option String}
  {cfg : BatchConfig V} {itemNames : List String} {trace : List (Event V)} {n : Nat} {reason : Prop}
  {stepId : String}

theorem progress_of_looped (h : Looped reason ctx n 0 trace) : Batch.progress trace = {} := by
  have hnil := h.indices.eq_nil
  simp only [Batch.Progress.indices, List.append_eq_nil_iff, List.map_eq_nil_iff] at hnil
  exact congr (congr (congrArg Batch.Progress.mk hnil.1.1) hnil.1.2) hnil.2

theorem counts_mapExecution (h : Looped reason ctx n 0 trace) :
    Counts loaded ctx name itemNames
      (fun trace' r => Concludes reason Batch.map ctx name cfg itemNames.length n trace' r)
      (Batch.runMapExecution ctx name cfg itemNames stepId (callId ctx name n)) trace := by
  have hstart := progress_of_looped h
  unfold Batch.runMapExecution
  split
  · rename_i hempty
    rw [← hstart, hempty]
    exact counts_complete h (Nat.le_refl 0)
  · rw [← hstart]
    refine counts_runLoop (fun k trace' _ _ => ?_) _ h (Nat.zero_le _)
    exact ⟨trivial, fun a => a.elim⟩

theorem counts_parallelExecution (h : Looped reason ctx n 0 trace) :
    Counts loaded ctx name itemNames
      (fun trace' r => Concludes reason Batch.parallel ctx name cfg itemNames.length n trace' r)
      (Batch.runParallelExecution ctx name cfg itemNames stepId (callId ctx name n)) trace := by
  unfold Batch.runParallelExecution
  rw [← progress_of_looped h]
  exact counts_runLoop (fun k trace' h hk => counts_complete h hk) _ h (Nat.zero_le _)

theorem counts_returning {post : List (Event V) → DurableResult (BatchResult V) → Prop}
    {p : Act V (DurableResult (BatchResult V))} (h : Counts loaded ctx name itemNames post p trace) :
    Counts loaded ctx name itemNames (fun trace' r => ∃ r', post trace' r' ∧ r = r'.map Output.batch)
      (returning Output.batch p) trace :=
  Prog.Meets.andThen h (fun a _ ha => ⟨.ok a, ha, rfl⟩) fun e _ he => ⟨.error e, he, rfl⟩

theorem counts_call {call : DurableCall V I} (hcall : call.batch name = some (spec, cfg, itemNames)) :
    Counts loaded ctx name itemNames
      (fun trace r => ∃ r', (∀ n, drawn trace = some n →
        Ran loaded spec ctx name cfg itemNames n trace r') ∧ r = r'.map Output.batch)
      (call.run ctx name) [] := by
  unfold DurableCall.batch at hcall
  split at hcall
  · obtain ⟨rfl, rfl, rfl⟩ : _ ∧ _ ∧ _ := by simpa using hcall
    rw [DurableCall.run, map_eq_run]
    exact counts_returning (counts_run fun n trace h => counts_mapExecution h)
  · obtain ⟨rfl, rfl, rfl⟩ : _ ∧ _ ∧ _ := by simpa using hcall
    exact counts_returning (counts_run fun n trace h => counts_parallelExecution h)
  · cases hcall

theorem Named.later {older : List (Event V)} {e : Effect V} (h : Named ctx name itemNames older e)
    (hsuffix : older <:+ trace) : Named ctx name itemNames trace e := by
  cases e with
  | spawn _ _ _ _ | getStepData _ | contextFn _ _ =>
    obtain ⟨n, hn, h⟩ := h
    exact ⟨n, drawn_later hn hsuffix, h⟩
  | _ => trivial

/-- The counter's own number is in no ID. -/
theorem Named.of_counter {c : Nat} {e : Effect V}
    (h : Named { ctx with operationCounter := c } name itemNames trace e) :
    Named ctx name itemNames trace e := by
  cases e with
  | spawn _ _ _ _ =>
    obtain ⟨n, hn, hchild⟩ := h
    exact ⟨n, hn, hchild.item, hchild.step, hchild.hashed⟩
  | getStepData _ | contextFn _ _ =>
    obtain ⟨n, hn, hown | ⟨index, itemName, stepId, hchild⟩⟩ := h
    · exact ⟨n, hn, Or.inl hown⟩
    · exact ⟨n, hn, Or.inr ⟨index, itemName, stepId, hchild.item, hchild.step, hchild.hashed⟩⟩
  | _ => trivial

theorem reached_counter {c : Nat} (codec : Codec V) (children : List (String × Nat)) :
    reached loaded { ctx with operationCounter := c } codec n children =
      reached loaded ctx codec n children := by
  induction children with
  | nil => rfl
  | cons child rest ih =>
    rw [reached, reached, ih]
    rfl

theorem told_counter {c : Nat} :
    told loaded spec { ctx with operationCounter := c } name cfg itemNames n =
      told loaded spec ctx name cfg itemNames n := by
  unfold told consumed
  simp only [reached_counter]
  rfl

theorem named_of_permitted (h : Permitted (Named ctx name itemNames) trace) :
    ∀ event ∈ trace, Named ctx name itemNames trace event.1 := by
  induction trace with
  | nil => exact fun _ hmem => (List.not_mem_nil hmem).elim
  | cons event trace ih =>
    intro event' hmem
    apply Named.later _ (List.suffix_cons event trace)
    obtain rfl | hmem := List.mem_cons.mp hmem
    · exact h.1
    · exact ih h.2 event' hmem

/-! ## Counts -/

theorem targetTotalCount_eq {batch : BatchResult V} {k : Nat}
    (h : (batch.all.map (·.index)).Perm (List.range k)) : Batch.targetTotalCount batch = k := by
  unfold Batch.targetTotalCount
  cases k with
  | zero => rw [h.eq_nil]; rfl
  | succ k =>
    have hmax : (batch.all.map (·.index)).max? = some k := by
      rw [List.max?_eq_some_iff]
      refine ⟨h.mem_iff.mpr (by simp), fun index hindex => ?_⟩
      have hlt := List.mem_range.mp (h.mem_iff.mp hindex)
      omega
    rw [hmax]
    rfl

theorem items_indices (p : Batch.Progress V) : (p.items.map (·.index)).Perm p.indices := by
  refine ((List.mergeSort_perm _ _).map _).trans (List.Perm.of_eq ?_)
  simp [Batch.Progress.indices, Function.comp_def]

/-- Reconstruction goes through all children unless one but the last is lost. -/
theorem reached_eq_length_iff (codec : Codec V) (children : List (String × Nat)) :
    reached loaded ctx codec n children = children.length ↔ ∀ child ∈ children.dropLast,
      lost loaded ctx codec (ctx.operationId (some child.1) (n + 1 + child.2)) child.1 = false := by
  induction children with
  | nil => simp [reached]
  | cons child rest ih =>
    obtain ⟨itemName, index⟩ := child
    rw [reached]
    cases rest with
    | nil => simp [reached]
    | cons next rest =>
      split
      · rename_i hlost
        constructor
        · intro h
          simp at h
        · intro h
          have hkept := h (itemName, index) (by simp)
          rw [hlost] at hkept
          cases hkept
      · rename_i hkept
        rw [List.length_cons, Nat.add_right_cancel_iff, ih, List.dropLast_cons_cons, List.forall_mem_cons]
        simp [hkept]

namespace Batch

/-- `serde_json` reads the summary of a batch with this many children. -/
def ReadsSummary (parseJson : String → Option JsonValue) (summary : String) (total : Nat) : Prop :=
  ∃ v, parseJson summary = some v ∧ v.isObject = true ∧ v.get "kind" = none ∧
    (v.get "totalCount").bind (·.asU64) = some total

theorem ReadsSummary.isSummary {spec : BatchSpec} {parseJson : String → Option JsonValue}
    {summary : String} {total : Nat} (h : ReadsSummary parseJson summary total) :
    Batch.isSummary spec (parseJson summary) = true ∧
      summaryTotal (parseJson summary) = some total := by
  obtain ⟨v, hv, hobject, hkind, htotal⟩ := h
  have hsome : (v.get "totalCount").isSome = true := by
    cases hget : v.get "totalCount" with
    | none => simp [hget] at htotal
    | some count => rfl
  rw [hv]
  exact ⟨by simp [Batch.isSummary, hobject, hkind, hsome], htotal⟩

end Batch

/-- If the update has a summary, its count is read. -/
def ReadsSummaries (spec : BatchSpec) (parseJson : String → Option JsonValue) (u : OperationUpdate) :
    Prop :=
  u.contextOptions ≠ none → ∀ total success failure started reason, total < 2 ^ 64 →
    u.payload = some (spec.summary total success failure started reason) →
    Batch.ReadsSummary parseJson (spec.summary total success failure started reason) total

/-- The update has the full payload, or the children that its summary counts can be read, but
perhaps the last. -/
def Recoverable (loaded : Table) (ctx : ExecutionContext) (cfg : BatchConfig V) (itemNames : List String)
    (n : Nat) (u : OperationUpdate) : Prop :=
  u.contextOptions = none ∨ ∀ total, Batch.summaryTotal (u.payload.bind cfg.parseJson) = some total →
    ∀ child ∈ (itemNames.zipIdx.take total).dropLast,
      lost loaded ctx cfg.itemCodec (ctx.operationId (some child.1) (n + 1 + child.2)) child.1 = false

variable {k : Nat} {u : OperationUpdate} {op : Operation}

theorem Executed.produced {r : DurableResult (BatchResult V)}
    (h : Executed spec ctx name cfg itemNames.length n k trace u r) (hlen : itemNames.length < 2 ^ 64) :
    (((Batch.progress trace).result cfg.completionConfig itemNames.length).all.map (·.index)).Perm
        (List.range k) ∧
      ((Batch.progress trace).result cfg.completionConfig itemNames.length).Produced := by
  have hindices := (items_indices (Batch.progress trace)).trans h.indices
  refine ⟨hindices, Batch.Progress.result_produced _ _ _ fun item hitem => ?_⟩
  have hlt := List.mem_range.mp (hindices.mem_iff.mp (List.mem_map_of_mem hitem))
  exact Nat.lt_of_lt_of_le hlt (Nat.le_trans h.bound (Nat.le_of_lt hlen))

/-- What a replay from the update draws, compared with what was drawn before the update. -/
theorem Executed.told_iff {r : DurableResult (BatchResult V)}
    (h : Executed spec ctx name cfg itemNames.length n k trace u r) (hlen : itemNames.length < 2 ^ 64)
    (hserdes : cfg.batchSerdes.PreservesIndices) (hparse : ReadsSummaries spec cfg.parseJson u)
    (hfull : u.contextOptions = none → ∀ payload, u.payload = some payload →
      Batch.isSummary spec (cfg.parseJson payload) = false)
    (hop : loaded (callId ctx name n) = some op) (hstatus : op.status = .succeeded)
    (hresult : op.contextDetails.bind (·.result) = u.payload)
    (hdecodes : Decodes loaded spec ctx name cfg n) :
    ∃ m, told loaded spec ctx name cfg itemNames n = some m ∧
      (k = m ↔ Recoverable loaded ctx cfg itemNames n u) := by
  obtain ⟨hindices, hproduced⟩ := h.produced hlen
  obtain ⟨payload, hpayload, hu⟩ := h.update
  have hbound := h.bound
  unfold Batch.succeedUpdate at hu
  dsimp only at hu
  split at hu
  · have hupayload := congrArg OperationUpdate.payload hu
    dsimp only at hupayload
    rw [hupayload] at hresult
    have hoptions : u.contextOptions ≠ none := by
      rw [hu]
      simp
    have hreads := hparse hoptions _ _ _ _ _ (Nat.lt_of_le_of_lt hbound hlen) hupayload
    obtain ⟨hsummary, hcount⟩ := @Batch.ReadsSummary.isSummary spec _ _ _ hreads
    refine ⟨reached loaded ctx cfg.itemCodec n (itemNames.zipIdx.take k), ?_, ?_⟩
    · rw [told_of_payload hop hstatus hresult]
      simp only [consumed, hsummary, if_true, hcount, Option.map_some,
        if_neg (Nat.not_lt.mpr hbound)]
    · have hlength : (itemNames.zipIdx.take k).length = k := by
        simp [hbound]
      have hreached : reached loaded ctx cfg.itemCodec n (itemNames.zipIdx.take k) =
          (itemNames.zipIdx.take k).length ↔ _ :=
        reached_eq_length_iff cfg.itemCodec (itemNames.zipIdx.take k)
      rw [hlength] at hreached
      rw [eq_comm, hreached, Recoverable, hupayload, Option.bind_some, hcount]
      simp [hu]
  · have hupayload : u.payload = some payload := by rw [hu]
    have hplain : u.contextOptions = none := by rw [hu]
    have hkind := hfull hplain payload hupayload
    rw [hupayload] at hresult
    obtain ⟨batch, hbatch⟩ := hdecodes op payload hop hstatus hresult hkind
    have hsame := hserdes _ batch _ payload hproduced hpayload hbatch
    have htarget : Batch.targetTotalCount batch = k := targetTotalCount_eq (hsame ▸ hindices)
    refine ⟨k, ?_, fun _ => Or.inl hplain, fun _ => rfl⟩
    rw [told_of_payload hop hstatus hresult]
    simp only [consumed, hkind, hbatch, htarget, if_neg (Nat.not_lt.mpr hbound)]
    rfl

end

namespace Tasks

variable {token : String} {loaded : Table} {root : ExecutionContext} {name : Option String}
  {call : DurableCall V I} {s : State V I} {task : Task V I}

theorem start_of_origin {allow : State V I → Label V I → Prop}
    (h : (machine token loaded root).ReachableBy allow s) (htask : task ∈ s.tasks)
    (horigin : task.origin = .call name call) : task.start = call.run task.ctx name := by
  refine h.invariant (I := fun s => ∀ task ∈ s.tasks, ∀ name call, task.origin = .call name call →
    task.start = call.run task.ctx name) ?_ ?_ task htask name call horigin
  · rintro _ ⟨-, mode, rfl⟩ task htask
    cases htask
  · intro s l s' _ hs _ hstep task' hmem name call horigin
    obtain ⟨task, htask, hsame⟩ | hnew := (move_of_step hstep).grows.mem hmem
    · rw [hsame.start, hsame.ctx]
      exact hs task htask name call (hsame.origin.symm.trans horigin)
    · obtain ⟨_, name, call, ctx, -, -, rfl⟩ | ⟨_, _, _, -, -, hspawned⟩ := mem_started hnew
      · cases horigin
        rfl
      · obtain ⟨_, _, _, _, _, _, _, _, _, rfl⟩ := mem_spawned hspawned
        cases horigin

end Tasks

end LambdaDurable
