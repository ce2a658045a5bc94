import LambdaDurable.Context.Reconstructed

/-!
# A summary in two invocations

The children of a batch are joined or aborted, and their records come to an end or not; a later
invocation puts the batch together from these records.
-/

namespace LambdaDurable

open Effects Call

variable {V I : Type}

namespace Batch

section

variable {loaded loaded' : Table} {ctx : ExecutionContext} {codec : Codec V} {stepId : String}
  {index : Nat} {trace trace' : List (Event V)} {item item' : BatchItem V}

/-- A record stands for one item, if a closure that runs again answers the same. -/
theorem Restored.unique (hclosures : ∀ c r c' r', ⟨.contextFn (ctx.hashId stepId) c, r⟩ ∈ trace →
      ⟨.contextFn (ctx.hashId stepId) c', r'⟩ ∈ trace' → r' = r)
    (h : Restored loaded ctx codec trace stepId index item)
    (h' : Restored loaded ctx codec trace' stepId index item') : item' = item := by
  have hfound : ∀ {op op' : Operation}, loaded (ctx.hashId stepId) = some op →
      loaded (ctx.hashId stepId) = some op' → op = op' :=
    fun hop hop' => Option.some.inj (hop.symm.trans hop')
  cases h with
  | value hop hstatus hplain hvalue =>
    cases h' with
    | value hop' _ _ hvalue' =>
      obtain rfl := hfound hop hop'
      cases hvalue.symm.trans hvalue'
      rfl
    | rerun hop' _ hreplay =>
      obtain rfl := hfound hop hop'
      cases hplain.symm.trans hreplay
    | failed hop' hfailed =>
      obtain rfl := hfound hop hop'
      cases hstatus.symm.trans hfailed
    | started hop' hsucceeded =>
      obtain rfl := hfound hop hop'
      exact absurd hstatus hsucceeded
  | rerun hop hstatus hreplay hmem =>
    cases h' with
    | value hop' _ hplain =>
      obtain rfl := hfound hop hop'
      cases hplain.symm.trans hreplay
    | rerun hop' _ _ hmem' => rw [hclosures _ _ _ _ hmem hmem']
    | failed hop' hfailed =>
      obtain rfl := hfound hop hop'
      cases hstatus.symm.trans hfailed
    | started hop' hsucceeded =>
      obtain rfl := hfound hop hop'
      exact absurd hstatus hsucceeded
  | failed hop hstatus =>
    cases h' with
    | value hop' hsucceeded | rerun hop' hsucceeded =>
      obtain rfl := hfound hop hop'
      cases hstatus.symm.trans hsucceeded
    | failed hop' =>
      obtain rfl := hfound hop hop'
      rfl
    | started hop' _ hfailed =>
      obtain rfl := hfound hop hop'
      exact absurd hstatus hfailed
  | started hop hsucceeded hfailed =>
    cases h' with
    | value hop' hstatus | rerun hop' hstatus =>
      obtain rfl := hfound hop hop'
      exact absurd hstatus hsucceeded
    | failed hop' hstatus =>
      obtain rfl := hfound hop hop'
      exact absurd hstatus hfailed
    | started => rfl

end

end Batch

section

variable {α β : Type} {R R' : α → β → Prop} {xs : List α} {ys ys' : List β}

end

theorem IsChild.unique {ctx : ExecutionContext} {itemNames : List String} {n index : Nat}
    {itemName itemName' stepId stepId' hashedId hashedId' : String}
    (h : IsChild ctx itemNames n index itemName stepId hashedId)
    (h' : IsChild ctx itemNames n index itemName' stepId' hashedId') :
    itemName' = itemName ∧ stepId' = stepId ∧ hashedId' = hashedId := by
  obtain rfl : itemName' = itemName := Option.some.inj (h'.item.symm.trans h.item)
  obtain rfl : stepId' = stepId := h'.step.trans h.step.symm
  exact ⟨rfl, rfl, h'.hashed.trans h.hashed.symm⟩

namespace Tasks

variable {token : String} {loaded : Table} {root : ExecutionContext} {name : Option String}
  {call : DurableCall V I} {s s' : State V I} {l : Label V I} {i j n : Nat} {task child : Task V I}
  {spec : BatchSpec} {cfg : BatchConfig V} {itemNames : List String}
  {allow : State V I → Label V I → Prop} {index : Nat} {itemName stepId hashedId : String}

/-! ## The tasks of the children -/

/-- The child runs what the task `j` has spawned. -/
def Spawned (s : State V I) (j : Nat) (child : Task V I) (index : Nat) : Prop :=
  ∃ task spec cfg batchId stepId hashedId itemName, s.tasks[j]? = some task ∧
    task.batch = some (spec, cfg, batchId) ∧
    ⟨.spawn index stepId hashedId itemName, ()⟩ ∈ task.trace ∧
    child.start = returning .value (Batch.runChild spec task.ctx cfg batchId stepId hashedId itemName)

/-- A task stays what it is, and what it has seen stays seen. -/
theorem Move.keeps (hm : Move loaded s l s') (hj : s.tasks[j]? = some task) :
    ∃ task', s'.tasks[j]? = some task' ∧ task.Same task' ∧ task.trace <:+ task'.trace := by
  obtain ⟨task', hj', hadvances⟩ := hm.advances hj
  obtain ⟨task'', hj'', hsame⟩ := hm.grows.kept j task hj
  obtain rfl : task'' = task' := Option.some.inj (hj''.symm.trans hj')
  refine ⟨task'', hj'', hsame, ?_⟩
  cases hadvances with
  | idle _ htrace => rw [htrace]
  | answered _ _ htrace =>
    rw [htrace]
    exact List.suffix_cons ..

/-- The updates of a child of the batch `j` are sent by that child. -/
def ChildrenAlone (ctx : ExecutionContext) (itemNames : List String) (n j : Nat) (s : State V I)
    (l : Label V I) : Prop :=
  ∀ t m other e, l = .request t m → s.tasks[t]? = some other → nextEffect other.program = some e →
    ∀ u ∈ e.updates, ∀ index itemName stepId, IsChild ctx itemNames n index itemName stepId u.id →
      other.origin = .child j index

/-- The batch has returned `result`, and a summary of it is in the update `u`. -/
structure Summarized (token : String) (loaded : Table) (root : ExecutionContext) (name : Option String)
    (call : DurableCall V I) (cfg : BatchConfig V) (itemNames : List String) (s : State V I) (j : Nat)
    (task : Task V I) (n : Nat) (u : OperationUpdate) (result : BatchResult V) : Prop
    extends Runs token loaded root name call s j task where
  children : (machine token loaded root).ReachableBy (ChildrenAlone task.ctx itemNames n j) s
  records : ∀ index itemName stepId hashedId, IsChild task.ctx itemNames n index itemName stepId hashedId →
    Backend.OfType .context (loaded hashedId) ∧
      Legible cfg.itemCodec (task.ctx.site hashedId none).context (loaded hashedId)
  entry : drawn task.trace = some n
  returned : task.program = .ret (.ok (.batch result))
  reported : ∃ stepId a, ⟨.checkpoint stepId u, a⟩ ∈ task.trace
  succeeded : u.action = .succeed
  summary : u.contextOptions ≠ none

section

variable {u : OperationUpdate} {result : BatchResult V}

theorem Summarized.executed
    (h : Summarized token loaded root name call cfg itemNames s j task n u result)
    (hcall : call.batch name = some (spec, cfg, itemNames)) :
    ∃ k, Executed spec task.ctx name cfg itemNames.length n k task.trace u (.ok result) := by
  have hmeets := h.toRuns.meets hcall
  rw [h.returned] at hmeets
  obtain ⟨r, hran, hr⟩ := hmeets
  obtain ⟨sender, a, hreported⟩ := h.reported
  obtain ⟨k, hexecuted⟩ := (hran n h.entry).executed sender u a hreported h.succeeded
  cases r with
  | error e => cases hr
  | ok batch =>
    obtain rfl : result = batch := by simpa [Except.map] using hr
    exact ⟨k, hexecuted⟩

variable {token₁ token₂ : String} {loaded₁ loaded₂ : Table} {root₁ root₂ : ExecutionContext}
  {s₁ s₂ : State V I} {j₁ j₂ : Nat} {task₁ task₂ : Task V I}

end

/-! ### One success is enough -/

end Tasks

end LambdaDurable
