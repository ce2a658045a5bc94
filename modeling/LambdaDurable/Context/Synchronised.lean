import LambdaDurable.Context.Classified
import LambdaDurable.Context.Children
import LambdaDurable.Context.Follows
import LambdaDurable.Context.Payloads
import LambdaDurable.Context.Tree

/-!
# The counter in two invocations

The same call of a batch is executed in one invocation and replayed in a later one; nobody else
draws from its counter.
-/

namespace LambdaDurable

open Effects Call

variable {V I : Type}

namespace Tasks

/-- The task `j` of the run is the call, and nobody else has drawn from its counter. -/
structure Runs (token : String) (loaded : Table) (root : ExecutionContext) (name : Option String)
    (call : DurableCall V I) (s : State V I) (j : Nat) (task : Task V I) : Prop where
  reachable : (machine token loaded root).ReachableBy (Alone j) s
  mem : s.tasks[j]? = some task
  origin : task.origin = .call name call

variable {token : String} {loaded : Table} {root : ExecutionContext} {name : Option String}
  {call : DurableCall V I} {s : State V I} {j : Nat} {task : Task V I} {spec : BatchSpec}
  {cfg : BatchConfig V} {itemNames : List String} {n k : Nat}

namespace Runs

theorem meets (h : Runs token loaded root name call s j task)
    (hcall : call.batch name = some (spec, cfg, itemNames)) :
    Counts loaded task.ctx name itemNames
      (fun trace r => ∃ r', (∀ n, drawn trace = some n →
        Ran loaded spec task.ctx name cfg itemNames n trace r') ∧ r = r'.map Output.batch)
      task.program task.trace := by
  refine meets_of_reachableBy (respects_steadily loaded _) ?_ (view_steadily h.reachable h.mem)
  rw [start_of_origin h.reachable (List.mem_of_getElem? h.mem) h.origin]
  exact counts_call hcall

theorem counter (h : Runs token loaded root name call s j task)
    (hk : LambdaDurable.Counted task.ctx n k task.trace) :
    s.counters task.ctx.operationCounter = n + 1 + k := by
  rw [numbered_of_reachableBy h.reachable task h.mem (n + k), Nat.add_right_comm]
  rw [traceOf_of_mem h.mem]
  exact hk.last

theorem named (h : Runs token loaded root name call s j task)
    (hcall : call.batch name = some (spec, cfg, itemNames)) :
    ∀ event ∈ task.trace, Named task.ctx name itemNames task.trace event.1 := by
  have hpermitted : Permitted (Named task.ctx name itemNames) task.trace := by
    refine permitted_of_reachableBy (respects_steadily loaded _)
      (P := fun trace r => ∃ r', (∀ n, drawn trace = some n →
        Ran loaded spec task.ctx name cfg itemNames n trace r') ∧ r = r'.map Output.batch) ?_
      (view_steadily h.reachable h.mem)
    rw [start_of_origin h.reachable (List.mem_of_getElem? h.mem) h.origin]
    exact counts_call hcall
  exact named_of_permitted hpermitted

end Runs

/-- A batch whose result is in the update `u`, and the same call in a later invocation that
loads the record of `u`: the IDs of the children are the same, and the counters agree exactly
if the record can be read. -/
theorem counters_agree {token₁ token₂ : String} {loaded₁ loaded₂ : Table}
    {root₁ root₂ : ExecutionContext} {s₁ s₂ : State V I} {j₁ j₂ : Nat} {task₁ task₂ : Task V I}
    {r₁ r₂ : DurableResult (Output V)} {stepId : String} {u : OperationUpdate}
    {a : Except DurableError Unit} {op : Operation}
    (hcall : call.batch name = some (spec, cfg, itemNames)) (hlen : itemNames.length < 2 ^ 64)
    (hserdes : cfg.batchSerdes.PreservesIndices) (hparse : ReadsSummaries spec cfg.parseJson u)
    (hfirst : Runs token₁ loaded₁ root₁ name call s₁ j₁ task₁)
    (hfirstReturned : task₁.program = .ret r₁) (hfirstEntry : drawn task₁.trace = some n)
    (hreported : ⟨.checkpoint stepId u, a⟩ ∈ task₁.trace) (haction : u.action = .succeed)
    (hfull : u.contextOptions = none → ∀ payload, u.payload = some payload →
      Batch.isSummary spec (cfg.parseJson payload) = false)
    (hlater : Runs token₂ loaded₂ root₂ name call s₂ j₂ task₂)
    (hctx : task₂.ctx = { task₁.ctx with operationCounter := task₂.ctx.operationCounter })
    (hlaterReturned : task₂.program = .ret r₂) (hlaterEntry : drawn task₂.trace = some n)
    (hmode : ⟨.getMode, .replay⟩ ∈ task₂.trace)
    (hop : loaded₂ (callId task₁.ctx name n) = some op) (hstatus : op.status = .succeeded)
    (hresult : op.contextDetails.bind (·.result) = u.payload) :
    (∀ event ∈ task₁.trace, Named task₁.ctx name itemNames task₁.trace event.1) ∧
      (∀ event ∈ task₂.trace, Named task₁.ctx name itemNames task₂.trace event.1) ∧
      (s₁.counters task₁.ctx.operationCounter = s₂.counters task₂.ctx.operationCounter ↔
        Recoverable loaded₂ task₁.ctx cfg itemNames n u) := by
  have hfirstMeets := hfirst.meets hcall
  rw [hfirstReturned] at hfirstMeets
  obtain ⟨r, hran, -⟩ := hfirstMeets
  obtain ⟨k, hexecuted⟩ := (hran n hfirstEntry).executed stepId u a hreported haction
  have hlaterMeets := hlater.meets hcall
  rw [hlaterReturned] at hlaterMeets
  obtain ⟨r', hran', -⟩ := hlaterMeets
  have hreplayed := (hran' n hlaterEntry).replayed hmode
  have hdecodes := (hran' n hlaterEntry).decoded hmode
  have hnamed := hlater.named hcall
  rw [hctx] at hreplayed hdecodes hnamed
  obtain ⟨m, hm, hiff⟩ :=
    hexecuted.told_iff hlen hserdes hparse hfull hop hstatus hresult hdecodes
  refine ⟨hfirst.named hcall, fun event hmem => (hnamed event hmem).of_counter, ?_⟩
  have hcounted := hreplayed m (told_counter.trans hm)
  rw [← hctx] at hcounted
  rw [hfirst.counter hexecuted.toCounted, hlater.counter hcounted, ← hiff]
  omega

/-! ### One item, and the full payload -/

/-- No task but `j` draws from the counter of `j`. -/
def isAlone (j : Nat) (s : State V I) : Label V I → Bool
  | .perform t _ => t == j || (s.tasks[j]?).all fun task => (s.tasks[t]?).all fun other =>
    match nextEffect other.program with
    | some (.fetchAdd c) => c != task.ctx.operationCounter
    | _ => true
  | _ => true

theorem isAlone_sound {l : Label V I} (h : isAlone j s l = true) : Alone j s l := by
  rintro t choose task other c rfl hne hj ht he
  simpa [isAlone, hj, ht, he, hne] using h

/-- An invocation that loads the table and first calls the operation. -/
def invoked (token : String) (loaded : Table) (mode : ExecutionMode) (call : DurableCall Nat Nat)
    (ls : List (Label Nat Nat)) : Option (State Nat Nat) :=
  (machine token loaded rootContext).checkedRun (isAlone 0) (.new token loaded mode rootContext)
    (.begin 0 (some "map") call :: ls)

section

variable {mode : ExecutionMode} {call : DurableCall Nat Nat} {ls ls' : List (Label Nat Nat)}
  {s s' : State Nat Nat} {event : Event Nat}

theorem runs_of_invoked (h : invoked token loaded mode call ls = some s) :
    ∃ task, Runs token loaded rootContext (some "map") call s 0 task ∧ task.ctx = rootContext ∧
      task.start = call.run rootContext (some "map") := by
  have hreach : (machine token loaded rootContext).ReachableBy (Alone 0) s :=
    Transition.Machine.checkedRun_reachableBy (fun _ _ _ => isAlone_sound) _ (.init ⟨rfl, _, rfl⟩) h
  obtain ⟨-, begun, hbegun, hrest⟩ := Transition.Machine.checkedRun_cons h
  obtain rfl := Option.some.inj hbegun
  have hkept : ∀ (s : State Nat Nat) (l : Label Nat Nat) (s' : State Nat Nat),
      (∃ task, s.tasks[0]? = some task ∧ task.origin = .call (some "map") call ∧
        task.ctx = rootContext ∧ task.start = call.run rootContext (some "map")) →
      step loaded s l = some s' →
      ∃ task, s'.tasks[0]? = some task ∧ task.origin = .call (some "map") call ∧
        task.ctx = rootContext ∧ task.start = call.run rootContext (some "map") := by
    rintro s l s' ⟨task, hj, horigin, hctx, hstart⟩ hstep
    obtain ⟨task', hj', hsame⟩ := (move_of_step hstep).grows.kept 0 task hj
    exact ⟨task', hj', hsame.origin.trans horigin, hsame.ctx.trans hctx, hsame.start.trans hstart⟩
  obtain ⟨task, htask, horigin, hctx, hstart⟩ :=
    Transition.Machine.checkedRun_preserves hkept ls ⟨_, rfl, rfl, rfl, rfl⟩ hrest
  exact ⟨task, ⟨hreach, htask, horigin⟩, hctx, hstart⟩

/-- The call has drawn 0, has seen the event, and has returned. -/
def settled (event : Event Nat) (s : State Nat Nat) : Bool :=
  (s.tasks[0]?).any fun task =>
    task.program.returned.isSome && drawn task.trace == some 0 && decide (event ∈ task.trace)

theorem of_settled {task : Task Nat Nat} (h : settled event s = true) (htask : s.tasks[0]? = some task) :
    (∃ r, task.program = .ret r) ∧ drawn task.trace = some 0 ∧ event ∈ task.trace := by
  simp only [settled, htask, Option.any_some, Bool.and_eq_true, beq_iff_eq, decide_eq_true_eq] at h
  obtain ⟨r, hr⟩ := Option.isSome_iff_exists.mp h.1.1
  exact ⟨⟨r, Prog.eq_ret_of_returned hr⟩, h.1.2, h.2⟩

end

def plainOne : DurableCall Nat Nat := .map [10] { toBatchConfig := Batch.oneConfig "[7]" }

def plainRun : List (Label Nat Nat) :=
  [quick 0, quick 0, quick 0] ++ asked 0 0 0 ++ served 0 0 0 ++
    [quick 0, spawns 0, quick 1, quick 1, quick 1] ++ asked 1 1 0 ++ served 1 1 0 ++
    [quick 1, returns 1 7] ++ asked 1 2 0 ++ served 1 2 0 ++ [.join 0 1] ++ asked 0 3 0 ++ served 0 3 0

def plainTable : Table := Backend.applyAll (fun _ => none) [Batch.oneUpdate "[7]"]

/-! ### Two items, and a summary -/

/-- The update with a summary in place of a payload over the limit. -/
def summaryUpdate (spec : BatchSpec) (hashedId summary : String) : OperationUpdate :=
  { id := hashedId, operationType := .context, subType := some spec.subType, action := .succeed,
    payload := some summary, contextOptions := some ⟨some true⟩ }

theorem complete_of_large {spec : BatchSpec} {ctx : ExecutionContext} {name : Option String}
    {cfg : BatchConfig V} {stepId hashedId payload : String} {totalItems : Nat} {p : Batch.Progress V}
    (hpayload : cfg.batchSerdes.serialize (some (p.result cfg.completionConfig totalItems))
      (ctx.site hashedId name).context = .ok (some payload))
    (hlarge : payload.utf8ByteSize > checkpointSizeLimitBytes) :
    Batch.complete spec ctx name cfg stepId hashedId totalItems p =
      .act (.checkpoint stepId (summaryUpdate spec hashedId
        (spec.summary (p.completedCount + p.started.length) p.successes.length p.failures.length
          p.started.length (p.result cfg.completionConfig totalItems).completionReason)))
        fun r => .ret (r.map fun _ => p.result cfg.completionConfig totalItems) := by
  unfold Batch.complete safeSerializeRequiredWithSerdes
  simp only [hpayload]
  rw [Prog.ret_bind, checkpoint_of_build (Batch.succeedUpdate_buildable ..), Batch.succeedUpdate,
    if_pos hlarge, Prog.act_andThen]
  refine congrArg (Prog.act _) (funext fun r => ?_)
  cases r <;> rfl

def large : Serdes (BatchResult Nat) where
  serialize _ _ := .ok (some oversized)
  deserialize _ _ := .ok none

def summaryText : String := Batch.map.summary 2 1 0 1 .minSuccessfulReached

/-- One success is enough. -/
def summarized (serdes : Serdes (BatchResult Nat)) : MapConfig Nat Nat where
  batchResultSerdes := serdes
  itemCodec := .nat
  completionConfig := { minSuccessful := some 1 }
  parseJson text :=
    if text = summaryText then some (.object [("totalCount", .number (some 2))]) else none

def mapTwo (serdes : Serdes (BatchResult Nat)) : DurableCall Nat Nat :=
  .map [10, 20] (summarized serdes)

def aborts (t : Nat) : Label Nat Nat :=
  .perform t fun
    | .abortAll => some ()
    | _ => none

/-- The second child returns before the first takes a step. -/
def abortedRun : List (Label Nat Nat) :=
  [quick 0, quick 0, quick 0] ++ asked 0 0 0 ++ served 0 0 0 ++
    [quick 0, spawns 0, quick 0, spawns 0, quick 2, quick 2, quick 2] ++ asked 2 1 0 ++
    served 2 1 0 ++ [quick 2, returns 2 7] ++ asked 2 2 0 ++ served 2 2 0 ++ [.join 0 2, aborts 0]

def abortedTrace : List (Event Nat) :=
  [⟨.abortAll, ()⟩, ⟨.joinNext, .ok (1, .ok 7)⟩,
    ⟨.spawn 1 "map-item-1_2" "map-item-1_2" "map-item-1", ()⟩, ⟨.fetchAdd 0, (2 : Nat)⟩,
    ⟨.spawn 0 "map-item-0_1" "map-item-0_1" "map-item-0", ()⟩, ⟨.fetchAdd 0, (1 : Nat)⟩,
    ⟨.checkpoint "map_0" (Batch.startUpdate Batch.map rootContext (some "map") "map_0"), .ok ()⟩,
    ⟨.getStepData "map_0", none⟩, ⟨.fetchAdd 0, (0 : Nat)⟩, ⟨.getMode, ExecutionMode.execution⟩]

def abortedProgress : Batch.Progress Nat := { successes := [(1, 7)], started := [0] }

/-- The same with any codec of the items. -/
def summarizedBy (serdes : Serdes (BatchResult Nat)) (codec : Codec Nat) : MapConfig Nat Nat :=
  { summarized serdes with itemCodec := codec }

def mapTwoBy (serdes : Serdes (BatchResult Nat)) (codec : Codec Nat) : DurableCall Nat Nat :=
  .map [10, 20] (summarizedBy serdes codec)

theorem follows_aborted (serdes : Serdes (BatchResult Nat)) (codec : Codec Nat) :
    Follows ((mapTwoBy serdes codec).run rootContext (some "map")) abortedTrace
      (returning .batch (Batch.complete Batch.map rootContext (some "map")
        (summarizedBy serdes codec).toBatchConfig "map_0" "map_0" 2 abortedProgress)) := by
  have h : Follows ((mapTwoBy serdes codec).run rootContext (some "map")) []
    ((mapTwoBy serdes codec).run rootContext (some "map")) := .refl _ _
  have h := h.answered ExecutionMode.execution
  have h := h.answered (0 : Nat)
  have h := h.answered none
  have h := h.answered (.ok ())
  have h := h.answered (1 : Nat)
  have h := h.answered ()
  have h := h.answered (2 : Nat)
  have h := h.answered ()
  have h := h.answered (.ok (1, .ok 7))
  exact h.answered ()

def reportSummary : Act Nat (DurableResult (Output Nat)) :=
  .act (.checkpoint "map_0" (summaryUpdate Batch.map "map_0" summaryText)) fun r =>
    .ret (r.map fun _ => .batch (abortedProgress.result { minSuccessful := some 1 } 2))

theorem complete_aborted (codec : Codec Nat) : returning .batch (Batch.complete Batch.map rootContext
    (some "map") (summarizedBy large codec).toBatchConfig "map_0" "map_0" 2 abortedProgress) =
      reportSummary := by
  have hlarge : oversized.utf8ByteSize > checkpointSizeLimitBytes := by
    rw [oversized, utf8ByteSize_replicate]
    exact Nat.lt_succ_self _
  have hsummary : Batch.map.summary (abortedProgress.completedCount + abortedProgress.started.length)
      abortedProgress.successes.length abortedProgress.failures.length
      abortedProgress.started.length
      (abortedProgress.result { minSuccessful := some 1 } 2).completionReason = summaryText := by
    decide +kernel
  have hconfig : (summarizedBy large codec).completionConfig = { minSuccessful := some 1 } := rfl
  rw [complete_of_large rfl hlarge, hconfig, hsummary]
  refine congrArg (Prog.act _) (funext fun r => ?_)
  cases r <;> rfl

/-- The state with the program of the first task in an evaluated form. -/
def reporting (s : State Nat Nat) : State Nat Nat :=
  match s.tasks[0]? with
  | some task => { s with tasks := s.tasks.set 0 { task with program := reportSummary } }
  | none => s

theorem reporting_eq {s : State Nat Nat} {task : Task Nat Nat} (htask : s.tasks[0]? = some task)
    (hprogram : task.program = reportSummary) : reporting s = s := by
  have hsame : { task with program := reportSummary } = task := hprogram ▸ rfl
  simp only [reporting, htask, hsame]
  obtain ⟨hlt, rfl⟩ := List.getElem?_eq_some_iff.mp htask
  rw [List.set_getElem_self]

def childUpdate (action : OperationAction) (payload : Option String) : OperationUpdate :=
  { id := "map-item-1_2", parentId := some "map_0", name := some "map-item-1",
    operationType := .context, subType := some "MapIteration", action, payload }

/-- What the service has acknowledged in the end. -/
def abortedLog : List OperationUpdate :=
  [Batch.startUpdate Batch.map rootContext (some "map") "map_0", childUpdate .start none,
    childUpdate .succeed (some "7"), summaryUpdate Batch.map "map_0" summaryText]

def reportRun : List (Label Nat Nat) := asked 0 3 0 ++ served 0 3 0

/-- What is evaluated after the batch has come to its report is part of one run. -/
theorem checkedRun_reporting (codec : Codec Nat) {ok : State Nat Nat → Label Nat Nat → Bool}
    (hok : ∀ s l, ok s l = true → isAlone 0 s l = true) {ls report : List (Label Nat Nat)}
    {check : State Nat Nat → Bool}
    (htrace : ((machine "t0" (fun _ => none) rootContext).checkedRun ok
      (.new "t0" (fun _ => none) .execution rootContext)
      (.begin 0 (some "map") (mapTwoBy large codec) :: ls)).map (·.traceOf 0) = some abortedTrace)
    (hend : (((machine "t0" (fun _ => none) rootContext).checkedRun ok
      (.new "t0" (fun _ => none) .execution rootContext)
      (.begin 0 (some "map") (mapTwoBy large codec) :: ls)).bind fun s =>
        (machine "t0" (fun _ => none) rootContext).checkedRun ok (reporting s) report).any check = true) :
    ∃ s, (machine "t0" (fun _ => none) rootContext).checkedRun ok
        (.new "t0" (fun _ => none) .execution rootContext)
        (.begin 0 (some "map") (mapTwoBy large codec) :: (ls ++ report)) = some s ∧ check s = true := by
  obtain ⟨s, hs, htrace⟩ := Option.map_eq_some_iff.mp htrace
  have hinvoked : invoked "t0" (fun _ => none) .execution (mapTwoBy large codec) ls = some s :=
    Transition.Machine.checkedRun_mono hok hs
  obtain ⟨task, hruns, hctx, hstart⟩ := runs_of_invoked hinvoked
  have hfollows := following_of_reachableBy hruns.reachable task (List.mem_of_getElem? hruns.mem)
  rw [hstart, ← traceOf_of_mem hruns.mem, htrace] at hfollows
  have hprogram : task.program = reportSummary :=
    (hfollows.unique (follows_aborted large codec)).trans (complete_aborted codec)
  rw [hs, Option.bind_some, reporting_eq hruns.mem hprogram,
    ← Transition.Machine.checkedRun_append hs] at hend
  exact Option.any_eq_true _ _ |>.mp hend

/-- The count stands between the last colon but one and a fixed end. -/
theorem toList_mapSummaryPayload (total success failure : Nat) (reason : BatchCompletionReason) :
    ∃ front, (mapSummaryPayload total success failure reason).toList =
      front ++ ':' :: total.repr.toList ++ ",\"type\":\"MapResult\"\x7d".toList := by
  obtain ⟨start, rest, hpayload⟩ : ∃ start rest, mapSummaryPayload total success failure reason =
      start ++ (rest ++ ",\"totalCount\":" ++ total.repr ++ ",\"type\":\"MapResult\"\x7d") :=
    ⟨_, _, rfl⟩
  have hcolon : ",\"totalCount\":".toList = ",\"totalCount\"".toList ++ [':'] := by decide
  refine ⟨start.toList ++ rest.toList ++ ",\"totalCount\"".toList, ?_⟩
  rw [hpayload]
  simp only [String.toList_append, hcolon, List.append_assoc, List.cons_append, List.nil_append]

theorem mapSummaryPayload_total {total total' success success' failure failure' : Nat}
    {reason reason' : BatchCompletionReason}
    (h : mapSummaryPayload total success failure reason =
      mapSummaryPayload total' success' failure' reason') : total = total' := by
  obtain ⟨front, hfront⟩ := toList_mapSummaryPayload total success failure reason
  obtain ⟨front', hfront'⟩ := toList_mapSummaryPayload total' success' failure' reason'
  have hsame := hfront.symm.trans ((congrArg String.toList h).trans hfront')
  have hcolon : ∀ n : Nat, ':' ∉ n.repr.toList := by
    intro n hmem
    rw [Nat.toList_repr] at hmem
    have hdigit := Nat.isDigit_of_mem_toDigits (by decide) (by decide) hmem
    cases hdigit
  exact repr_injective (cut_at_last (hcolon _) (hcolon _) (List.append_cancel_right hsame)).2

/-- serde_json finds the number of children in the summary. -/
theorem reads_summaryText (codec : Codec Nat) :
    ReadsSummaries Batch.map (summarizedBy large codec).parseJson
      (summaryUpdate Batch.map "map_0" summaryText) := by
  intro _ total success failure started reason _ hpayload
  have htext := Option.some.inj hpayload
  obtain rfl : 2 = total := mapSummaryPayload_total htext
  rw [← htext]
  have hread : (if summaryText = summaryText then
      some (JsonValue.object [("totalCount", .number (some 2))]) else none) = some _ := if_pos rfl
  exact ⟨_, hread, rfl, rfl, rfl⟩

/-- A number as that many strokes. -/
def tally : Codec Nat where
  json := ⟨fun n => .ok (String.ofList (List.replicate n '1')), fun s => .ok s.length⟩

theorem tally_undoes : tally.Undoes := by
  rintro value context payload ⟨⟩
  simp only [tally, Codec.deserialize, String.length_ofList, List.length_replicate]
  rfl

theorem tally_alwaysEncodes : tally.AlwaysEncodes := by
  rintro value context payload ⟨⟩
  rfl

/-- The first child has sent its START before the second returns. -/
def startedRun : List (Label Nat Nat) :=
  [quick 0, quick 0, quick 0] ++ asked 0 0 0 ++ served 0 0 0 ++
    [quick 0, spawns 0, quick 0, spawns 0, quick 1, quick 1, quick 1] ++ asked 1 1 0 ++
    served 1 1 0 ++ [quick 2, quick 2, quick 2] ++ asked 2 2 0 ++ served 2 2 0 ++
    [quick 2, returns 2 7] ++ asked 2 3 0 ++ served 2 3 0 ++ [.join 0 2, aborts 0]

def startedReport : List (Label Nat Nat) := asked 0 4 0 ++ served 0 4 0

/-- What the service has of the batch and its children in the end. -/
def startedTable : Table := Backend.applyAll (fun _ => none)
  [Batch.startUpdate Batch.map rootContext (some "map") "map_0",
    { childUpdate .start none with id := "map-item-0_1", name := some "map-item-0" },
    childUpdate .start none, childUpdate .succeed (some "1111111"),
    summaryUpdate Batch.map "map_0" summaryText]

theorem invoked_started : ∃ s : State Nat Nat,
    invoked "t0" (fun _ => none) .execution (mapTwoBy large tally) (startedRun ++ startedReport) = some s ∧
      settled ⟨.checkpoint "map_0" (summaryUpdate Batch.map "map_0" summaryText), .ok ()⟩ s = true := by
  have htrace : ((machine "t0" (fun _ => none) rootContext).checkedRun (isAlone 0)
      (.new "t0" (fun _ => none) .execution rootContext)
      (.begin 0 (some "map") (mapTwoBy large tally) :: startedRun)).map (·.traceOf 0) =
      some abortedTrace := by
    decide +kernel
  have hend : (((machine "t0" (fun _ => none) rootContext).checkedRun (isAlone 0)
      (.new "t0" (fun _ => none) .execution rootContext)
      (.begin 0 (some "map") (mapTwoBy large tally) :: startedRun)).bind fun s =>
        (machine "t0" (fun _ => none) rootContext).checkedRun (isAlone 0) (reporting s)
          startedReport).any
      (settled ⟨.checkpoint "map_0" (summaryUpdate Batch.map "map_0" summaryText), .ok ()⟩) =
      true := by
    decide +kernel
  exact checkedRun_reporting tally (fun _ _ h => h) htrace hend

/-- A replay from the full payload, and one that reads the records of a child still started and
of one that has succeeded. -/
theorem counters_agree_reportedRuns :
    (∃ s₁ s₂ : State Nat Nat,
      invoked "t0" (fun _ => none) .execution plainOne plainRun = some s₁ ∧
        invoked "t1" plainTable .replay plainOne (List.replicate 5 (quick 0)) = some s₂ ∧
        s₁.counters 0 = s₂.counters 0) ∧
    ∃ s₁ s₂ : State Nat Nat,
      invoked "t0" (fun _ => none) .execution (mapTwoBy large tally) (startedRun ++ startedReport) =
          some s₁ ∧
        invoked "t1" startedTable .replay (mapTwoBy large tally) (List.replicate 9 (quick 0)) =
          some s₂ ∧ s₁.counters 0 = s₂.counters 0 := by
  have hagree : ∀ {call : DurableCall Nat Nat} {cfg : BatchConfig Nat} {itemNames : List String}
      {u : OperationUpdate} {a : Except DurableError Unit} {loaded : Table} {op : Operation}
      {first later : List (Label Nat Nat)} {s₁ s₂ : State Nat Nat},
      call.batch (some "map") = some (Batch.map, cfg, itemNames) → itemNames.length < 2 ^ 64 →
      cfg.batchSerdes.PreservesIndices → ReadsSummaries Batch.map cfg.parseJson u →
      u.action = .succeed →
      (u.contextOptions = none → ∀ payload, u.payload = some payload →
        Batch.isSummary Batch.map (cfg.parseJson payload) = false) →
      loaded (callId rootContext (some "map") 0) = some op → op.status = .succeeded →
      op.contextDetails.bind (·.result) = u.payload →
      Recoverable loaded rootContext cfg itemNames 0 u →
      invoked "t0" (fun _ => none) .execution call first = some s₁ →
      settled ⟨.checkpoint "map_0" u, a⟩ s₁ = true →
      invoked "t1" loaded .replay call later = some s₂ → settled ⟨.getMode, .replay⟩ s₂ = true →
      s₁.counters 0 = s₂.counters 0 := by
    intro call cfg itemNames u a loaded op first later s₁ s₂ hcall hlen hserdes hparse haction hfull hop
      hstatus hresult hrecoverable hs₁ hfirst hs₂ hlater
    obtain ⟨task₁, hruns₁, hctx₁, -⟩ := runs_of_invoked hs₁
    obtain ⟨task₂, hruns₂, hctx₂, -⟩ := runs_of_invoked hs₂
    obtain ⟨⟨r₁, hr₁⟩, hn₁, hreported⟩ := of_settled hfirst hruns₁.mem
    obtain ⟨⟨r₂, hr₂⟩, hn₂, hmode⟩ := of_settled hlater hruns₂.mem
    have hctx : task₂.ctx = { task₁.ctx with operationCounter := task₂.ctx.operationCounter } := by
      rw [hctx₁, hctx₂]
    obtain ⟨-, -, hiff⟩ := counters_agree hcall hlen hserdes hparse hruns₁ hr₁ hn₁ hreported haction
      hfull hruns₂ hctx hr₂ hn₂ hmode (by rw [hctx₁]; exact hop) hstatus hresult
    rw [hctx₁, hctx₂] at hiff
    exact hiff.mpr hrecoverable
  constructor
  · have hfirst : (invoked "t0" (fun _ => none) .execution plainOne plainRun).any
        (settled ⟨.checkpoint "map_0" (Batch.oneUpdate "[7]"), .ok ()⟩) = true := by decide +kernel
    have hlater : (invoked "t1" plainTable .replay plainOne (List.replicate 5 (quick 0))).any
        (settled ⟨.getMode, .replay⟩) = true := by decide +kernel
    obtain ⟨s₁, hs₁, hfirst⟩ := Option.any_eq_true _ _ |>.mp hfirst
    obtain ⟨s₂, hs₂, hlater⟩ := Option.any_eq_true _ _ |>.mp hlater
    have hfull : (Batch.oneUpdate "[7]").contextOptions = none → ∀ payload,
        (Batch.oneUpdate "[7]").payload = some payload →
        Batch.isSummary Batch.map ((Batch.oneConfig "[7]").parseJson payload) = false := by
      rintro - _ ⟨⟩
      decide +kernel
    have hop : plainTable (callId rootContext (some "map") 0) = some (Backend.finished
        (Backend.created (Batch.oneUpdate "[7]")) .succeeded (Batch.oneUpdate "[7]")) := by
      decide +kernel
    have hcall : plainOne.batch (some "map") =
        some (Batch.map, Batch.oneConfig "[7]", ["map-item-0"]) := rfl
    exact ⟨s₁, s₂, hs₁, hs₂, hagree hcall (by decide) (Batch.oneSerdes_preservesIndices "[7]")
      (fun hoptions => absurd rfl hoptions) rfl hfull hop rfl rfl (Or.inl rfl) hs₁ hfirst hs₂ hlater⟩
  · obtain ⟨s₁, hs₁, hfirst⟩ := invoked_started
    have hlater : (invoked "t1" startedTable .replay (mapTwoBy large tally)
        (List.replicate 9 (quick 0))).any (settled ⟨.getMode, .replay⟩) = true := by decide +kernel
    obtain ⟨s₂, hs₂, hlater⟩ := Option.any_eq_true _ _ |>.mp hlater
    have hserdes : (summarizedBy large tally).toBatchConfig.batchSerdes.PreservesIndices := by
      rintro _ _ _ _ _ _ ⟨⟩
    obtain ⟨op, hop, hstatus, hresult⟩ : ∃ op, startedTable (callId rootContext (some "map") 0) =
        some op ∧ op.status = .succeeded ∧ op.contextDetails.bind (·.result) = some summaryText :=
      ⟨_, rfl, by decide +kernel, by decide +kernel⟩
    have hrecoverable : Recoverable startedTable rootContext (summarizedBy large tally).toBatchConfig
        ["map-item-0", "map-item-1"] 0 (summaryUpdate Batch.map "map_0" summaryText) := by
      have htotal : Batch.summaryTotal ((some summaryText).bind
          (summarizedBy large tally).parseJson) = some 2 := by decide +kernel
      have hread : ∀ child ∈ (["map-item-0", "map-item-1"].zipIdx.take 2).dropLast,
          lost startedTable rootContext tally
            (rootContext.operationId (some child.1) (0 + 1 + child.2)) child.1 = false := by
        decide +kernel
      refine Or.inr fun total hcount => ?_
      obtain rfl : 2 = total := Option.some.inj (htotal.symm.trans hcount)
      exact hread
    exact ⟨s₁, s₂, hs₁, hs₂, hagree rfl (by decide) hserdes (reads_summaryText tally) rfl nofun hop
      hstatus hresult hrecoverable hs₁ hfirst hs₂ hlater⟩

theorem invoked_aborted : ∃ s : State Nat Nat,
    invoked "t0" (fun _ => none) .execution (mapTwo large) (abortedRun ++ reportRun) = some s ∧
      settled ⟨.checkpoint "map_0" (summaryUpdate Batch.map "map_0" summaryText), .ok ()⟩ s = true ∧
      s.counters 0 = 3 ∧ CheckpointManager.sentUpdates s.manager.log = abortedLog := by
  have htrace : ((machine "t0" (fun _ => none) rootContext).checkedRun (isAlone 0)
      (.new "t0" (fun _ => none) .execution rootContext)
      (.begin 0 (some "map") (mapTwo large) :: abortedRun)).map (·.traceOf 0) = some abortedTrace := by
    decide +kernel
  have hend : (((machine "t0" (fun _ => none) rootContext).checkedRun (isAlone 0)
      (.new "t0" (fun _ => none) .execution rootContext)
      (.begin 0 (some "map") (mapTwo large) :: abortedRun)).bind fun s =>
        (machine "t0" (fun _ => none) rootContext).checkedRun (isAlone 0) (reporting s) reportRun).any
      (fun s => settled
        ⟨.checkpoint "map_0" (summaryUpdate Batch.map "map_0" summaryText), .ok ()⟩ s &&
        s.counters 0 == 3 &&
        CheckpointManager.sentUpdates s.manager.log == abortedLog) = true := by
    decide +kernel
  obtain ⟨s, hs, hend⟩ := checkedRun_reporting .nat (fun _ _ h => h) htrace hend
  simp only [Bool.and_eq_true, beq_iff_eq] at hend
  exact ⟨s, hs, hend.1.1, hend.1.2, hend.2⟩

/-- The first of two children is aborted before it has a record; the replay stops at it. -/
theorem counters_drift : ∃ (s₁ s₂ : State Nat Nat) (task₁ task₂ : Task Nat Nat)
    (r₁ r₂ : DurableResult (Output Nat)),
    Runs "t0" (fun _ => none) rootContext (some "map") (mapTwo large) s₁ 0 task₁ ∧
      task₁.program = .ret r₁ ∧ drawn task₁.trace = some 0 ∧
      ⟨.checkpoint "map_0" (summaryUpdate Batch.map "map_0" summaryText), .ok ()⟩ ∈ task₁.trace ∧
      Runs "t1" (Backend.applyAll (fun _ => none) (CheckpointManager.sentUpdates s₁.manager.log))
        rootContext (some "map") (mapTwo large) s₂ 0 task₂ ∧
      task₂.program = .ret r₂ ∧ drawn task₂.trace = some 0 ∧ ⟨.getMode, .replay⟩ ∈ task₂.trace ∧
      task₁.ctx = rootContext ∧ task₂.ctx = rootContext ∧
      s₁.counters 0 = 3 ∧ s₂.counters 0 = 2 := by
  obtain ⟨s₁, hs₁, hfirst, hcounter₁, hlog⟩ := invoked_aborted
  have hlater : (invoked "t1" (Backend.applyAll (fun _ => none) abortedLog) .replay (mapTwo large)
      (List.replicate 7 (quick 0))).any
      (fun s => settled ⟨.getMode, .replay⟩ s && s.counters 0 == 2) = true := by decide +kernel
  obtain ⟨s₂, hs₂, hlater⟩ := Option.any_eq_true _ _ |>.mp hlater
  simp only [Bool.and_eq_true, beq_iff_eq] at hlater
  obtain ⟨task₁, hruns₁, hctx₁, -⟩ := runs_of_invoked hs₁
  obtain ⟨task₂, hruns₂, hctx₂, -⟩ := runs_of_invoked hs₂
  obtain ⟨⟨r₁, hr₁⟩, hn₁, hreported⟩ := of_settled hfirst hruns₁.mem
  obtain ⟨⟨r₂, hr₂⟩, hn₂, hmode⟩ := of_settled hlater.1 hruns₂.mem
  rw [← hlog] at hruns₂
  exact ⟨s₁, s₂, task₁, task₂, r₁, r₂, hruns₁, hr₁, hn₁, hreported, hruns₂, hr₂, hn₂, hmode, hctx₁,
    hctx₂, hcounter₁, hlater.2⟩

end Tasks

end LambdaDurable
