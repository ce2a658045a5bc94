import LambdaDurable.Context.Pending
import LambdaDurable.Context.Tame
import LambdaDurable.Context.Tasks

/-!
# Below which operation a task sends its updates

It sends them below the operation its context was made for, or below one that it has
found in the loaded state or has started itself; and it makes contexts for such ones only.
The mode flag is set to Execution only, and a submitter is called after that.
-/

namespace LambdaDurable

open Effects Call

variable {V I T S : Type}

/-- The operation was loaded, or its START has returned. -/
def Announced (loaded : Table) (trace : List (Event V)) (hashedId : String) : Prop :=
  loaded hashedId ≠ none ∨ ∃ stepId u r, ⟨.checkpoint stepId u, r⟩ ∈ trace ∧ u.id = hashedId ∧
    u.action = .start

/-- What a task may do whose updates go below `parent`. -/
def Placed (loaded : Table) (parent : Option String) (ctx : ExecutionContext) (name : Option String)
    (trace : List (Event V)) : Effect V → Prop
  | .checkpoint _ u | .checkpointQueued _ u =>
    ∀ p, u.parentId = some p → parent = some p ∨ Announced loaded trace p
  | .contextFn hashedId counter => Announced loaded trace hashedId ∧ ⟨.newCounter, counter⟩ ∈ trace
  | .spawn _ _ _ _ => ∀ n, drawn trace = some n → Announced loaded trace (callId ctx name n)
  | .setMode mode => mode = .execution
  | .submitter _ _ => ⟨.setMode .execution, ()⟩ ∈ trace
  | _ => True

def Places (loaded : Table) (parent : Option String) (ctx : ExecutionContext)
    (name : Option String) (post : List (Event V) → S → Prop) (p : Act V S)
    (trace : List (Event V)) : Prop :=
  p.Meets (traced (fun _ => Answers loaded) (Placed loaded parent ctx name)) post trace

section

variable {loaded : Table} {parent : Option String} {ctx : ExecutionContext} {name : Option String}
  {trace trace' : List (Event V)} {hashedId : String}

theorem Announced.later (h : Announced loaded trace hashedId) (hsuffix : trace <:+ trace') :
    Announced loaded trace' hashedId := by
  obtain hloaded | ⟨stepId, u, r, hmem, hu⟩ := h
  · exact Or.inl hloaded
  · exact Or.inr ⟨stepId, u, r, hsuffix.subset hmem, hu⟩

theorem drawn_later {n : Nat} (h : drawn trace = some n) (hsuffix : trace <:+ trace') :
    drawn trace' = some n := by
  obtain ⟨more, rfl⟩ := hsuffix
  induction more with
  | nil => exact h
  | cons event more ih => simp [drawn, ih]

/-- A part that keeps to itself, below an operation the task may send updates below. -/
theorem places_tame {below : Option String} {p : Act V S} (h : p.Only (Tame below))
    (hbelow : ∀ q, below = some q → parent = some q ∨ Announced loaded trace q) :
    Places loaded parent ctx name (fun trace' _ => trace <:+ trace') p trace := by
  refine Prog.Only.meets (R := fun trace' => trace <:+ trace') h ?_ ?_ List.suffix_rfl
  · intro trace' e hsuffix he
    have hplaced : ∀ {u : OperationUpdate}, (∀ q, u.parentId = some q → below = some q) →
        ∀ q, u.parentId = some q → parent = some q ∨ Announced loaded trace' q := by
      intro u hu q hq
      exact (hbelow q (hu q hq)).imp id fun h => h.later hsuffix
    cases e with
    | checkpoint _ u | checkpointQueued _ u => exact hplaced he
    | contextFn _ _ | spawn _ _ _ _ => exact he.elim
    | _ => trivial
  · intro trace' e a hsuffix _ _
    exact hsuffix.trans (List.suffix_cons _ _)

theorem Places.since {p : Act V S}
    (h : Places loaded parent ctx name (fun trace'' _ => trace' <:+ trace'') p trace')
    (hsuffix : trace <:+ trace') :
    Places loaded parent ctx name (fun trace'' _ => trace <:+ trace'') p trace' :=
  Prog.Meets.mono (fun _ _ hlater => hsuffix.trans hlater) h

/-- So is a whole call but for its number. -/
theorem places_draws {below : Option String} {maker : ExecutionContext} {p : Act V S}
    (h : Draws maker below p)
    (hbelow : ∀ q, below = some q → parent = some q ∨ Announced loaded trace q) :
    Places loaded parent ctx name (fun trace' _ => trace <:+ trace') p trace := by
  obtain ⟨k, rfl, hk⟩ := h
  refine ⟨trivial, fun n _ => ?_⟩
  have hsuffix : trace <:+ ⟨.fetchAdd maker.operationCounter, n⟩ :: trace := List.suffix_cons _ _
  exact (places_tame (hk n) fun q hq => (hbelow q hq).imp id fun h => h.later hsuffix).since hsuffix

theorem places_returning {f : S → T} {p : Act V (DurableResult S)}
    {m : List (Event V) → DurableResult S → Prop} (h : Places loaded parent ctx name m p trace) :
    Places loaded parent ctx name (fun _ _ => True) (returning f p) trace :=
  Prog.Meets.andThen h (fun _ _ _ => trivial) fun _ _ _ => trivial

/-! ## Child contexts -/

/-- The operation is loaded, or its START returns. -/
theorem places_started (hashedId : String) {stepId what : String} {u : OperationUpdate}
    (hid : u.id = hashedId) (haction : u.action = .start)
    (hu : ∀ q, u.parentId = some q → parent = some q ∨ Announced loaded trace q) :
    Places loaded parent ctx name
      (fun trace' r => trace <:+ trace' ∧ (r = .ok () → Announced loaded trace' hashedId))
      (match loaded hashedId with
        | none => checkpoint stepId what u
        | some _ => .ret (.ok ())) trace := by
  cases hop : loaded hashedId with
  | some op =>
    refine ⟨List.suffix_rfl, fun _ => Or.inl ?_⟩
    rw [hop]
    exact Option.some_ne_none op
  | none =>
    rcases checkpoint_cases (V := V) stepId what u with h | ⟨e, h⟩ <;> simp only [h]
    · refine ⟨hu, fun r _ => ⟨List.suffix_cons _ _, fun _ => Or.inr ?_⟩⟩
      exact ⟨stepId, u, r, List.mem_cons_self, hid, haction⟩
    · exact ⟨List.suffix_rfl, fun herror => by cases herror⟩

theorem places_submitterStep {maker : ExecutionContext} {label : Option String} {callbackId : String}
    {config : StepConfig Unit}
    (hbelow : ∀ q, maker.currentParentId = some q → parent = some q ∨ Announced loaded trace q) :
    Places loaded parent ctx name (fun trace' _ => trace <:+ trace')
      (maker.step label (fun _ attempt => .act (.submitter callbackId attempt) fun r => .ret r)
        config) trace := by
  have hlater : ∀ {trace'}, trace <:+ trace' → ∀ q, maker.currentParentId = some q →
      parent = some q ∨ Announced loaded trace' q := fun hsuffix q hq =>
    (hbelow q hq).imp id fun h => h.later hsuffix
  have hcons : ∀ {trace'} (e : Effect V) (a : Answer e), trace <:+ trace' → trace <:+ ⟨e, a⟩ :: trace' :=
    fun e a h => h.trans (List.suffix_cons _ _)
  simp only [ExecutionContext.step, nextOperationId_bind, getStepData_bind]
  refine ⟨trivial, fun n _ => ⟨trivial, fun operation _ => ?_⟩⟩
  have hread := hcons (.getStepData (maker.hashId (maker.operationId label n))) operation
    (hcons (.fetchAdd maker.operationCounter) n List.suffix_rfl)
  refine Prog.Meets.andThen ((places_tame (only_stepReplay ..) (hlater hread)).since hread)
    (fun replayed trace' hsuffix => ?_) fun _ _ h => h
  cases replayed with
  | some result => exact hsuffix
  | none =>
    refine ⟨rfl, fun _ _ => ?_⟩
    have hset := hcons (.setMode .execution) () hsuffix
    refine Prog.Meets.andThen (places_tame (only_startStep ..) (hlater hset))
      (fun _ trace'' hstarted => ?_) fun _ _ h => hset.trans h
    have hmode : ⟨.setMode .execution, ()⟩ ∈ trace'' := hstarted.subset List.mem_cons_self
    refine ⟨trivial, fun mode _ => ⟨List.mem_cons_of_mem _ hmode, fun outcome _ => ?_⟩⟩
    have hanswered := hcons (.submitter callbackId ((operation.map (·.attemptIdx)).getD 0 + 1)) outcome
      (hcons .getMode mode (hset.trans hstarted))
    exact (places_tame (only_finishStep ..) (hlater hanswered)).since hanswered

/-- The closure runs in a context of the operation, once that is announced. -/
theorem places_childContext {maker : ExecutionContext} {stepId : String} {label : Option String}
    {contextFn : ExecutionContext → Act V (DurableResult S)} {config : ChildContextConfig S}
    (hmaker : ∀ q, maker.currentParentId = some q → parent = some q ∨ Announced loaded trace q)
    (hfn : ∀ counter trace', Announced loaded trace' hashedId → ⟨.newCounter, counter⟩ ∈ trace' →
      Places loaded parent ctx name (fun trace'' _ => trace' <:+ trace'')
      (contextFn { maker with currentParentId := some hashedId, operationCounter := counter }) trace') :
    Places loaded parent ctx name (fun trace' _ => trace <:+ trace')
      (maker.runInChildContextWithIds stepId hashedId label contextFn config) trace := by
  have hrun : ∀ {trace'}, trace <:+ trace' → Announced loaded trace' hashedId →
      Places loaded parent ctx name (fun trace'' _ => trace <:+ trace'')
        (maker.withParentId hashedId >>= contextFn : Act V _) trace' := by
    intro trace' hsuffix hannounced
    rw [withParentId_bind]
    refine ⟨trivial, fun counter _ => ?_⟩
    have hlater : trace' <:+ ⟨.newCounter, counter⟩ :: trace' := List.suffix_cons _ _
    exact (hfn counter _ (hannounced.later hlater) List.mem_cons_self).since (hsuffix.trans hlater)
  have hbelow : ∀ {trace'}, trace <:+ trace' → ∀ q, maker.currentParentId = some q →
      parent = some q ∨ Announced loaded trace' q := fun hsuffix q hq =>
    (hmaker q hq).imp id fun h => h.later hsuffix
  have hexecute : ∀ {trace'}, trace <:+ trace' → Places loaded parent ctx name
      (fun trace'' _ => trace <:+ trace'') (Child.runChildExecution maker stepId hashedId label contextFn
        config.subType config.codec) trace' := by
    intro trace' hsuffix
    simp only [Child.runChildExecution, getStepData_bind]
    refine ⟨trivial, fun operation hop => ?_⟩
    obtain rfl : operation = loaded hashedId := hop
    have hread : trace' <:+ ⟨.getStepData hashedId, loaded hashedId⟩ :: trace' := List.suffix_cons _ _
    refine Prog.Meets.andThen (places_started hashedId rfl rfl (hbelow (hsuffix.trans hread)))
      (fun _ trace'' h => ?_) fun _ _ h => (hsuffix.trans hread).trans h.1
    have hlater := (hsuffix.trans hread).trans h.1
    rw [← Prog.bind_assoc]
    refine Prog.Meets.bind (hrun hlater (h.2 rfl)) fun outcome _ hdone => ?_
    exact (places_tame (only_finishChild ..) (hbelow hdone)).since hdone
  simp only [ExecutionContext.runInChildContextWithIds, getStepData_bind]
  refine ⟨trivial, fun operation hop => ?_⟩
  obtain rfl : operation = loaded hashedId := hop
  have hread : trace <:+ ⟨.getStepData hashedId, loaded hashedId⟩ :: trace := List.suffix_cons _ _
  cases hop : loaded hashedId with
  | none => exact hexecute (hop ▸ hread)
  | some op =>
    have hannounced : ∀ trace' : List (Event V), Announced loaded trace' hashedId := by
      intro trace'
      left
      rw [hop]
      exact Option.some_ne_none op
    have hreplay : Places loaded parent ctx name (fun trace' _ => trace <:+ trace') _ _ :=
      (places_tame (only_childReplay maker (some op) config.codec hashedId stepId label)
        (hbelow (hop ▸ hread))).since (hop ▸ hread)
    refine Prog.Meets.andThen hreplay (fun decision trace' hsuffix => ?_) fun _ _ h => h
    cases decision with
    | «return» val => exact hsuffix
    | replayChildren => exact hrun hsuffix (hannounced _)
    | «continue» => exact hexecute hsuffix

theorem places_userContext {maker : ExecutionContext} (counter : Nat)
    (h : Announced loaded trace hashedId) (hnew : ⟨.newCounter, counter⟩ ∈ trace) :
    Places loaded parent ctx name (fun trace' _ => trace <:+ trace') (userContext
      { maker with currentParentId := some hashedId, operationCounter := counter }) trace :=
  ⟨⟨h, hnew⟩, fun _ _ => List.suffix_cons _ _⟩

theorem places_submit (config : CallbackConfig T) (unitCodec : Codec Unit) {maker : ExecutionContext}
    (counter : Nat) (h : Announced loaded trace hashedId) : Places loaded parent ctx name
      (fun trace' _ => trace <:+ trace') (Callback.submit config unitCodec
        { maker with currentParentId := some hashedId, operationCounter := counter }) trace := by
  have hbelow : ∀ {trace'}, trace <:+ trace' → ∀ q, some hashedId = some q →
      parent = some q ∨ Announced loaded trace' q := by
    rintro trace' hsuffix q ⟨⟩
    exact Or.inr (h.later hsuffix)
  refine Prog.Meets.andThen (places_draws (draws_createCallback ..) (hbelow List.suffix_rfl))
    (fun handle trace' hsuffix => ?_) fun _ _ h => h
  refine Prog.Meets.andThen ((places_submitterStep (hbelow hsuffix)).since hsuffix)
    (fun _ trace'' hsuffix => ?_) fun _ _ h => h
  exact (places_tame (only_await handle fun payload => Prog.only_ret (some payload))
    (hbelow hsuffix)).since hsuffix

/-! ## Batches -/

section

variable {spec : BatchSpec} {cfg : BatchConfig V} {stepId : String} {total n : Nat}

/-- The batch has drawn its number and is announced. -/
def Opened (loaded : Table) (ctx : ExecutionContext) (name : Option String) (n : Nat)
    (trace : List (Event V)) : Prop :=
  drawn trace = some n ∧ Announced loaded trace (callId ctx name n)

theorem Opened.later (h : Opened loaded ctx name n trace) (hsuffix : trace <:+ trace') :
    Opened loaded ctx name n trace' :=
  ⟨drawn_later h.1 hsuffix, h.2.later hsuffix⟩

theorem Opened.cons (h : Opened loaded ctx name n trace) (e : Effect V) (a : Answer e) :
    Opened loaded ctx name n (⟨e, a⟩ :: trace) :=
  h.later (List.suffix_cons _ _)

theorem places_spawnChildren (maker : ExecutionContext) (p : Batch.Progress V)
    (children : List (String × Nat)) (h : Opened loaded ctx name n trace) :
    Places loaded parent ctx name (fun trace' _ => Opened loaded ctx name n trace')
      (Batch.spawnChildren maker cfg total p children) trace := by
  induction children generalizing p trace with
  | nil => exact h
  | cons child rest ih =>
    obtain ⟨itemName, index⟩ := child
    unfold Batch.spawnChildren
    split
    · rw [nextOperationId_bind]
      refine ⟨trivial, fun counter _ => ?_⟩
      have hdrawn := h.cons (.fetchAdd maker.operationCounter) counter
      refine ⟨fun m hm => ?_, fun _ _ => ih _ (hdrawn.cons _ _)⟩
      obtain rfl : n = m := Option.some.inj (hdrawn.1.symm.trans hm)
      exact hdrawn.2
    · exact h

theorem places_complete (maker : ExecutionContext) (label : Option String) (hashedId : String)
    (p : Batch.Progress V) : Places loaded parent ctx name (fun _ _ => True)
      (Batch.complete spec maker label cfg stepId hashedId total p) trace :=
  Prog.Meets.mono (fun _ _ _ => trivial)
    (places_tame (only_complete ..) fun q (hq : none = some q) => by cases hq)

theorem places_runLoop (maker : ExecutionContext) (label : Option String) (hashedId : String)
    {afterLoop : Batch.Progress V → Act V (DurableResult (BatchResult V))}
    (hafter : ∀ p trace, Places loaded parent ctx name (fun _ _ => True) (afterLoop p) trace)
    (turns : Nat) (children : List (String × Nat)) (p : Batch.Progress V)
    (h : Opened loaded ctx name n trace) :
    Places loaded parent ctx name (fun _ _ => True)
      (Batch.runLoop spec maker label cfg stepId hashedId total afterLoop turns children p) trace := by
  induction turns generalizing children p trace with
  | zero => exact ⟨trivial, fun a => a.elim⟩
  | succ turns ih =>
    refine Prog.Meets.bind (places_spawnChildren maker p children h) fun spawned trace' h => ?_
    obtain ⟨rest, q⟩ := spawned
    dsimp only
    split
    · exact hafter _ _
    · refine ⟨trivial, fun joined _ => ?_⟩
      cases joined with
      | error message => trivial
      | ok result =>
        simp only [Batch.joined]
        split
        · split
          · exact places_complete ..
          · exact ⟨trivial, fun _ _ => places_complete ..⟩
        · exact ih _ _ (h.cons _ _)

theorem places_consumeIds (maker : ExecutionContext) (itemNames : List String) :
    Places loaded parent ctx name (fun trace' _ => trace <:+ trace')
      (Batch.consumeIds maker itemNames : Act V _) trace := by
  induction itemNames generalizing trace with
  | nil => exact List.suffix_rfl
  | cons itemName rest ih =>
    simp only [Batch.consumeIds, nextOperationId_bind]
    exact ⟨trivial, fun counter _ => ih.since (List.suffix_cons _ _)⟩

theorem places_batchReplay (maker : ExecutionContext) (label : Option String)
    (itemNames : List String) (hashedId : String) :
    Places loaded parent ctx name (fun trace' _ => trace <:+ trace')
      (Batch.evaluateReplay spec maker label cfg itemNames hashedId) trace := by
  have hcons : ∀ {trace'} (e : Effect V) (a : Answer e), trace <:+ trace' → trace <:+ ⟨e, a⟩ :: trace' :=
    fun e a h => h.trans (List.suffix_cons _ _)
  simp only [Batch.evaluateReplay, getStepData_bind, setMode_bind]
  refine ⟨trivial, fun operation _ => ?_⟩
  have hread := hcons (.getStepData hashedId) operation List.suffix_rfl
  cases operation with
  | none => exact hread
  | some op =>
    dsimp only
    split
    · exact hread
    · split
      · exact hread
      · split
        · split
          · exact hread
          · split <;> exact hread
        · refine Prog.Meets.bind ((places_tame (only_safeDeserializeRequired _ _ _)
            fun q (hq : none = some q) => by cases hq).since hread) fun batch trace' hsuffix => ?_
          split
          · exact hsuffix
          · exact Prog.Meets.bind ((places_consumeIds _ _).since hsuffix) fun _ _ h => h
    · exact ⟨rfl, fun _ _ => hcons (.setMode .execution) () hread⟩

theorem places_reconstructChildren (maker batch : ExecutionContext)
    (hbatch : ∀ q, batch.currentParentId = some q → q = callId ctx name n)
    (children : List (String × Nat)) (p : Batch.Progress V) (h : Opened loaded ctx name n trace) :
    Places loaded parent ctx name (fun _ _ => True)
      (Batch.reconstructChildren spec maker cfg batch children p) trace := by
  induction children generalizing p trace with
  | nil => trivial
  | cons child rest ih =>
    obtain ⟨itemName, index⟩ := child
    simp only [Batch.reconstructChildren, nextOperationId_bind, getStepData_bind]
    refine ⟨trivial, fun counter _ => ⟨trivial, fun operation _ => ?_⟩⟩
    have hread := (h.cons (.fetchAdd maker.operationCounter) counter).cons
      (.getStepData (maker.hashId (maker.operationId (some itemName) counter))) operation
    cases operation with
    | none => trivial
    | some op =>
      refine Prog.Meets.andThen (m := fun trace' _ => Opened loaded ctx name n trace') ?_
        (fun q trace' h => ih q h) fun _ _ _ => trivial
      unfold Batch.reconstructChild
      split
      · split
        · refine Prog.Meets.bind (places_childContext (fun q hq => ?_) fun counter trace' =>
            places_userContext counter) fun r trace' hsuffix => hread.later hsuffix
          rw [hbatch q hq]
          exact Or.inr hread.2
        · refine Prog.Meets.bind (places_tame (only_safeDeserialize _ _ _)
            fun q (hq : none = some q) => by cases hq) fun val trace' hsuffix => ?_
          cases val <;> exact hread.later hsuffix
      · exact hread
      · exact hread

theorem places_mapExecution (itemNames : List String) (hashedId : String)
    (h : Opened loaded ctx name n trace) : Places loaded parent ctx name (fun _ _ => True)
      (Batch.runMapExecution ctx name cfg itemNames stepId hashedId) trace := by
  unfold Batch.runMapExecution
  split
  · exact places_complete ..
  · refine places_runLoop ctx name _ (fun _ _ => ?_) _ _ _ h
    exact ⟨trivial, fun a => a.elim⟩

theorem places_run (itemNames : List String)
    {execute : String → String → Act V (DurableResult (BatchResult V))}
    (hexecute : ∀ n trace, Opened loaded ctx name n trace → Places loaded ctx.currentParentId ctx name
      (fun _ _ => True) (execute (ctx.operationId name n) (callId ctx name n)) trace) :
    Places loaded ctx.currentParentId ctx name (fun _ _ => True)
      (Batch.run spec ctx name cfg itemNames execute) [] := by
  unfold Batch.run
  split
  · trivial
  · simp only [getMode_bind, nextOperationId_bind, getStepData_bind]
    refine ⟨trivial, fun mode _ => ⟨trivial, fun n _ => ⟨trivial, fun operation hop => ?_⟩⟩⟩
    obtain rfl : operation = loaded (callId ctx name n) := hop
    refine Prog.Meets.andThen (places_started (callId ctx name n) rfl rfl fun q hq => Or.inl hq)
      (fun _ trace' h => ?_) fun _ _ _ => trivial
    have hopened : Opened loaded ctx name n trace' := ⟨drawn_later rfl h.1, h.2 rfl⟩
    cases mode with
    | execution => exact hexecute n trace' hopened
    | replay =>
      refine Prog.Meets.andThen (places_batchReplay ctx name itemNames _) (fun decision trace'' hsuffix => ?_)
        fun _ _ _ => trivial
      have hopened := hopened.later hsuffix
      cases decision with
      | «return» result => trivial
      | «continue» => exact hexecute n trace'' hopened
      | reconstruct totalCount =>
        simp only [Batch.reconstructFromChildren, withParentId_bind]
        split
        · trivial
        · refine ⟨trivial, fun counter _ => ?_⟩
          refine Prog.Meets.andThen (places_reconstructChildren ctx _ (fun q hq => ?_) _ _
            (hopened.cons .newCounter counter)) (fun _ _ _ => trivial) fun _ _ _ => trivial
          exact (Option.some.inj hq).symm

end

/-- Every task sends its updates below a known operation, and makes contexts for such only. -/
theorem places_call (call : DurableCall V I) :
    Places loaded ctx.currentParentId ctx name (fun _ _ => True) (call.run ctx name) [] := by
  have hown : ∀ q, ctx.currentParentId = some q →
      ctx.currentParentId = some q ∨ Announced loaded ([] : List (Event V)) q := fun _ => Or.inl
  cases call with
  | step config => exact places_returning (places_draws (draws_step ..) hown)
  | wait duration => exact places_returning (places_draws (draws_wait ..) hown)
  | waitForCondition config => exact places_returning (places_draws (draws_waitForCondition ..) hown)
  | callback config codec =>
    refine places_returning (places_draws ((draws_createCallback ..).returning fun handle => ?_) hown)
    exact only_await handle fun payload => only_safeDeserialize _ _ _
  | callbackRaw config codec =>
    refine places_returning (places_draws ((draws_createCallback ..).returning fun handle => ?_) hown)
    exact only_await handle fun payload => Prog.only_ret (some payload)
  | waitForCallback config unitCodec rawCodec =>
    refine places_returning (m := fun _ _ => True) ?_
    refine ⟨trivial, fun n _ => ⟨trivial, fun operation _ => ?_⟩⟩
    refine Prog.Meets.andThen (places_tame (only_callbackReplay ..) fun q (hq : none = some q) => by cases hq)
      (fun replayed trace hsuffix => ?_) fun _ _ _ => trivial
    cases replayed with
    | some result => trivial
    | none =>
      refine Prog.Meets.andThen (places_childContext (fun q hq => Or.inl hq) fun counter trace' h _ =>
        places_submit config unitCodec counter h) (fun payload trace' _ => ?_) fun _ _ _ => trivial
      refine Prog.Meets.bind (places_tame (only_safeDeserialize _ _ _)
        fun q (hq : none = some q) => by cases hq) fun val trace' _ => ?_
      cases val <;> trivial
  | invoke functionId input config => exact places_returning (places_draws (draws_invoke ..) hown)
  | runInChildContext config =>
    refine places_returning (m := fun _ _ => True) ⟨trivial, fun n _ => ?_⟩
    exact (places_childContext (fun q hq => Or.inl hq) fun counter trace' =>
      places_userContext counter).mono fun _ _ _ => trivial
  | map items config =>
    exact places_returning (places_run _ fun n trace h => places_mapExecution _ _ h)
  | parallel branches config =>
    refine places_returning (places_run _ fun n trace h => ?_)
    exact places_runLoop ctx name _ (fun _ _ => places_complete ..) _ _ _ h

/-- So does a child of a batch, below the batch. -/
theorem places_runChild (spec : BatchSpec) (cfg : BatchConfig V)
    (batchHashedId childStepId childHashedId itemName : String) :
    Places loaded (some batchHashedId) { ctx with currentParentId := some batchHashedId } name
      (fun _ _ => True) (returning .value (Batch.runChild spec ctx cfg batchHashedId childStepId
        childHashedId itemName) : Act V (DurableResult (Output V))) [] := by
  refine places_returning (m := fun _ _ => True) ?_
  simp only [Batch.runChild, withParentId_bind]
  refine ⟨trivial, fun counter _ => ?_⟩
  exact Prog.Meets.mono (fun _ _ _ => trivial)
    (places_childContext (fun q hq => Or.inl (by exact hq)) fun counter trace' =>
      places_userContext counter)

end

/-! ## The tasks of an invocation -/

namespace Tasks

variable {token : String} {loaded : Table} {root : ExecutionContext} {s : State V I} {t : Nat}
  {task : Task V I} {allow : State V I → Label V I → Prop}

theorem places_start (h : (machine token loaded root).ReachableBy allow s) (htask : task ∈ s.tasks) :
    Places loaded task.ctx.currentParentId task.ctx task.origin.name (fun _ _ => True) task.start
      [] := by
  refine h.invariant (I := fun s => ∀ task ∈ s.tasks, Places loaded task.ctx.currentParentId task.ctx
    task.origin.name (fun _ _ => True) task.start []) ?_ ?_ task htask
  · rintro _ ⟨-, mode, rfl⟩ task htask
    cases htask
  · intro s l s' _ hs _ hstep task' hmem
    obtain ⟨task, htask, hsame⟩ | hnew := (move_of_step hstep).grows.mem hmem
    · rw [hsame.ctx, hsame.origin, hsame.start]
      exact hs task htask
    · obtain ⟨_, name, call, ctx, -, -, rfl⟩ | ⟨_, task, e, -, -, hspawned⟩ := mem_started hnew
      · exact places_call call
      · obtain ⟨_, _, _, _, spec, cfg, hashedId, -, -, rfl⟩ := mem_spawned hspawned
        exact places_runChild ..

theorem placed (h : (machine token loaded root).ReachableBy allow s) (htask : s.tasks[t]? = some task)
    {e : Effect V} (he : nextEffect task.program = some e) :
    Placed loaded task.ctx.currentParentId task.ctx task.origin.name task.trace e := by
  have hview : (Call.machine token loaded task.start).ReachableBy (fun _ _ => True) (s.view task) :=
    view_reachableBy (fun _ _ _ _ _ _ => trivial) h htask
  have hmeets := Call.meets_of_reachableBy (respects_answers loaded _)
    (places_start h (List.mem_of_getElem? htask)) hview
  cases hprogram : task.program with
  | ret r =>
    rw [hprogram] at he
    cases he
  | act e' k =>
    rw [hprogram] at he
    obtain rfl := Option.some.inj he
    have hprogram' : (s.view task).program = .act e' k := hprogram
    rw [hprogram'] at hmeets
    exact hmeets.1

end Tasks

end LambdaDurable
