import LambdaDurable.Context.Agreement
import LambdaDurable.Context.Schedule

/-!
# When a batch starts a child

A batch starts the next child only while there is room and while it is not over. It returns
what its children have given, unless it has read the result from its record.
-/

namespace LambdaDurable

open Effects Call

variable {V I T S : Type}

namespace Launching

/-- A child that is joined was spawned and not joined before. -/
def Joins (trace : List (Event V)) : (e : Effect V) → Answer e → Prop
  | .joinNext, .ok (index, _) => index ∈ (Batch.progress trace).started
  | _, _ => True

/-- A child is spawned after the batch has drawn its own number, in its turn, and when
another may be spawned. -/
def Launches (cfg : BatchConfig V) (totalItems : Nat) (trace : List (Event V)) : Effect V → Prop
  | .spawn index _ _ _ => (drawn trace).isSome ∧ index = (Batch.progress trace).indices.length ∧
      index < totalItems ∧ Batch.maySpawn cfg totalItems (Batch.progress trace) = true
  | _ => True

def Spawning (loaded : Table) (cfg : BatchConfig V) (totalItems : Nat)
    (post : List (Event V) → S → Prop) (p : Act V S) (trace : List (Event V)) : Prop :=
  p.Meets (traced (fun trace e a => Answers loaded e a ∧ Joins trace e a) (Launches cfg totalItems))
    post trace

/-- The call has drawn `n` for itself and spawned `k` children. -/
structure Spawned (n k : Nat) (trace : List (Event V)) : Prop where
  own : drawn trace = some n
  count : (Batch.progress trace).indices.length = k

/-- A batch that is returned is one that is over, with what its children have given. -/
def Completes (cfg : BatchConfig V) (totalItems : Nat) (trace : List (Event V))
    (r : DurableResult (BatchResult V)) : Prop :=
  ∀ result, r = .ok result → Batch.isOver cfg totalItems (Batch.progress trace) = true ∧
    result = (Batch.progress trace).result cfg.completionConfig totalItems

/-- Neither spawns nor joins. -/
def Idle : Effect V → Prop
  | .spawn _ _ _ _ | .joinNext => False
  | _ => True

section

variable {loaded : Table} {spec : BatchSpec} {ctx : ExecutionContext} {name : Option String}
  {cfg : BatchConfig V} {itemNames : List String} {trace : List (Event V)} {n k totalItems : Nat}
  {stepId hashedId : String}

theorem Spawned.idle (h : Spawned n k trace) {e : Effect V} (he : Idle e) (a : Answer e) :
    Spawned n k (⟨e, a⟩ :: trace) := by
  constructor
  · simp [drawn, h.own]
  · have hsame : Batch.progress (⟨e, a⟩ :: trace) = Batch.progress trace := by
      cases e <;> first | rfl | exact he.elim
    rw [hsame, h.count]

theorem launches_idle {e : Effect V} (he : Idle e) (trace : List (Event V)) :
    Launches cfg totalItems trace e := by
  cases e <;> trivial

theorem spawning_idle {p : Act V S} (hp : p.Only Idle) (h : Spawned n k trace) :
    Spawning loaded cfg totalItems
      (fun trace' _ => Spawned n k trace' ∧ Batch.progress trace' = Batch.progress trace) p trace := by
  refine Prog.Only.meets (R := fun trace' => Spawned n k trace' ∧
    Batch.progress trace' = Batch.progress trace) hp (fun trace' e _ he => launches_idle he trace')
    (fun trace' e a hr he _ => ⟨hr.1.idle he a, ?_⟩) ⟨h, rfl⟩
  rw [← hr.2]
  cases e <;> first | rfl | exact he.elim

theorem Spawned.join (h : Spawned n k trace) {index : Nat} {r : DurableResult V}
    (hindex : index ∈ (Batch.progress trace).started) :
    Spawned n k (⟨.joinNext, .ok (index, r)⟩ :: trace) where
  own := by
    simp [drawn, h.own]
  count := by
    rw [← h.count]
    exact (Batch.indices_join _ hindex r).length_eq

theorem Spawned.spawn (h : Spawned n k trace) (index : Nat) (stepId hashedId itemName : String) :
    Spawned n (k + 1) (⟨.spawn index stepId hashedId itemName, ()⟩ :: trace) where
  own := by
    simp [drawn, h.own]
  count := by
    rw [← h.count]
    simp only [Batch.progress, Batch.Progress.after, Batch.Progress.indices, List.length_append,
      List.length_singleton]
    omega

theorem spawning_spawnChildren (h : Spawned n k trace) (hk : k ≤ itemNames.length) :
    Spawning loaded cfg itemNames.length
      (fun trace' out => ∃ k', Spawned n k' trace' ∧ k' ≤ itemNames.length ∧
        (k' = itemNames.length ∨ Batch.maySpawn cfg itemNames.length (Batch.progress trace') = false) ∧
        out = (itemNames.zipIdx.drop k', Batch.progress trace'))
      (Batch.spawnChildren ctx cfg itemNames.length (Batch.progress trace) (itemNames.zipIdx.drop k))
      trace := by
  generalize hchildren : itemNames.zipIdx.drop k = children
  induction children generalizing k trace with
  | nil =>
    have hall : k = itemNames.length := by
      have hle := List.drop_eq_nil_iff.mp hchildren
      rw [List.length_zipIdx] at hle
      omega
    exact ⟨k, h, hk, Or.inl hall, by rw [hchildren]⟩
  | cons child rest ih =>
    obtain ⟨itemName, index⟩ := child
    obtain ⟨rfl, hitem, rfl⟩ := drop_zipIdx hchildren
    have hlt : index < itemNames.length := (List.getElem?_eq_some_iff.mp hitem).1
    unfold Batch.spawnChildren
    split
    · rename_i hmay
      rw [nextOperationId_bind]
      refine ⟨trivial, fun m _ => ?_⟩
      have hdrawn : Spawned n index (⟨.fetchAdd ctx.operationCounter, m⟩ :: trace) :=
        h.idle (e := .fetchAdd ctx.operationCounter) trivial m
      refine ⟨⟨Option.isSome_of_eq_some hdrawn.own, hdrawn.count.symm, hlt, hmay⟩, fun _ _ => ?_⟩
      exact ih (hdrawn.spawn index _ _ itemName) hlt rfl
    · rename_i hmay
      exact ⟨index, h, hk, Or.inr (by simpa using hmay), by rw [hchildren]⟩

theorem spawning_complete (trace : List (Event V))
    (hover : Batch.isOver cfg totalItems (Batch.progress trace) = true) :
    Spawning loaded cfg totalItems (Completes cfg totalItems)
      (Batch.complete spec ctx name cfg stepId hashedId totalItems (Batch.progress trace)) trace := by
  simp only [Batch.complete, safeSerializeRequiredWithSerdes]
  split
  · rw [Prog.ret_bind, checkpoint_of_build (Batch.succeedUpdate_buildable ..), Prog.act_andThen]
    refine ⟨trivial, fun r hr => ?_⟩
    obtain rfl : r = .ok () := hr.1
    intro result hresult
    exact ⟨hover, (Except.ok.inj hresult).symm⟩
  · rw [terminateForSerdesFailure, suspend_bind]
    exact ⟨trivial, fun _ _ => ⟨trivial, fun a => a.elim⟩⟩
  · rw [terminateForSerdesFailure, suspend_bind]
    exact ⟨trivial, fun _ _ => ⟨trivial, fun a => a.elim⟩⟩

theorem isOver_of_idle (h : Spawned n k trace) (hnone : (Batch.progress trace).started = [])
    (hstop : k = totalItems ∨ Batch.maySpawn cfg totalItems (Batch.progress trace) = false) :
    Batch.isOver cfg totalItems (Batch.progress trace) = true := by
  have hcount := h.count
  rw [Batch.length_indices, hnone, List.length_nil, Nat.add_zero] at hcount
  unfold Batch.isOver
  obtain hall | hstop := hstop
  · simp [hcount, hall]
  · have hroom : 0 < max (cfg.maxConcurrency.getD (max totalItems 1)) 1 := by omega
    simp only [Batch.maySpawn, hnone, List.length_nil, hroom, decide_true, Bool.true_and,
      Bool.and_eq_false_iff, Bool.not_eq_false'] at hstop
    rcases hstop with hstop | hstop <;> simp [hstop]

theorem spawning_runLoop
    {afterLoop : Batch.Progress V → Act V (DurableResult (BatchResult V))}
    (hafter : ∀ trace, Batch.isOver cfg itemNames.length (Batch.progress trace) = true →
      Spawning loaded cfg itemNames.length (Completes cfg itemNames.length)
        (afterLoop (Batch.progress trace)) trace)
    (turns : Nat) (h : Spawned n k trace) (hk : k ≤ itemNames.length) :
    Spawning loaded cfg itemNames.length (Completes cfg itemNames.length)
      (Batch.runLoop spec ctx name cfg stepId hashedId itemNames.length afterLoop turns
        (itemNames.zipIdx.drop k) (Batch.progress trace)) trace := by
  induction turns generalizing k trace with
  | zero => exact ⟨trivial, fun a => a.elim⟩
  | succ turns ih =>
    apply Prog.Meets.bind (spawning_spawnChildren h hk)
    rintro out trace' ⟨k', h, hk, hstop, rfl⟩
    dsimp only
    split
    · rename_i hnone
      exact hafter trace' (isOver_of_idle h hnone hstop)
    · refine ⟨trivial, fun joined hjoined => ?_⟩
      cases joined with
      | error message =>
        rintro result ⟨⟩
      | ok joined =>
        obtain ⟨index, r⟩ := joined
        have h := h.join (r := r) hjoined.2
        simp only [Batch.joined]
        split
        · rename_i hover
          split
          · exact spawning_complete (⟨.joinNext, .ok (index, r)⟩ :: trace') hover
          · exact ⟨trivial, fun u _ => spawning_complete
              (⟨.abortAll, u⟩ :: ⟨.joinNext, .ok (index, r)⟩ :: trace') hover⟩
        · exact ih h hk

theorem spawning_mapExecution (h : Spawned n 0 trace) (hstart : Batch.progress trace = {}) :
    Spawning loaded cfg itemNames.length (Completes cfg itemNames.length)
      (Batch.runMapExecution ctx name cfg itemNames stepId hashedId) trace := by
  unfold Batch.runMapExecution
  split
  · rename_i hempty
    have hover : Batch.isOver cfg itemNames.length (Batch.progress trace) = true := by
      rw [hstart, hempty]
      rfl
    have hcomplete := @spawning_complete V loaded Batch.map ctx name cfg itemNames.length stepId
      hashedId trace hover
    rw [hempty] at hcomplete ⊢
    rwa [hstart] at hcomplete
  · rw [← hstart]
    apply spawning_runLoop ?_ _ h (Nat.zero_le _)
    exact fun _ _ => ⟨trivial, fun a => a.elim⟩

theorem spawning_parallelExecution (h : Spawned n 0 trace) (hstart : Batch.progress trace = {}) :
    Spawning loaded cfg itemNames.length (Completes cfg itemNames.length)
      (Batch.runParallelExecution ctx name cfg itemNames stepId hashedId) trace := by
  unfold Batch.runParallelExecution
  rw [← hstart]
  exact spawning_runLoop (fun _ hover => spawning_complete _ hover) _ h (Nat.zero_le _)

/-! ## Replay -/

theorem idle_of_tame {parent : Option String} {p : Act V S} (h : p.Only (Tame parent)) : p.Only Idle := by
  apply h.mono
  intro e he
  cases e <;> trivial

theorem idle_consumeIds (names : List String) : (Batch.consumeIds ctx names : Act V _).Only Idle := by
  induction names with
  | nil => trivial
  | cons name rest ih => exact ⟨trivial, fun _ => ih⟩

theorem idle_succeeded (payload : String) :
    (if Batch.isSummary spec (cfg.parseJson payload) then
      match Batch.summaryTotal (cfg.parseJson payload) with
      | none => .ret (.ok .continue)
      | some totalCount =>
        if totalCount > itemNames.length then
          .ret (.error (Batch.tooMany spec itemNames.length totalCount))
        else .ret (.ok (.reconstruct totalCount))
    else do
      let batch ← safeDeserializeRequiredWithSerdes cfg.batchSerdes payload (ctx.site hashedId name)
      if Batch.targetTotalCount batch > itemNames.length then
        .ret (.error (Batch.tooMany spec itemNames.length (Batch.targetTotalCount batch)))
      else do
        Batch.consumeIds ctx (itemNames.take (Batch.targetTotalCount batch))
        .ret (.ok (.return batch)) : Act V (DurableResult (Batch.ReplayDecision V))).Only Idle := by
  split
  · split
    · trivial
    · split <;> trivial
  · apply Prog.only_bind
    · unfold safeDeserializeRequiredWithSerdes
      split
      · trivial
      · exact idle_of_tame (@only_suspend V _ none _)
      · exact idle_of_tame (@only_suspend V _ none _)
    · intro batch
      split
      · trivial
      · exact Prog.only_bind (idle_consumeIds _) fun _ => trivial

/-- Replay spawns nothing, and it is of use only where a Succeeded record is loaded. -/
theorem spawning_evaluateReplay (h : Spawned n 0 trace) :
    Spawning loaded cfg totalItems
      (fun trace' r => (Spawned n 0 trace' ∧ Batch.progress trace' = Batch.progress trace) ∧
        ((∃ op, loaded hashedId = some op ∧ op.status = .succeeded) ∨ r = .ok .continue ∨
          ∃ e, r = .error e))
      (Batch.evaluateReplay spec ctx name cfg itemNames hashedId) trace := by
  unfold Batch.evaluateReplay
  rw [getStepData_bind]
  refine ⟨trivial, fun operation hop => ?_⟩
  have hop : operation = loaded hashedId := hop.1
  have hread : Spawned n 0 (⟨.getStepData hashedId, operation⟩ :: trace) :=
    h.idle (e := .getStepData hashedId) trivial operation
  cases operation with
  | none => exact ⟨⟨hread, rfl⟩, Or.inr (Or.inl rfl)⟩
  | some op =>
    dsimp only
    split
    · exact ⟨⟨hread, rfl⟩, Or.inr (Or.inr ⟨_, rfl⟩)⟩
    · rename_i hstatus
      have hrecord : ∃ op, loaded hashedId = some op ∧ op.status = .succeeded := ⟨op, hop.symm, hstatus⟩
      split
      · exact ⟨⟨hread, rfl⟩, Or.inl hrecord⟩
      · exact Prog.Meets.mono (fun _ _ hsame => ⟨hsame, Or.inl hrecord⟩)
          (spawning_idle (idle_succeeded _) hread)
    · refine ⟨trivial, fun u _ => ⟨⟨?_, rfl⟩, Or.inr (Or.inl rfl)⟩⟩
      exact hread.idle (e := .setMode .execution) trivial u

theorem idle_runInChildContextWithIds (ctx : ExecutionContext) (stepId hashedId : String)
    (name : Option String) (config : ChildContextConfig V) :
    (ctx.runInChildContextWithIds stepId hashedId name userContext config : Act V _).Only Idle := by
  refine ⟨trivial, fun operation => ?_⟩
  apply Prog.only_andThen (idle_of_tame (@only_childReplay V _ none _ _ _ _ _ _))
  rintro (val | _ | _)
  · trivial
  · exact ⟨trivial, fun _ => ⟨trivial, fun _ => trivial⟩⟩
  · refine ⟨trivial, fun recorded => ?_⟩
    apply Prog.only_andThen
    · cases recorded with
      | none => exact idle_of_tame (only_checkpoint _ _ fun _ h => h)
      | some _ => trivial
    · intro _
      refine ⟨trivial, fun _ => ⟨trivial, fun outcome => ?_⟩⟩
      exact idle_of_tame (only_finishChild _ _ _ _ _ _ _)

theorem idle_reconstructChildren (parent : ExecutionContext) (children : List (String × Nat))
    (p : Batch.Progress V) : (Batch.reconstructChildren spec ctx cfg parent children p).Only Idle := by
  induction children generalizing p with
  | nil => trivial
  | cons child rest ih =>
    obtain ⟨itemName, index⟩ := child
    refine ⟨trivial, fun _ => ⟨trivial, fun operation => ?_⟩⟩
    cases operation with
    | none => trivial
    | some op =>
      apply Prog.only_andThen _ fun p => ih p
      unfold Batch.reconstructChild
      split
      · split
        · exact Prog.only_bind (idle_runInChildContextWithIds _ _ _ _ _) fun _ => trivial
        · apply Prog.only_bind (idle_of_tame (@only_safeDeserialize V _ none _ _ _))
          rintro (_ | v) <;> trivial
      · trivial
      · trivial

theorem idle_reconstruct (totalCount : Nat) :
    (Batch.reconstructFromChildren spec ctx cfg itemNames hashedId totalCount).Only Idle := by
  unfold Batch.reconstructFromChildren
  split
  · trivial
  · exact ⟨trivial, fun _ => Prog.only_andThen (idle_reconstructChildren _ _ _) fun _ => trivial⟩

/-! ## The call -/

/-- A batch that is returned was read from a Succeeded record, with no child started, or it is
what the children have given. -/
def Gives (loaded : Table) (ctx : ExecutionContext) (name : Option String) (cfg : BatchConfig V)
    (totalItems : Nat) (trace : List (Event V)) (r : DurableResult (BatchResult V)) : Prop :=
  ∀ result, r = .ok result →
    (∃ n op, drawn trace = some n ∧ loaded (callId ctx name n) = some op ∧ op.status = .succeeded ∧
      Batch.progress trace = {}) ∨
    Batch.isOver cfg totalItems (Batch.progress trace) = true ∧
      result = (Batch.progress trace).result cfg.completionConfig totalItems

theorem spawning_run {execute : String → String → Act V (DurableResult (BatchResult V))}
    (hexecute : ∀ n stepId hashedId trace, Spawned n 0 trace → Batch.progress trace = {} →
      Spawning loaded cfg itemNames.length (Completes cfg itemNames.length)
        (execute stepId hashedId) trace) :
    Spawning loaded cfg itemNames.length (Gives loaded ctx name cfg itemNames.length)
      (Batch.run spec ctx name cfg itemNames execute) [] := by
  unfold Batch.run
  split
  · rintro result ⟨⟩
  simp only [getMode_bind, nextOperationId_bind, getStepData_bind]
  refine ⟨trivial, fun mode _ => ⟨trivial, fun n _ => ⟨trivial, fun operation _ => ?_⟩⟩⟩
  have h : Spawned n 0 [⟨.getStepData (callId ctx name n), operation⟩,
      ⟨.fetchAdd ctx.operationCounter, n⟩, (⟨.getMode, mode⟩ : Event V)] := ⟨rfl, rfl⟩
  refine Prog.Meets.andThen (m := fun trace' _ => Spawned n 0 trace' ∧ Batch.progress trace' = {}) ?_ ?_ ?_
  · apply spawning_idle ?_ h
    cases operation with
    | none => exact idle_of_tame (only_checkpoint _ _ fun _ h => h)
    | some _ => trivial
  · intro u trace' hstart
    obtain ⟨hopen, hstart⟩ := hstart
    have hrun : ∀ trace', Spawned n 0 trace' → Batch.progress trace' = {} →
        Spawning loaded cfg itemNames.length (Gives loaded ctx name cfg itemNames.length)
          (execute (ctx.operationId name n) (callId ctx name n)) trace' := fun trace' h hstart =>
      Prog.Meets.mono (fun _ _ hdone result hresult => Or.inr (hdone result hresult))
        (hexecute n _ _ trace' h hstart)
    cases mode with
    | execution => exact hrun trace' hopen hstart
    | replay =>
      refine Prog.Meets.andThen (spawning_evaluateReplay hopen) ?_ ?_
      rotate_left
      · rintro e later - result ⟨⟩
      rintro decision trace'' ⟨⟨h, hsame⟩, hdecided⟩
      have hread : (∃ op, loaded (callId ctx name n) = some op ∧ op.status = .succeeded) →
          ∀ {p : Act V (DurableResult (BatchResult V))}, p.Only Idle →
          Spawning loaded cfg itemNames.length (Gives loaded ctx name cfg itemNames.length) p trace'' := by
        rintro ⟨op, hop, hstatus⟩ p hp
        refine Prog.Meets.mono ?_ (spawning_idle hp h)
        rintro later r ⟨h', hsame'⟩ result -
        exact Or.inl ⟨n, op, h'.own, hop, hstatus, hsame'.trans (hsame.trans hstart)⟩
      cases decision with
      | «return» result =>
        obtain hrecord | hdecided | ⟨e, hdecided⟩ := hdecided
        · exact hread hrecord trivial
        · cases hdecided
        · cases hdecided
      | reconstruct totalCount =>
        obtain hrecord | hdecided | ⟨e, hdecided⟩ := hdecided
        · exact hread hrecord (idle_reconstruct totalCount)
        · cases hdecided
        · cases hdecided
      | «continue» => exact hrun trace'' h (hsame.trans hstart)
  · rintro e trace' - result ⟨⟩

theorem spawning_call {call : DurableCall V I} (hcall : call.batch name = some (spec, cfg, itemNames)) :
    Spawning loaded cfg itemNames.length
      (fun trace r => ∃ r', Gives loaded ctx name cfg itemNames.length trace r' ∧ r = r'.map Output.batch)
      (call.run ctx name) [] := by
  have hreturning : ∀ {p : Act V (DurableResult (BatchResult V))},
      Spawning loaded cfg itemNames.length (Gives loaded ctx name cfg itemNames.length) p [] →
      Spawning loaded cfg itemNames.length
        (fun trace r => ∃ r', Gives loaded ctx name cfg itemNames.length trace r' ∧
          r = r'.map Output.batch) (returning Output.batch p) [] := by
    intro p hp
    exact Prog.Meets.andThen hp (fun a _ hgives => ⟨.ok a, hgives, rfl⟩)
      fun e _ hgives => ⟨.error e, hgives, rfl⟩
  unfold DurableCall.batch at hcall
  split at hcall
  · obtain ⟨rfl, rfl, rfl⟩ : _ ∧ _ ∧ _ := by simpa using hcall
    rw [DurableCall.run, map_eq_run]
    exact hreturning (spawning_run fun n _ _ trace h hstart => spawning_mapExecution h hstart)
  · obtain ⟨rfl, rfl, rfl⟩ : _ ∧ _ ∧ _ := by simpa using hcall
    exact hreturning (spawning_run fun n _ _ trace h hstart => spawning_parallelExecution h hstart)
  · cases hcall

end

end Launching

end LambdaDurable
