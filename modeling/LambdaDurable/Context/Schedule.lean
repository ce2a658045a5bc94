import LambdaDurable.Context.Progress
import LambdaDurable.Types.Tolerance

/-!
# `map` and `parallel` under one schedule

The loops of the two operations are copies of one another. A schedule says which of the
children in flight ends next, and how each child ends.
-/

namespace LambdaDurable

open Effects Call

variable {V : Type}

structure Schedule (V : Type) where
  next : Batch.Progress V → Nat
  outcome : Nat → DurableResult V
  inFlight : ∀ p : Batch.Progress V, p.started ≠ [] → next p ∈ p.started

namespace Schedule

variable (σ : Schedule V)

/-- The checkpoints succeed, no child panics, and the children end as the schedule says. -/
def Answers (trace : List (Event V)) : (e : Effect V) → Answer e → Prop
  | .joinNext, a =>
    a = .ok (σ.next (Batch.progress trace), σ.outcome (σ.next (Batch.progress trace)))
  | .checkpoint _ _, a => a = .ok ()
  | _, _ => True

/-- It is never reached by falling out of the loop, and never left waiting, unless the result
cannot be encoded. -/
def Allows (cfg : BatchConfig V) (site : SerdesSite) (result : BatchResult V)
    (_ : List (Event V)) : Effect V → Prop
  | .panic _ => False
  | .pending => ∀ payload, cfg.batchSerdes.serialize (some result) site.context ≠ .ok (some payload)
  | _ => True

/-- Whatever else the surroundings answer, the program ends with the result. -/
def Delivers (cfg : BatchConfig V) (site : SerdesSite) (result : BatchResult V)
    (trace : List (Event V)) (p : Act V (DurableResult (BatchResult V))) : Prop :=
  p.Meets (traced σ.Answers (Allows cfg site result)) (fun _ r => r = .ok result) trace

end Schedule

namespace Batch

variable {ctx : ExecutionContext} {name : Option String} {cfg : BatchConfig V}
  {itemNames : List String} {stepId hashedId : String} {spec : BatchSpec} {σ : Schedule V}
  {p : Progress V} {n k : Nat} {trace : List (Event V)}

/-! ## One turn of the loop -/

/-- All that the loop reads of a batch. -/
structure Loops (config : CompletionConfig) (maxConcurrency : Option Nat) (n : Nat)
    (cfg : BatchConfig V) (itemNames : List String) : Prop where
  config : cfg.completionConfig = config
  maxConcurrency : cfg.maxConcurrency = maxConcurrency
  length : itemNames.length = n

section

variable (config : CompletionConfig) (maxConcurrency : Option Nat) (n : Nat)

def spawnable (p : Progress V) : Bool :=
  p.started.length < max (maxConcurrency.getD (max n 1)) 1 &&
    config.shouldContinueBatch p.failures.length n &&
    !config.minSuccessful.any (p.successes.length ≥ ·)

def finished (p : Progress V) : Bool :=
  p.completedCount == n || config.minSuccessful.any (p.successes.length ≥ ·) ||
    !config.shouldContinueBatch p.failures.length n

/-- The next index and the progress after the inner loop; `left` children are still to come. -/
def fill : (left k : Nat) → Progress V → Nat × Progress V
  | 0, k, p => (k, p)
  | left + 1, k, p =>
    if spawnable config maxConcurrency n p then
      fill left (k + 1) { p with started := p.started ++ [k] }
    else (k, p)

end

variable {config : CompletionConfig} {maxConcurrency : Option Nat}

/-- The inner loop joins nothing, and what it spawns is in flight. -/
structure Fills (left k : Nat) (p : Progress V) (k' : Nat) (p' : Progress V) : Prop where
  successes : p'.successes = p.successes
  failures : p'.failures = p.failures
  lower : k ≤ k'
  upper : k' ≤ k + left
  started : p'.started.length = p.started.length + (k' - k)

theorem fill_fills (config : CompletionConfig) (maxConcurrency : Option Nat) (n left k : Nat)
    (p : Progress V) :
    Fills left k p (fill config maxConcurrency n left k p).1
      (fill config maxConcurrency n left k p).2 := by
  induction left generalizing k p with
  | zero => exact ⟨rfl, rfl, Nat.le_refl _, Nat.le_refl _, by simp [fill]⟩
  | succ left ih =>
    unfold fill
    split
    · have h := ih (k + 1) { p with started := p.started ++ [k] }
      have hlower := h.lower
      have hupper := h.upper
      have hstarted := h.started
      simp only [List.length_append, List.length_singleton] at hstarted
      exact ⟨h.successes, h.failures, by omega, by omega, by omega⟩
    · exact ⟨rfl, rfl, Nat.le_refl _, by omega, by simp⟩

theorem fill_started_ne_nil {left : Nat} (hleft : 0 < left) (hover : finished config n p = false)
    (k : Nat) : (fill config maxConcurrency n left k p).2.started ≠ [] := by
  have hfills := fill_fills config maxConcurrency n left k p
  intro hnil
  have hnone : p.started.length = 0 := by
    have hlength := hfills.started
    rw [hnil, List.length_nil] at hlength
    omega
  have hspawnable : spawnable config maxConcurrency n p = true := by
    simp only [finished, Bool.or_eq_false_iff, Bool.not_eq_false'] at hover
    simp only [spawnable, hnone, hover.1.2, hover.2, Bool.not_false, Bool.and_true,
      decide_eq_true_eq]
    omega
  obtain ⟨left, rfl⟩ := Nat.exists_eq_succ_of_ne_zero hleft.ne'
  rw [fill, if_pos hspawnable] at hnil
  have hlater := (fill_fills config maxConcurrency n left (k + 1)
    { p with started := p.started ++ [k] }).started
  rw [hnil] at hlater
  simp only [List.length_nil, List.length_append, List.length_singleton] at hlater
  omega

theorem maySpawn_eq (hcfg : Loops config maxConcurrency n cfg itemNames) (p : Progress V) :
    maySpawn cfg n p = spawnable config maxConcurrency n p := by
  rw [maySpawn, hcfg.config, hcfg.maxConcurrency, spawnable]

theorem isOver_eq (hcfg : Loops config maxConcurrency n cfg itemNames) (p : Progress V) :
    isOver cfg n p = finished config n p := by
  rw [isOver, hcfg.config, finished]

variable {answers : List (Event V) → (e : Effect V) → Answer e → Prop}
  {allows : List (Event V) → Effect V → Prop}

theorem meets_spawnChildren (hcfg : Loops config maxConcurrency n cfg itemNames)
    (hfetch : ∀ trace c, allows trace (.fetchAdd c))
    (hspawn : ∀ trace i stepId hashedId itemName, allows trace (.spawn i stepId hashedId itemName))
    {left : Nat} (hleft : k + left = n) (htrace : progress trace = p) :
    (spawnChildren ctx cfg n p (itemNames.zipIdx.drop k)).Meets (traced answers allows)
      (fun trace' out => progress trace' = (fill config maxConcurrency n left k p).2 ∧
        out = (itemNames.zipIdx.drop (fill config maxConcurrency n left k p).1,
          (fill config maxConcurrency n left k p).2)) trace := by
  induction left generalizing k p trace with
  | zero =>
    have hnil : itemNames.zipIdx.drop k = [] := by
      rw [List.drop_eq_nil_iff, List.length_zipIdx, hcfg.length]
      omega
    rw [hnil]
    exact ⟨htrace, by rw [fill, hnil]⟩
  | succ left ih =>
    obtain ⟨⟨itemName, index⟩, rest, hchildren⟩ : ∃ child rest, itemNames.zipIdx.drop k = child :: rest := by
      apply List.exists_cons_of_ne_nil
      rw [Ne, List.drop_eq_nil_iff, List.length_zipIdx, hcfg.length]
      omega
    obtain ⟨rfl, -, rfl⟩ := drop_zipIdx hchildren
    rw [hchildren]
    unfold spawnChildren fill
    rw [maySpawn_eq hcfg]
    split
    · rw [nextOperationId_bind]
      refine ⟨hfetch _ _, fun m _ => ⟨hspawn _ _ _ _ _, fun _ _ => ?_⟩⟩
      apply ih (by omega)
      rw [← htrace]
      rfl
    · exact ⟨htrace, by rw [hchildren]⟩

/-! ## The whole loop -/

/-- The batch reports the result, or the service never hears of it. -/
theorem delivers_complete (site : SerdesSite) (hsite : site = ctx.site hashedId name) (n : Nat)
    (p : Progress V) : σ.Delivers cfg site (p.result cfg.completionConfig n) trace
      (complete spec ctx name cfg stepId hashedId n p) := by
  subst hsite
  unfold Schedule.Delivers
  simp only [complete, safeSerializeRequiredWithSerdes]
  split
  · rw [Prog.ret_bind, checkpoint_of_build (succeedUpdate_buildable ..), Prog.act_andThen]
    refine ⟨trivial, fun r hr => ?_⟩
    obtain rfl : r = .ok () := hr
    rfl
  · rename_i hnone
    rw [terminateForSerdesFailure, suspend_bind]
    exact ⟨trivial, fun _ _ => ⟨fun payload hpayload => by simp [hpayload] at hnone, fun a => a.elim⟩⟩
  · rename_i hnone
    rw [terminateForSerdesFailure, suspend_bind]
    exact ⟨trivial, fun _ _ => ⟨fun payload hpayload => by simp [hpayload] at hnone, fun a => a.elim⟩⟩

theorem completedCount_join (p : Progress V) (index : Nat) (r : DurableResult V) :
    (p.join index r).completedCount = p.completedCount + 1 := by
  cases r with
  | ok v => simp [Progress.join, Progress.completedCount]; omega
  | error e => simp [Progress.join, Progress.completedCount]; omega

theorem length_started_join {p : Progress V} {index : Nat} (h : index ∈ p.started)
    (r : DurableResult V) : (p.join index r).started.length + 1 = p.started.length := by
  have hpos := List.length_pos_of_mem h
  cases r with
  | ok v => simp [Progress.join, List.length_erase_of_mem h]; omega
  | error e => simp [Progress.join, List.length_erase_of_mem h]; omega

/-- The loop of a batch that is not over ends with a result that the schedule determines; it is
left in no other way. -/
theorem exists_delivered (σ : Schedule V) (turns : Nat) {k : Nat} {p : Progress V}
    (hcount : p.completedCount + p.started.length = k) (hk : k ≤ n)
    (hover : finished config n p = false) (hturns : n - p.completedCount < turns) :
    ∃ result, ∀ {spec : BatchSpec} {ctx : ExecutionContext} {name : Option String}
      {cfg : BatchConfig V} {itemNames : List String} {stepId hashedId : String}
      {afterLoop : Progress V → Act V (DurableResult (BatchResult V))} {trace : List (Event V)},
      Loops config maxConcurrency n cfg itemNames → progress trace = p →
      σ.Delivers cfg (ctx.site hashedId name) result trace
        (runLoop spec ctx name cfg stepId hashedId n afterLoop turns (itemNames.zipIdx.drop k) p) := by
  induction turns generalizing k p with
  | zero => omega
  | succ turns ih =>
    have hopen : p.completedCount ≠ n := by
      simp only [finished, Bool.or_eq_false_iff, beq_eq_false_iff_ne] at hover
      exact hover.1.1
    obtain ⟨left, rfl⟩ := Nat.exists_eq_add_of_le hk
    have hfills := fill_fills config maxConcurrency (k + left) left k p
    have hinFlight : (fill config maxConcurrency (k + left) left k p).2.started ≠ [] := by
      cases hstarted : p.started with
      | nil =>
        apply fill_started_ne_nil ?_ hover
        rw [hstarted, List.length_nil] at hcount
        omega
      | cons i rest =>
        intro hnil
        have hlength := hfills.started
        rw [hnil, hstarted] at hlength
        simp only [List.length_nil, List.length_cons] at hlength
        omega
    generalize hfill : fill config maxConcurrency (k + left) left k p = filled at hfills hinFlight
    obtain ⟨k', p'⟩ := filled
    have hnext := σ.inFlight p' hinFlight
    have hcompleted : p'.completedCount = p.completedCount := by
      rw [Progress.completedCount, hfills.successes, hfills.failures, Progress.completedCount]
    have hcount' := completedCount_join p' (σ.next p') (σ.outcome (σ.next p'))
    have hlength := length_started_join hnext (σ.outcome (σ.next p'))
    have hlower := hfills.lower
    have hupper := hfills.upper
    have hstarted := hfills.started
    dsimp only at hinFlight hlower hupper hstarted
    have hturn : ∀ {result : BatchResult V} {spec : BatchSpec} {ctx : ExecutionContext}
        {name : Option String} {cfg : BatchConfig V} {itemNames : List String}
        {stepId hashedId : String} {afterLoop : Progress V → Act V (DurableResult (BatchResult V))}
        {trace : List (Event V)}, Loops config maxConcurrency (k + left) cfg itemNames →
        progress trace = p →
        (∀ trace', progress trace' = p'.join (σ.next p') (σ.outcome (σ.next p')) →
          σ.Delivers cfg (ctx.site hashedId name) result trace'
            (joined spec ctx name cfg stepId hashedId (k + left)
              (runLoop spec ctx name cfg stepId hashedId (k + left) afterLoop turns
                (itemNames.zipIdx.drop k')) p' (.ok (σ.next p', σ.outcome (σ.next p'))))) →
        σ.Delivers cfg (ctx.site hashedId name) result trace
          (runLoop spec ctx name cfg stepId hashedId (k + left) afterLoop (turns + 1)
            (itemNames.zipIdx.drop k) p) := by
      intro result spec ctx name cfg itemNames stepId hashedId afterLoop trace hcfg htrace hjoined
      refine (Prog.meets_bind _ _ _).mpr (Prog.Meets.mono ?_ (meets_spawnChildren hcfg
        (fun _ _ => trivial) (fun _ _ _ _ _ => trivial) rfl htrace))
      rintro trace' out ⟨htrace', rfl⟩
      rw [hfill] at htrace' ⊢
      dsimp only at htrace' ⊢
      rw [if_neg hinFlight]
      refine ⟨trivial, fun a ha => ?_⟩
      have ha : a = .ok (σ.next (progress trace'), σ.outcome (σ.next (progress trace'))) := ha
      rw [htrace'] at ha
      subst ha
      apply hjoined
      change (progress trace').after _ = _
      rw [htrace']
      rfl
    cases hover' : finished config (k + left) (p'.join (σ.next p') (σ.outcome (σ.next p'))) with
    | true =>
      refine ⟨(p'.join (σ.next p') (σ.outcome (σ.next p'))).result config (k + left), ?_⟩
      intro spec ctx name cfg itemNames stepId hashedId afterLoop trace hcfg htrace
      apply hturn hcfg htrace
      intro trace' _
      rw [joined, isOver_eq hcfg, hover', if_pos rfl, ← hcfg.config]
      split
      · exact delivers_complete _ rfl _ _
      · exact ⟨trivial, fun _ _ => delivers_complete _ rfl _ _⟩
    | false =>
      obtain ⟨result, hresult⟩ := ih (k := k')
        (p := p'.join (σ.next p') (σ.outcome (σ.next p'))) (by omega) (by omega) hover' (by omega)
      refine ⟨result, ?_⟩
      intro spec ctx name cfg itemNames stepId hashedId afterLoop trace hcfg htrace
      apply hturn hcfg htrace
      intro trace' htrace'
      rw [joined, isOver_eq hcfg, hover']
      exact hresult hcfg htrace'

/-! ## The two executions -/

/-- With `min_successful` 0 no child is ever spawned, and `map` falls out of its loop. -/
theorem runMapExecution_panics (ctx : ExecutionContext) (name : Option String) (cfg : BatchConfig V)
    (itemNames : List String) (stepId hashedId : String) (hne : itemNames.length ≠ 0)
    (hmin : cfg.completionConfig.minSuccessful = some 0) :
    runMapExecution ctx name cfg itemNames stepId hashedId =
      .act (.panic "map execution loop should return a batch result") Empty.elim := by
  have hno : maySpawn cfg itemNames.length {} = false := by
    simp [maySpawn, hmin]
  obtain ⟨⟨itemName, index⟩, rest, hchildren⟩ : ∃ child rest, itemNames.zipIdx = child :: rest := by
    apply List.exists_cons_of_ne_nil
    rwa [Ne, ← List.length_eq_zero_iff, List.length_zipIdx]
  rw [runMapExecution, if_neg hne, runLoop, hchildren, spawnChildren, hno]
  rfl

theorem delivers_empty (σ : Schedule V) (cfg : BatchConfig V) :
    σ.Delivers cfg (ctx.site hashedId name) (({} : Progress V).result cfg.completionConfig 0) []
        (runMapExecution ctx name cfg [] stepId hashedId) ∧
      σ.Delivers cfg (ctx.site hashedId name) (({} : Progress V).result cfg.completionConfig 0) []
        (runParallelExecution ctx name cfg [] stepId hashedId) :=
  ⟨delivers_complete _ rfl 0 {}, delivers_complete _ rfl 0 {}⟩

/-- **`map` and `parallel` agree.** For items and branches of one number, under one completion
configuration and one limit of concurrency, and for any schedule of the children, the two end
with the same batch exactly when the batch is empty or `min_successful` is not 0. -/
theorem map_agrees_iff (σ : Schedule V) {ctx ctx' : ExecutionContext} {name name' : Option String}
    {cfg cfg' : BatchConfig V} {itemNames branchNames : List String}
    {stepId hashedId stepId' hashedId' operationName : String}
    (hlength : branchNames.length = itemNames.length)
    (hconfig : cfg'.completionConfig = cfg.completionConfig)
    (hmax : cfg'.maxConcurrency = cfg.maxConcurrency)
    (hvalid : cfg.completionConfig.validateCompletionConfig itemNames.length operationName = .ok ()) :
    (∃ result,
      σ.Delivers cfg (ctx.site hashedId name) result []
        (runMapExecution ctx name cfg itemNames stepId hashedId) ∧
      σ.Delivers cfg' (ctx'.site hashedId' name') result []
        (runParallelExecution ctx' name' cfg' branchNames stepId' hashedId')) ↔
      itemNames.length = 0 ∨ cfg.completionConfig.minSuccessful ≠ some 0 := by
  constructor
  · rintro ⟨result, hmap, -⟩
    by_contra hnot
    obtain ⟨hne, hmin⟩ := not_or.mp hnot
    rw [runMapExecution_panics ctx name cfg itemNames stepId hashedId hne (not_not.mp hmin)] at hmap
    exact hmap.1
  · intro hcondition
    by_cases hempty : itemNames.length = 0
    · obtain rfl := List.length_eq_zero_iff.mp hempty
      obtain rfl := List.length_eq_zero_iff.mp hlength
      refine ⟨_, (delivers_empty σ cfg).1, ?_⟩
      rw [← hconfig]
      exact (delivers_empty σ cfg').2
    · have hmin := hcondition.resolve_left hempty
      have hover : finished cfg.completionConfig itemNames.length ({} : Progress V) = false := by
        have hzero : cfg.completionConfig.minSuccessful.any (0 ≥ ·) = false := by
          cases hsome : cfg.completionConfig.minSuccessful with
          | none => rfl
          | some min =>
            rw [hsome] at hmin
            simp only [ne_eq, Option.some.injEq] at hmin
            simp only [Option.any_some, decide_eq_false_iff_not]
            omega
        have hgoOn := CompletionConfig.shouldContinueBatch_zero hvalid
        simp only [finished, Progress.completedCount, List.length_nil, hzero, hgoOn, Bool.not_true,
          Bool.or_false, beq_eq_false_iff_ne]
        omega
      obtain ⟨result, hresult⟩ := @exists_delivered V itemNames.length
        cfg.completionConfig cfg.maxConcurrency σ (itemNames.length + 1) 0 {} rfl (Nat.zero_le _) hover
        (by simp [Progress.completedCount])
      refine ⟨result, ?_, ?_⟩
      · rw [runMapExecution, if_neg hempty]
        exact hresult ⟨rfl, rfl, rfl⟩ rfl
      · have hparallel := @hresult parallel ctx' name' cfg' branchNames stepId' hashedId'
          (complete parallel ctx' name' cfg' stepId' hashedId' itemNames.length) []
          ⟨hconfig, hmax, hlength⟩ rfl
        rw [runParallelExecution, hlength]
        exact hparallel

/-- The children end in the order in which they were spawned, with their indices. -/
def inOrder : Schedule Nat where
  next p := p.started.headD 0
  outcome index := .ok index
  inFlight p hne := by
    obtain ⟨i, rest, hstarted⟩ := List.exists_cons_of_ne_nil hne
    rw [hstarted]
    exact List.mem_cons_self

def atLeast (min : Nat) : BatchConfig Nat where
  batchResultSerdes := ⟨fun _ _ => .ok (some ""), fun _ _ => .ok none⟩
  itemCodec := .nat
  completionConfig := { minSuccessful := some min }
  parseJson _ := none

theorem map_agrees_iff_one :
    ∃ result,
      inOrder.Delivers (atLeast 1) (ExecutionContext.site ⟨"arn", none, 0, id⟩ "map_0" none) result []
        (runMapExecution ⟨"arn", none, 0, id⟩ none (atLeast 1) ["a", "b"] "map_0" "map_0") ∧
      inOrder.Delivers (atLeast 1) (ExecutionContext.site ⟨"arn", none, 0, id⟩ "map_0" none) result []
        (runParallelExecution ⟨"arn", none, 0, id⟩ none (atLeast 1) ["a", "b"] "map_0" "map_0") := by
  have hvalid : (atLeast 1).completionConfig.validateCompletionConfig ["a", "b"].length "map" = .ok () :=
    rfl
  exact (map_agrees_iff inOrder rfl rfl rfl hvalid).mpr (Or.inr (by decide))

/-- One item and `min_successful` 0, which is accepted: `parallel` ends with an empty batch, and
`map` reaches its `unreachable!`. -/
theorem map_unreachable_reached :
    (atLeast 0).completionConfig.validateCompletionConfig ["a"].length "map" = .ok () ∧
    runMapExecution ⟨"arn", none, 0, id⟩ none (atLeast 0) ["a"] "map_0" "map_0" =
      .act (.panic "map execution loop should return a batch result") Empty.elim ∧
    inOrder.Delivers (atLeast 0) (ExecutionContext.site ⟨"arn", none, 0, id⟩ "map_0" none)
      ⟨[], .minSuccessfulReached⟩ []
      (runParallelExecution ⟨"arn", none, 0, id⟩ none (atLeast 0) ["a"] "map_0" "map_0") ∧
    ¬ ∃ result,
      inOrder.Delivers (atLeast 0) (ExecutionContext.site ⟨"arn", none, 0, id⟩ "map_0" none) result []
        (runMapExecution ⟨"arn", none, 0, id⟩ none (atLeast 0) ["a"] "map_0" "map_0") := by
  have hpanics := runMapExecution_panics ⟨"arn", none, 0, id⟩ none (atLeast 0) ["a"] "map_0" "map_0"
    (by decide) rfl
  have hresult : ({} : Progress Nat).result (atLeast 0).completionConfig 1 =
      ⟨[], .minSuccessfulReached⟩ := by
    simp [Progress.result, Progress.items]
    rfl
  refine ⟨rfl, hpanics, ?_, ?_⟩
  · rw [← hresult]
    exact @delivers_complete Nat ⟨"arn", none, 0, id⟩ none (atLeast 0) "map_0" "map_0" parallel inOrder
      [] _ rfl 1 {}
  · rintro ⟨result, hmap⟩
    rw [hpanics] at hmap
    exact hmap.1

end Batch

end LambdaDurable
