import LambdaDurable.Runtime.Handler
import LambdaDurable.Checkpoint.Failure

/-!
# The output of an invocation whose checkpoints fail

The waiters of a failed batch are released before the worker asks for the termination, the
first termination wins, and a large result is checkpointed after the race is over. So a
failed batch decides the output only if nothing else does first.
-/

namespace LambdaDurable

/-- The reasons whose termination the runtime answers with an error. -/
def TerminationReason.isError : TerminationReason → Bool
  | .checkpointFailed | .serdesFailed => true
  | _ => false

namespace Runtime

variable {ε ρ : Type} {cfg : Config ε ρ}

/-! ## What one step can do -/

inductive Move (cfg : Config ε ρ) (s : State ρ) : Label ρ → State ρ → Prop
  | manager {l : CheckpointManager.Label} {m : CheckpointManager.State} :
      (∀ output large, s.phase ≠ .returned output large) → CheckpointManager.step s.manager l = some m →
      Move cfg s (.manager l) ⟨m, s.phase⟩
  | handlerReturns {result : Except DurableError ρ} {q : Nat} {m : CheckpointManager.State} :
      s.phase = .running → CheckpointManager.step s.manager (.startWait q) = some m →
      Move cfg s (.handlerReturns result q) ⟨m, .waiting (.handler result) q⟩
  | selectTermination {t : TerminationResult} {q : Nat} {m : CheckpointManager.State} :
      s.phase = .running → s.manager.termination.published = some t →
      CheckpointManager.step s.manager (.startWait q) = some m →
      Move cfg s (.selectTermination q) ⟨m, .waiting (.terminated t) q⟩
  | unserializable {response : ρ} {q c : Nat} {e stepId hashedId : String} :
      s.phase = .waiting (.handler (.ok response)) q → cfg.serialize response = .error e →
      Move cfg s (.queueDone c stepId hashedId)
        ⟨s.manager, .returned (.error s!"Failed to serialize output: {e}") none⟩
  | small {response : ρ} {q c : Nat} {payload stepId hashedId : String} :
      s.phase = .waiting (.handler (.ok response)) q → cfg.serialize response = .ok payload →
      payload.utf8ByteSize ≤ lambdaResponseSizeLimit →
      Move cfg s (.queueDone c stepId hashedId)
        ⟨s.manager, .returned (.ok (.succeeded (some payload))) none⟩
  | large {response : ρ} {q c : Nat} {payload stepId hashedId : String} {m : CheckpointManager.State} :
      s.phase = .waiting (.handler (.ok response)) q → cfg.serialize response = .ok payload →
      CheckpointManager.step s.manager
        (.call c .checkpoint stepId (largeResultUpdate hashedId payload)) = some m →
      Move cfg s (.queueDone c stepId hashedId) ⟨m, .large payload c⟩
  | handlerFailed {e : DurableError} {q c : Nat} {stepId hashedId : String} :
      s.phase = .waiting (.handler (.error e)) q →
      Move cfg s (.queueDone c stepId hashedId)
        ⟨s.manager, .returned (.ok (.failed (.fromDurableError e))) none⟩
  | terminated {t : TerminationResult} {q c : Nat} {stepId hashedId : String} :
      s.phase = .waiting (.terminated t) q →
      Move cfg s (.queueDone c stepId hashedId) ⟨s.manager, .returned (terminationOutput t) none⟩
  | checkpointDone {payload : String} {c q : Nat} {k : CheckpointManager.Caller}
      {m : CheckpointManager.State} : s.phase = .large payload c → s.manager.callers c = some k →
      k.phase = .returned → CheckpointManager.step s.manager (.startWait q) = some m →
      Move cfg s (.checkpointDone q) ⟨m, .draining payload c q⟩
  | drained {payload : String} {c q : Nat} : s.phase = .draining payload c q →
      Move cfg s .drained
        ⟨s.manager, .returned (.ok (.succeeded (some ""))) (some (c, payload))⟩

theorem largeResultUpdate_build (hashedId payload : String) :
    (largeResultUpdate hashedId payload).build = .ok (largeResultUpdate hashedId payload) := rfl

theorem enter_eq_some {s s' : State ρ} {l : CheckpointManager.Label} {phase : Phase ρ}
    (h : s.enter l phase = some s') :
    ∃ m, CheckpointManager.step s.manager l = some m ∧ s' = ⟨m, phase⟩ := by
  obtain ⟨m, hm, rfl⟩ := Option.map_eq_some_iff.mp h
  exact ⟨m, hm, rfl⟩

theorem finish_move {s s' : State ρ} {selected : Selected ρ} {q c : Nat} {stepId hashedId : String}
    (hphase : s.phase = .waiting selected q)
    (h : finish cfg s c stepId hashedId selected = some s') :
    Move cfg s (.queueDone c stepId hashedId) s' := by
  obtain (e | response) | t := selected
  · obtain rfl := Option.some.inj h
    exact .handlerFailed hphase
  · rw [finish] at h
    split at h
    · rename_i hser
      obtain rfl := Option.some.inj h
      exact .unserializable hphase hser
    · rename_i payload hser
      split at h
      · rw [largeResultUpdate_build] at h
        obtain ⟨m, hm, rfl⟩ := enter_eq_some h
        exact .large hphase hser hm
      · rename_i hsize
        obtain rfl := Option.some.inj h
        exact .small hphase hser (by omega)
  · obtain rfl := Option.some.inj h
    exact .terminated hphase

theorem move_of_step {s s' : State ρ} {l : Label ρ} (h : step cfg s l = some s') : Move cfg s l s' := by
  cases l with
  | manager l =>
      rw [step] at h
      split at h
      · cases h
      · rename_i hphase
        obtain ⟨m, hm, rfl⟩ := enter_eq_some h
        exact .manager hphase hm
  | handlerReturns result q =>
      rw [step] at h
      split at h
      · rename_i hphase
        obtain ⟨m, hm, rfl⟩ := enter_eq_some h
        exact .handlerReturns hphase hm
      · cases h
  | selectTermination q =>
      rw [step] at h
      split at h
      · rename_i hphase hpub
        obtain ⟨m, hm, rfl⟩ := enter_eq_some h
        exact .selectTermination hphase hpub hm
      · cases h
  | queueDone c stepId hashedId =>
      rw [step] at h
      split at h
      · rename_i hphase
        simp only [Option.ite_none_right_eq_some] at h
        exact finish_move hphase h.2
      · cases h
  | checkpointDone q =>
      rw [step] at h
      split at h
      · rename_i payload c hphase
        simp only [Option.ite_none_right_eq_some, Option.any_eq_true, decide_eq_true_eq] at h
        obtain ⟨⟨k, hk, hret⟩, h⟩ := h
        obtain ⟨m, hm, rfl⟩ := enter_eq_some h
        exact .checkpointDone hphase hk hret hm
      · cases h
  | drained =>
      rw [step] at h
      split at h
      · rename_i payload c q hphase
        simp only [Option.ite_none_right_eq_some, Option.some.injEq] at h
        obtain ⟨-, rfl⟩ := h
        exact .drained hphase
      · cases h

/-! ## Sound outputs -/

/-- The call `c` carried the payload in a batch that a successful service call carried. -/
def LargeAcked (m : CheckpointManager.State) (c : Nat) (payload : String) : Prop :=
  ∃ k batch, m.callers c = some k ∧ k.update.payload = some payload ∧ m.Acked batch ∧ k.queued c ∈ batch

structure OutputSound (cfg : Config ε ρ) (s : State ρ) : Prop where
  /-- If a batch failed before the output was computed, the output is an error. -/
  failed : ∀ output large, s.phase = .returned output large → s.manager.Failed →
    ∃ message, output = .error message
  /-- A large call leaves an empty result, and its payload is that of a response, acknowledged. -/
  large : ∀ output c payload, s.phase = .returned output (some (c, payload)) →
    output = .ok (.succeeded (some "")) ∧ (∃ response, cfg.serialize response = .ok payload) ∧
      LargeAcked s.manager c payload
  /-- Without a large call an empty result is the payload of a response. -/
  empty : s.phase = .returned (.ok (.succeeded (some ""))) none →
    ∃ response, cfg.serialize response = .ok ""

/-- Nothing is decided yet but, possibly, an error. -/
def State.Undecided (s : State ρ) : Prop :=
  (match s.phase with
    | .running => True
    | .waiting (.terminated t) _ => t.reason.isError = true
    | _ => False) ∧
  (∀ t, s.manager.termination.published = some t → t.reason.isError = true) ∧
  ∀ t, s.manager.Accepting t → t.reason.isError = true

/-- A batch fails only while nothing else has decided the output, and afterwards neither the
handler's result is selected nor another kind of termination accepted. -/
structure FailureDecides (s : State ρ) (l : Label ρ) : Prop where
  reject : ∀ m, l = .manager m → CheckpointManager.rejects s.manager m = true → s.Undecided
  select : ∀ result q, l = .handlerReturns result q → ¬ s.manager.Failed
  accept : ∀ m t, l = .manager m → CheckpointManager.accepts s.manager m = some t →
    s.manager.Failed → t.reason.isError = true

/-! ## The manager inside an invocation -/

theorem Move.manager_step {s s' : State ρ} {l : Label ρ} (h : Move cfg s l s') :
    s'.manager = s.manager ∨ ∃ m, CheckpointManager.step s.manager m = some s'.manager ∧
      (l = .manager m ∨ (CheckpointManager.rejects s.manager m = false ∧
        CheckpointManager.accepts s.manager m = none)) := by
  cases h with
  | manager _ hm => exact Or.inr ⟨_, hm, Or.inl rfl⟩
  | handlerReturns _ hm | selectTermination _ _ hm | large _ _ hm | checkpointDone _ _ _ hm =>
      exact Or.inr ⟨_, hm, Or.inr ⟨rfl, rfl⟩⟩
  | _ => exact Or.inl rfl

theorem Move.extends {s s' : State ρ} {l : Label ρ} (h : Move cfg s l s') :
    CheckpointManager.Extends s.manager s'.manager := by
  obtain heq | ⟨m, hm, -⟩ := h.manager_step
  · rw [heq]
    exact .refl _
  · exact (CheckpointManager.move_of_step hm).extends

/-- As long as no batch has failed, the manager's part of a run releases acknowledged calls only. -/
theorem manager_reachable {allow : State ρ → Label ρ → Prop} {s : State ρ}
    (h : (machine cfg).ReachableBy allow s) (hf : ¬ s.manager.Failed) :
    (CheckpointManager.machine cfg.token cfg.stepData).ReachableBy CheckpointManager.ReleasesAcked
      s.manager := by
  induction h with
  | init hs => exact .init hs.1
  | @step s s' l _ _ hs ih =>
      have hmove := move_of_step hs
      have hbefore : ¬ s.manager.Failed := fun h => hf (h.mono hmove.extends)
      obtain heq | ⟨m, hm, -⟩ := hmove.manager_step
      · rw [heq]
        exact ih hbefore
      · have hpath := CheckpointManager.failurePathFailed (ih hbefore)
        exact .step (ih hbefore)
          (CheckpointManager.releasesAcked_of_not_failed hpath hbefore m) hm

/-! ## The invariant -/

/-- The call that carries a large result. -/
def LargeCall (m : CheckpointManager.State) (c : Nat) (payload : String) : Prop :=
  ∃ k, m.callers c = some k ∧ k.kind = .checkpoint ∧ k.update.payload = some payload

structure Inv (cfg : Config ε ρ) (s : State ρ) : Prop where
  failed : s.manager.Failed → s.Undecided ∨ ∃ message large, s.phase = .returned (.error message) large
  large : ∀ payload c, s.phase = .large payload c →
    LargeCall s.manager c payload ∧ ∃ response, cfg.serialize response = .ok payload
  draining : ∀ payload c q, s.phase = .draining payload c q →
    LargeAcked s.manager c payload ∧ ∃ response, cfg.serialize response = .ok payload
  returned : ∀ output c payload, s.phase = .returned output (some (c, payload)) →
    output = .ok (.succeeded (some "")) ∧ (∃ response, cfg.serialize response = .ok payload) ∧
      LargeAcked s.manager c payload
  empty : s.phase = .returned (.ok (.succeeded (some ""))) none →
    ∃ response, cfg.serialize response = .ok ""

theorem LargeCall.extend {m m' : CheckpointManager.State} (hext : CheckpointManager.Extends m m')
    {c : Nat} {payload : String} (h : LargeCall m c payload) : LargeCall m' c payload := by
  obtain ⟨k, hk, hkind, hpayload⟩ := h
  obtain ⟨k', hk', hkind', hq⟩ := hext.callers c k hk
  have hupdate := CheckpointManager.Caller.update_eq_of_queued hq
  exact ⟨k', hk', hkind'.trans hkind, by rw [hupdate, hpayload]⟩

theorem LargeAcked.extend {m m' : CheckpointManager.State} (hext : CheckpointManager.Extends m m')
    {c : Nat} {payload : String} (h : LargeAcked m c payload) : LargeAcked m' c payload := by
  obtain ⟨k, batch, hk, hpayload, hacked, hmem⟩ := h
  obtain ⟨k', hk', -, hq⟩ := hext.callers c k hk
  have hupdate := CheckpointManager.Caller.update_eq_of_queued hq
  exact ⟨k', batch, hk', by rw [hupdate, hpayload], hext.acked hacked, by rwa [hq]⟩

theorem published_error {s s' : State ρ} {l : Label ρ} (h : Move cfg s l s')
    (haccept : ∀ m t, l = .manager m → CheckpointManager.accepts s.manager m = some t →
      t.reason.isError = true)
    (hpub : ∀ t, s.manager.termination.published = some t → t.reason.isError = true)
    (hacc : ∀ t, s.manager.Accepting t → t.reason.isError = true) :
    (∀ t, s'.manager.termination.published = some t → t.reason.isError = true) ∧
    ∀ t, s'.manager.Accepting t → t.reason.isError = true := by
  obtain heq | ⟨m, hm, hlabel⟩ := h.manager_step
  · rw [heq]
    exact ⟨hpub, hacc⟩
  · have hmove := CheckpointManager.move_of_step hm
    refine ⟨fun t ht => ?_, fun t ht => ?_⟩
    · obtain ht | ht := hmove.published ht
      · exact hpub t ht
      · exact hacc t ht
    · obtain ht | ht := hmove.accepting ht
      · exact hacc t ht
      · obtain rfl | ⟨-, hnone⟩ := hlabel
        · exact haccept m t rfl ht
        · rw [hnone] at ht
          cases ht

theorem accepts_of_rejects {m : CheckpointManager.State} {l : CheckpointManager.Label}
    (h : CheckpointManager.rejects m l = true) : CheckpointManager.accepts m l = none := by
  cases l <;> first | rfl | cases h

/-- A step that makes the first batch fail finds the output undecided and leaves it so. -/
theorem undecided_of_failed {s s' : State ρ} {l : Label ρ} (hl : FailureDecides s l)
    (h : Move cfg s l s') (hnot : ¬ s.manager.Failed) (hf : s'.manager.Failed) : s'.Undecided := by
  obtain heq | ⟨m, hm, hlabel⟩ := h.manager_step
  · exact absurd (heq ▸ hf) hnot
  · have hrej := ((CheckpointManager.move_of_step hm).failed hf).resolve_left hnot
    obtain rfl | ⟨hno, -⟩ := hlabel
    · obtain ⟨hphase, hpub, hacc⟩ := hl.reject m rfl hrej
      have haccept : ∀ m' t, Label.manager (ρ := ρ) m = .manager m' →
          CheckpointManager.accepts s.manager m' = some t → t.reason.isError = true := by
        rintro _ t ⟨rfl⟩ ht
        rw [accepts_of_rejects hrej] at ht
        cases ht
      have hafter := published_error h haccept hpub hacc
      cases h
      exact ⟨hphase, hafter⟩
    · rw [hrej] at hno
      cases hno

theorem terminationOutput_error {t : TerminationResult} (h : t.reason.isError = true) :
    ∃ message, terminationOutput t = .error message := by
  unfold terminationOutput
  cases hr : t.reason <;> rw [hr] at h <;> first | exact ⟨_, rfl⟩ | cases h

/-- The outcome of a failed batch survives a step. -/
theorem Undecided.step {s s' : State ρ} {l : Label ρ} (h : s.Undecided) (hf : s.manager.Failed)
    (hm : Move cfg s l s') (hl : FailureDecides s l) :
    s'.Undecided ∨ ∃ message large, s'.phase = .returned (.error message) large := by
  obtain ⟨hphase, hpub, hacc⟩ := h
  have hafter := published_error hm (fun m t hlabel ht => hl.accept m t hlabel ht hf) hpub hacc
  cases hm with
  | manager _ _ => exact Or.inl ⟨hphase, hafter⟩
  | handlerReturns _ _ => exact absurd hf (hl.select _ _ rfl)
  | selectTermination _ ht _ => exact Or.inl ⟨hpub _ ht, hafter⟩
  | @terminated t q c stepId hashedId hp =>
      rw [hp] at hphase
      obtain ⟨message, hmessage⟩ := terminationOutput_error hphase
      exact Or.inr ⟨message, none, by rw [hmessage]⟩
  | unserializable hp _ | small hp _ _ | large hp _ _ | handlerFailed hp | checkpointDone hp _ _ _
  | drained hp =>
      rw [hp] at hphase
      exact hphase.elim

theorem Inv.step {s s' : State ρ} {l : Label ρ} (hr : (machine cfg).ReachableBy FailureDecides s)
    (h : Inv cfg s) (hm : Move cfg s l s') (hl : FailureDecides s l) : Inv cfg s' := by
  have hext := hm.extends
  have hfailed : s'.manager.Failed → s'.Undecided ∨
      ∃ message large, s'.phase = .returned (.error message) large := by
    intro hf
    by_cases hbefore : s.manager.Failed
    · obtain hund | ⟨message, large, hret⟩ := h.failed hbefore
      · exact Undecided.step hund hbefore hm hl
      · cases hm with
        | manager hno _ => exact absurd hret (hno _ _)
        | handlerReturns hp _ | selectTermination hp _ _ | unserializable hp _ | small hp _ _
        | large hp _ _ | handlerFailed hp | terminated hp | checkpointDone hp _ _ _ | drained hp =>
            rw [hp] at hret
            cases hret
    · exact Or.inl (undecided_of_failed hl hm hbefore hf)
  cases hm with
  | manager hno hstep =>
      constructor
      · exact hfailed
      · exact fun payload c hp => (h.large payload c hp).imp_left (LargeCall.extend hext)
      · exact fun payload c q hp => (h.draining payload c q hp).imp_left (LargeAcked.extend hext)
      · exact fun _ _ _ hp => absurd hp (hno _ _)
      · exact fun hp => absurd hp (hno _ _)
  | handlerReturns _ _ | selectTermination _ _ _ | unserializable _ _ | handlerFailed _ =>
      exact ⟨hfailed, by nofun, by nofun, by rintro _ _ _ ⟨⟩, by nofun⟩
  | @terminated t q c stepId hashedId hp =>
      refine ⟨hfailed, by nofun, by nofun, by rintro _ _ _ ⟨⟩, fun hret => ?_⟩
      have hout : terminationOutput t = .ok (.succeeded (some "")) := by
        injection hret
      unfold terminationOutput at hout
      split at hout <;> cases hout
  | @small response q c payload stepId hashedId hp hser hsize =>
      refine ⟨hfailed, by nofun, by nofun, by rintro _ _ _ ⟨⟩, fun hret => ?_⟩
      injection hret with hok
      injection hok with hout
      have hempty : some payload = some "" := congrArg DurableExecutionInvocationOutput.result hout
      exact ⟨response, Option.some.inj hempty ▸ hser⟩
  | @large response q c payload stepId hashedId m hp hser hstep =>
      refine ⟨hfailed, ?_, by nofun, by rintro _ _ _ ⟨⟩, by nofun⟩
      rintro _ _ ⟨⟩
      cases CheckpointManager.move_of_step hstep
      exact ⟨⟨_, Function.update_self .., rfl, rfl⟩, response, hser⟩
  | @checkpointDone payload c q k m hp hk hret hstep =>
      refine ⟨hfailed, by nofun, ?_, by rintro _ _ _ ⟨⟩, by nofun⟩
      rintro _ _ _ ⟨⟩
      obtain ⟨⟨k', hk', hkind, hpayload⟩, hser⟩ := h.large payload c hp
      obtain rfl : k = k' := Option.some.inj (hk.symm.trans hk')
      have hnot : ¬ s.manager.Failed := by
        intro hf
        obtain ⟨hphase, -⟩ | ⟨message, large, hphase⟩ := h.failed hf
        · rw [hp] at hphase
          exact hphase
        · rw [hp] at hphase
          cases hphase
      obtain ⟨batch, hacked, hmem⟩ :=
        (CheckpointManager.sound_of_reachableBy (manager_reachable hr hnot)).durable c k hk hkind hret
      exact ⟨LargeAcked.extend hext ⟨k, batch, hk, hpayload, hacked, hmem⟩, hser⟩
  | @drained payload c q hp =>
      refine ⟨hfailed, by nofun, by nofun, ?_, by nofun⟩
      rintro _ _ _ ⟨⟩
      exact ⟨rfl, (h.draining payload c q hp).symm⟩

theorem inv_init {s : State ρ} (h : (machine cfg).init s) : Inv cfg s := by
  obtain ⟨hmanager, hphase⟩ := h
  have hnot : ¬ s.manager.Failed := by
    rw [hmanager]
    nofun
  refine ⟨fun hf => absurd hf hnot, fun payload c hp => ?_, fun payload c q hp => ?_,
    fun output c payload hp => ?_, fun hp => ?_⟩
  all_goals
    rw [hphase] at hp
    split at hp <;> cases hp

theorem output_sound {s : State ρ} (h : (machine cfg).ReachableBy FailureDecides s) :
    OutputSound cfg s := by
  have hinv : Inv cfg s := h.invariant (fun _ => inv_init) fun _ _ _ hr hi hl hs =>
    hi.step hr (move_of_step hs) hl
  refine ⟨fun output large hp hf => ?_, hinv.returned, hinv.empty⟩
  obtain ⟨hphase, -⟩ | ⟨message, large', hret⟩ := hinv.failed hf
  · rw [hp] at hphase
    exact hphase.elim
  · rw [hp] at hret
    cases hret
    exact ⟨message, rfl⟩

theorem manager_reachable_any {allow : State ρ → Label ρ → Prop} {s : State ρ}
    (h : (machine cfg).ReachableBy allow s) :
    (CheckpointManager.machine cfg.token cfg.stepData).Reachable s.manager := by
  induction h with
  | init hs => exact .init hs.1
  | step _ _ hs ih =>
      obtain heq | ⟨m, hm, -⟩ := (move_of_step hs).manager_step
      · rwa [heq]
      · exact .step ih trivial hm

def exampleConfig : Config String String where
  token := "t0"
  stepData := fun _ => none
  context := .ok (some { id := "execution", operationType := .execution, status := .started,
                         executionDetails := some { inputPayload := some "x" } })
  deserialize := .ok
  serialize := .ok

def exampleStart : State String := ⟨.new "t0" fun _ => none, .running⟩

/-- One awaited checkpoint whose batch the service rejects, up to the release of its caller. -/
def rejectedBatch : List CheckpointManager.Label :=
  CheckpointManager.pushLabels 0 "a" ++ [.maybeStart 0 0, .takeBatch 0, .readToken (.worker 0),
    .send (.worker 0), .respond (.worker 0) (.error (.awsSdk "throttled")), .finishBatch 0, .notify 0]

/-- The worker goes on to terminate for the failure and leaves. -/
def failureExit : List CheckpointManager.Label :=
  [.notify 0, .drain 0, .workerTerminate 0, .workerTerminate 0, .workerTerminate 0, .release 0,
    .notifyWaiters 0]

def outputOf (s : State String) : Option (Except String DurableExecutionInvocationOutput) :=
  match s.phase with
  | .returned output _ => some output
  | _ => none

/-- Checks the side condition where it can be decided. -/
def decides (s : State String) : Label String → Bool
  | .manager m =>
    (!CheckpointManager.rejects s.manager m ||
      (match s.phase with | .running => true | _ => false) && !s.manager.termination.terminated) &&
    (CheckpointManager.accepts s.manager m).all (·.reason.isError)
  | .handlerReturns _ _ => false
  | _ => true

theorem decides_sound {s : State String} {l : Label String}
    (h : (machine exampleConfig).ReachableBy FailureDecides s) (hok : decides s l = true) :
    FailureDecides s l := by
  refine ⟨?_, ?_, ?_⟩
  · rintro m rfl hrej
    simp only [decides, hrej, Bool.not_true, Bool.false_or, Bool.and_eq_true, Bool.not_eq_true'] at hok
    obtain ⟨⟨hphase, hterm⟩, -⟩ := hok
    obtain ⟨hpub, hacc⟩ := CheckpointManager.idle_of_not_terminated (manager_reachable_any h) hterm
    refine ⟨?_, fun t ht => ?_, fun t ht => absurd ht (hacc t)⟩
    · split at hphase
      · rename_i hrun
        rw [hrun]
        trivial
      · cases hphase
    · rw [hpub] at ht
      cases ht
  · rintro result q rfl
    cases hok
  · rintro m t rfl ht -
    simp only [decides, Bool.and_eq_true, ht, Option.all_some] at hok
    exact hok.2

/-- The failure is decided first: the invocation returns it as an error. -/
def failureFirst : List (Label String) :=
  (rejectedBatch ++ failureExit).map .manager ++
    [.selectTermination 0, .manager (.checkQueue 0), .queueDone 1 "" ""]

theorem output_sound_failureFirst :
    ∃ s, outputOf s = some (.error "AWS SDK error: throttled") ∧ OutputSound exampleConfig s := by
  have hend : ((machine exampleConfig).checkedRun decides exampleStart failureFirst).bind outputOf =
      some (.error "AWS SDK error: throttled") := by decide +kernel
  obtain ⟨s, hrun, hs⟩ := Option.bind_eq_some_iff.mp hend
  refine ⟨s, hs, output_sound ?_⟩
  exact Transition.Machine.checkedRun_reachableBy (fun _ _ => decides_sound) failureFirst
    (.init ⟨rfl, rfl⟩) hrun

/-- The released caller lets the handler finish before the worker asks for the termination. -/
def handlerFirst : List (Label String) :=
  rejectedBatch.map .manager ++ [.manager (.wake 0), .handlerReturns (.ok "done") 0] ++
    failureExit.map .manager ++ [.manager (.checkQueue 0), .queueDone 1 "" ""]

theorem handlerFirst_succeeds :
    ¬ ∀ s, (machine exampleConfig).Reachable s → OutputSound exampleConfig s := by
  intro h
  have hend : ((machine exampleConfig).run exampleStart handlerFirst).map
      (fun s => (outputOf s, s.manager.log.any (·.isRejected))) =
      some (some (.ok (.succeeded (some "done"))), true) := by decide +kernel
  obtain ⟨s, hrun, hs⟩ := Option.map_eq_some_iff.mp hend
  simp only [Prod.mk.injEq] at hs
  have hreach : (machine exampleConfig).Reachable s :=
    Transition.Machine.run_reachable ⟨rfl, rfl⟩ handlerFirst hrun
  obtain ⟨hout, hfailed⟩ := hs
  unfold outputOf at hout
  split at hout
  · rename_i hphase
    cases hout
    obtain ⟨message, hmessage⟩ := (h s hreach).failed _ _ hphase hfailed
    cases hmessage
  · cases hout

end Runtime

end LambdaDurable
