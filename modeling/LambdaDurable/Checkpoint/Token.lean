import LambdaDurable.Checkpoint.WakeUp

/-!
# The checkpoint token

`process_batch` copies the token, lets go of its lock, awaits the service and writes the
new token back. The single worker does this one call at a time; `force_checkpoint` does it
from whatever task calls it.
-/

namespace LambdaDurable.CheckpointManager

open State

/-- The token returned by the latest successful call of a log, newest event first. -/
def latestToken (initial : String) : List ServiceEvent → String
  | [] => initial
  | .accepted _ _ _ _ response :: log => response.checkpointToken.getD (latestToken initial log)
  | _ :: log => latestToken initial log

/-- Each request carried the token of the latest successful call before it. -/
def CarriesLatest (initial : String) : List ServiceEvent → Prop
  | [] => True
  | .requested _ _ token _ :: log => token = latestToken initial log ∧ CarriesLatest initial log
  | _ :: log => CarriesLatest initial log

/-- Two calls never share a token in flight, and each call carries the latest one. -/
structure TokenLinear (initial : String) (s : State) : Prop where
  distinct : ∀ o o' batch batch' token token' updates updates',
    s.callOf o = some (batch, .inFlight token updates) →
    s.callOf o' = some (batch', .inFlight token' updates') → o ≠ o' → token ≠ token'
  latest : CarriesLatest initial s.log

/-- The call has copied the token and has not written the new one back. -/
def BatchCall.HoldsToken : BatchCall → Prop
  | .holding _ | .inFlight _ _ | .responded _ => True
  | _ => False

/-- The token is copied only while no other call is between its own copy and its write. -/
def ReadsAlone (s : State) (l : Label) : Prop :=
  ∀ o, l = .readToken o →
    ∀ o' batch call, s.callOf o' = some (batch, call) → ¬ call.HoldsToken

/-! ## Which steps move a call that holds the token -/

theorem callOf_setCall {s t : State} {o o' : Owner} {batch : List QueuedCheckpoint}
    {call call' : BatchCall} (h : s.callOf o = some (batch, call)) (hworkers : t.workers = s.workers)
    (hforces : t.forces = s.forces) :
    (t.setCall batch call' o).callOf o' = if o' = o then some (batch, call') else s.callOf o' := by
  cases o with
  | worker w =>
      cases o' with
      | worker v =>
          obtain rfl | hv := eq_or_ne v w
          · rw [if_pos rfl]
            exact callOf_worker.mpr (Function.update_self ..)
          · have hne : Owner.worker v ≠ .worker w := fun heq => hv (Owner.worker.inj heq)
            rw [if_neg hne]
            simp only [callOf, setCall, setWorker, Function.update_of_ne hv, hworkers]
      | force n => simp [callOf, setCall, setWorker, hforces]
  | force n =>
      obtain ⟨rfl, -⟩ := callOf_force.mp h
      cases o' with
      | worker v => simp [callOf, setCall, setForce, hworkers]
      | force m =>
          obtain rfl | hm := eq_or_ne m n
          · rw [if_pos rfl]
            exact callOf_force.mpr ⟨rfl, Function.update_self ..⟩
          · have hne : Owner.force m ≠ .force n := fun heq => hm (Owner.force.inj heq)
            rw [if_neg hne]
            simp only [callOf, setCall, setForce, Function.update_of_ne hm, hforces]

/-- After a step of the call of `o`, only that call has moved. -/
theorem callOf_cases {s t : State} {o o' : Owner} {batch batch' : List QueuedCheckpoint}
    {call call' call'' : BatchCall} (hc : (t.setCall batch call' o).callOf o' = some (batch', call''))
    (h : s.callOf o = some (batch, call)) (hworkers : t.workers = s.workers)
    (hforces : t.forces = s.forces) :
    (o' = o ∧ call' = call'') ∨ (o' ≠ o ∧ s.callOf o' = some (batch', call'')) := by
  rw [callOf_setCall h hworkers hforces] at hc
  split at hc
  · rename_i heq
    cases hc
    exact Or.inl ⟨heq, rfl⟩
  · rename_i hne
    exact Or.inr ⟨hne, hc⟩

theorem callOf_stays {s t : State} {o o' : Owner} {batch batch' : List QueuedCheckpoint}
    {call call' call'' : BatchCall} (hne : o' ≠ o) (hc : s.callOf o' = some (batch', call''))
    (h : s.callOf o = some (batch, call)) (hworkers : t.workers = s.workers)
    (hforces : t.forces = s.forces) :
    (t.setCall batch call' o).callOf o' = some (batch', call'') := by
  rw [callOf_setCall h hworkers hforces, if_neg hne, hc]

/-- Token, log and token holders are the same. -/
structure Quiet (s t : State) : Prop where
  token : t.token = s.token
  log : t.log = s.log
  before : ∀ o batch call, t.callOf o = some (batch, call) → call.HoldsToken →
    s.callOf o = some (batch, call)
  after : ∀ o batch call, s.callOf o = some (batch, call) → call.HoldsToken →
    t.callOf o = some (batch, call)

theorem Quiet.of_eq {s t : State} (htoken : t.token = s.token) (hlog : t.log = s.log)
    (hworkers : t.workers = s.workers) (hforces : t.forces = s.forces) : Quiet s t := by
  have hcalls : t.callOf = s.callOf := by
    funext o
    cases o <;> simp only [callOf, hworkers, hforces]
  exact ⟨htoken, hlog, fun _ _ _ hc _ => hcalls ▸ hc, fun _ _ _ hc _ => hcalls ▸ hc⟩

theorem Quiet.worker {s t : State} {w : Nat} {p : WorkerPhase} (htoken : t.token = s.token)
    (hlog : t.log = s.log) (hworkers : t.workers = Function.update s.workers w (some p))
    (hforces : t.forces = s.forces)
    (hbefore : ∀ batch call, s.workers w = some (.calling batch call) → ¬ call.HoldsToken)
    (hafter : ∀ batch call, p = .calling batch call → ¬ call.HoldsToken) : Quiet s t := by
  have hcalls : ∀ o batch call, call.HoldsToken →
      (t.callOf o = some (batch, call) ↔ s.callOf o = some (batch, call)) := by
    intro o batch call hcall
    cases o with
    | force n => simp only [callOf, hforces]
    | worker v =>
        rw [callOf_worker, callOf_worker, hworkers]
        obtain rfl | hv := eq_or_ne v w
        · rw [Function.update_self, Option.some.injEq]
          exact ⟨fun h => absurd hcall (hafter _ _ h), fun h => absurd hcall (hbefore _ _ h)⟩
        · rw [Function.update_of_ne hv]
  exact ⟨htoken, hlog, fun o batch call hc hh => (hcalls o batch call hh).mp hc,
    fun o batch call hc hh => (hcalls o batch call hh).mpr hc⟩

/-- The steps of `process_batch` up to the write of the token. -/
def Label.movesToken : Label → Bool
  | .readToken _ | .send _ | .respond _ _ | .writeToken _ => true
  | _ => false

theorem Move.quiet {s s' : State} {l : Label} (h : Move s l s') (hl : l.movesToken = false) :
    Quiet s s' := by
  cases h with
  | readToken | reject | send | fail | accept | writeToken => cases hl
  | @merge o batch newState hcall =>
      refine ⟨?_, setCall_log .., fun o' batch' call hc hholds => ?_, fun o' batch' call hc hholds => ?_⟩
      · cases o <;> rfl
      · obtain ⟨-, rfl⟩ | ⟨-, hc⟩ := callOf_cases hc hcall rfl rfl
        · exact hholds.elim
        · exact hc
      · have hne : o' ≠ o := by
          rintro rfl
          rw [hcall] at hc
          cases hc
          exact hholds
        exact callOf_stays hne hc hcall rfl rfl
  | force hn =>
      refine ⟨rfl, rfl, fun o batch call hc hholds => ?_, fun o batch call hc hholds => ?_⟩
      · cases o with
        | worker w => exact hc
        | force m =>
            obtain ⟨rfl, hm⟩ := callOf_force.mp hc
            refine callOf_force.mpr ⟨rfl, (eq_or_of_update hm).resolve_right ?_⟩
            rintro rfl
            exact hholds
      · cases o with
        | worker w => exact hc
        | force m =>
            obtain ⟨rfl, hm⟩ := callOf_force.mp hc
            refine callOf_force.mpr ⟨rfl, (Function.update_of_ne ?_ _ _).trans hm⟩
            rintro rfl
            rw [hn] at hm
            cases hm
  | startWorker _ _ _ hw =>
      refine Quiet.worker rfl rfl rfl rfl (fun _ _ h => ?_) (fun _ _ h => by cases h)
      rw [hw] at h
      cases h
  | take hw _ =>
      refine Quiet.worker rfl rfl rfl rfl (fun _ _ h => ?_) (fun _ _ h => ?_)
      · rw [hw] at h
        cases h
      · cases h
        exact id
  | finishOk hw | finishError hw =>
      refine Quiet.worker rfl rfl rfl rfl (fun _ _ h => ?_) (fun _ _ h => by cases h)
      rw [hw] at h
      cases h
      exact id
  | quit hw _ | notify hw | notifiedOk hw | notifiedError hw | drain hw | release hw
  | notifyWaiters hw =>
      refine Quiet.worker rfl rfl rfl rfl (fun _ _ h => ?_) (fun _ _ h => by cases h)
      rw [hw] at h
      cases h
  | @workerTerminate w stage stage' result resume t hw _ =>
      refine Quiet.worker rfl rfl rfl rfl (fun _ _ h => ?_) (fun _ _ h => ?_)
      · rw [hw] at h
        cases h
      · cases resume <;> split at h <;> cases h
  | checkRetry hw | recheckRetry hw =>
      refine Quiet.worker rfl rfl rfl rfl (fun _ _ h => ?_) (fun _ _ h => ?_)
      · rw [hw] at h
        cases h
      · split at h <;> cases h
  | _ => exact Quiet.of_eq rfl rfl rfl rfl

/-! ## The invariant -/

structure TokenInvariant (initial : String) (s : State) : Prop where
  alone : ∀ o o' batch batch' call call', s.callOf o = some (batch, call) →
    s.callOf o' = some (batch', call') → call.HoldsToken → call'.HoldsToken → o = o'
  holding : ∀ o batch token, s.callOf o = some (batch, .holding token) → token = s.token
  inFlight : ∀ o batch token updates, s.callOf o = some (batch, .inFlight token updates) → token = s.token
  responded : ∀ o batch response, s.callOf o = some (batch, .responded response) →
    latestToken initial s.log = response.checkpointToken.getD s.token
  current : (∀ o batch response, s.callOf o ≠ some (batch, .responded response)) →
    latestToken initial s.log = s.token
  latest : CarriesLatest initial s.log

theorem TokenInvariant.quiet {initial : String} {s t : State} (h : TokenInvariant initial s)
    (hq : Quiet s t) : TokenInvariant initial t where
  alone o o' batch batch' call call' hc hc' hh hh' :=
    h.alone o o' batch batch' call call' (hq.before _ _ _ hc hh) (hq.before _ _ _ hc' hh') hh hh'
  holding o batch token hc := by
    rw [hq.token]
    exact h.holding o batch token (hq.before _ _ _ hc trivial)
  inFlight o batch token updates hc := by
    rw [hq.token]
    exact h.inFlight o batch token updates (hq.before _ _ _ hc trivial)
  responded o batch response hc := by
    rw [hq.token, hq.log]
    exact h.responded o batch response (hq.before _ _ _ hc trivial)
  current hnone := by
    rw [hq.token, hq.log]
    exact h.current fun o batch response hc => hnone o batch response (hq.after _ _ _ hc trivial)
  latest := by
    rw [hq.log]
    exact h.latest

/-- The call of `o` moves while no other call holds the token. -/
theorem TokenInvariant.of_call {initial : String} {s t : State} {o : Owner}
    {batch : List QueuedCheckpoint} {call call' : BatchCall} (hcall : s.callOf o = some (batch, call))
    (hworkers : t.workers = s.workers) (hforces : t.forces = s.forces)
    (hothers : ∀ o' b c, o' ≠ o → s.callOf o' = some (b, c) → ¬ c.HoldsToken)
    (hholding : ∀ token, call' = .holding token → token = t.token)
    (hinFlight : ∀ token updates, call' = .inFlight token updates → token = t.token)
    (hresponded : ∀ response, call' = .responded response →
      latestToken initial t.log = response.checkpointToken.getD t.token)
    (hcurrent : (∀ response, call' ≠ .responded response) → latestToken initial t.log = t.token)
    (hlatest : CarriesLatest initial t.log) : TokenInvariant initial (t.setCall batch call' o) := by
  have hmover : ∀ o' b c, (t.setCall batch call' o).callOf o' = some (b, c) → c.HoldsToken →
      o' = o ∧ call' = c := by
    intro o' b c hc hh
    obtain hmoved | ⟨hne, hc⟩ := callOf_cases hc hcall hworkers hforces
    · exact hmoved
    · exact absurd hh (hothers o' b c hne hc)
  have hself : (t.setCall batch call' o).callOf o = some (batch, call') := by
    rw [callOf_setCall hcall hworkers hforces, if_pos rfl]
  refine ⟨?_, ?_, ?_, ?_, ?_, ?_⟩
  · intro o₁ o₂ b b' c c' hc hc' hh hh'
    exact (hmover o₁ b c hc hh).1.trans (hmover o₂ b' c' hc' hh').1.symm
  · intro o' b token hc
    rw [setCall_token]
    exact hholding token (hmover o' b _ hc trivial).2
  · intro o' b token updates hc
    rw [setCall_token]
    exact hinFlight token updates (hmover o' b _ hc trivial).2
  · intro o' b response hc
    rw [setCall_token, setCall_log]
    exact hresponded response (hmover o' b _ hc trivial).2
  · intro hnone
    rw [setCall_token, setCall_log]
    refine hcurrent fun response heq => hnone o batch response ?_
    rw [hself, heq]
  · rw [setCall_log]
    exact hlatest

/-- While one call holds the token and has no answer yet, the token is the latest one. -/
theorem TokenInvariant.latest_eq {initial : String} {s : State} (h : TokenInvariant initial s)
    {o : Owner} {batch : List QueuedCheckpoint} {call : BatchCall}
    (hcall : s.callOf o = some (batch, call)) (hh : call.HoldsToken)
    (hno : ∀ response, call ≠ .responded response) : latestToken initial s.log = s.token := by
  refine h.current fun o' b response hc => ?_
  obtain rfl := h.alone o o' batch b call _ hcall hc hh trivial
  rw [hcall] at hc
  cases hc
  exact hno response rfl

theorem TokenInvariant.step {initial : String} {s s' : State} {l : Label}
    (h : TokenInvariant initial s) (hm : Move s l s') (hl : ReadsAlone s l) :
    TokenInvariant initial s' := by
  have hothers : ∀ {o batch call}, s.callOf o = some (batch, call) → call.HoldsToken →
      ∀ o' b c, o' ≠ o → s.callOf o' = some (b, c) → ¬ c.HoldsToken :=
    fun hc hh o' b c hne hc' hh' => hne (h.alone _ _ _ _ _ _ hc' hc hh' hh)
  have hmove := hm
  cases hm with
  | @readToken o batch hcall =>
      have halone := hl o rfl
      have hlatest : latestToken initial s.log = s.token :=
        h.current fun o' b response hc => halone o' b _ hc trivial
      exact .of_call hcall rfl rfl (fun o' b c _ => halone o' b c) (fun _ heq => by cases heq; rfl)
        (fun _ _ heq => by cases heq) (fun _ heq => by cases heq) (fun _ => hlatest) h.latest
  | @reject o batch token e hcall _ =>
      have hlatest := h.latest_eq hcall trivial (by nofun)
      exact .of_call hcall rfl rfl (hothers hcall trivial) (fun _ heq => by cases heq)
        (fun _ _ heq => by cases heq) (fun _ heq => by cases heq) (fun _ => hlatest) h.latest
  | @send o batch token updates hcall _ =>
      have htoken := h.holding o batch token hcall
      have hlatest := h.latest_eq hcall trivial (by nofun)
      exact .of_call hcall rfl rfl (hothers hcall trivial) (fun _ heq => by cases heq)
        (fun _ _ heq => by cases heq; exact htoken) (fun _ heq => by cases heq) (fun _ => hlatest)
        ⟨htoken.trans hlatest.symm, h.latest⟩
  | @fail o batch token updates e hcall =>
      have hlatest := h.latest_eq hcall trivial (by nofun)
      exact .of_call hcall rfl rfl (hothers hcall trivial) (fun _ heq => by cases heq)
        (fun _ _ heq => by cases heq) (fun _ heq => by cases heq) (fun _ => hlatest) h.latest
  | @accept o batch token updates response hcall =>
      have hlatest := h.latest_eq hcall trivial (by nofun)
      have hnew : response.checkpointToken.getD (latestToken initial s.log) =
          response.checkpointToken.getD s.token := by rw [hlatest]
      exact .of_call hcall rfl rfl (hothers hcall trivial) (fun _ heq => by cases heq)
        (fun _ _ heq => by cases heq) (fun _ heq => by cases heq; exact hnew)
        (fun hno => absurd rfl (hno response)) h.latest
  | @writeToken o batch response hcall =>
      have hlatest := h.responded o batch response hcall
      exact .of_call hcall rfl rfl (hothers hcall trivial) (fun _ heq => by cases heq)
        (fun _ _ heq => by cases heq) (fun _ heq => by cases heq) (fun _ => hlatest) h.latest
  | _ => exact h.quiet (hmove.quiet rfl)

theorem callOf_new (token : String) (stepData : Table) (o : Owner) :
    (State.new token stepData).callOf o = none := by
  cases o <;> rfl

theorem tokenInvariant_new (token : String) (stepData : Table) :
    TokenInvariant token (State.new token stepData) := by
  refine ⟨?_, ?_, ?_, ?_, fun _ => rfl, trivial⟩
  all_goals
    intros
    rename_i hc
    simp only [callOf_new, reduceCtorEq] at *

theorem token_linear {token : String} {stepData : Table} {s : State}
    (h : (machine token stepData).ReachableBy ReadsAlone s) : TokenLinear token s := by
  have hinv : TokenInvariant token s :=
    h.invariant (fun _ hs => hs ▸ tokenInvariant_new token stepData)
      fun _ _ _ _ hi hl hs => hi.step (move_of_step hs) hl
  refine ⟨?_, hinv.latest⟩
  intro o o' batch batch' _ _ _ _ hc hc' hne
  exact absurd (hinv.alone o o' batch batch' _ _ hc hc' trivial trivial) hne

/-- Two replaying invokes in parallel branches refresh the state at the same time. -/
def twoRefreshes : List Label :=
  [.force 0, .force 1, .readToken (.force 0), .readToken (.force 1), .send (.force 0), .send (.force 1)]

theorem twoRefreshes_share : ¬ ∀ s, (machine "t0" fun _ => none).Reachable s → TokenLinear "t0" s := by
  intro h
  have hend : ((machine "t0" fun _ => none).run (.new "t0" fun _ => none) twoRefreshes).map
      (fun s => (s.callOf (.force 0), s.callOf (.force 1))) =
      some (some ([], .inFlight "t0" []), some ([], .inFlight "t0" [])) := by decide +kernel
  obtain ⟨s, hrun, hs⟩ := Option.map_eq_some_iff.mp hend
  simp only [Prod.mk.injEq] at hs
  have hreach := Transition.Machine.run_reachable rfl twoRefreshes hrun
  exact (h s hreach).distinct (.force 0) (.force 1) _ _ _ _ _ _ hs.1 hs.2 (by nofun) rfl

/-! ## The worker alone -/

def NoForce (_ : State) (l : Label) : Prop := ∀ n, l ≠ .force n

theorem forces_eq_none {token : String} {stepData : Table} {s : State}
    (h : (machine token stepData).ReachableBy NoForce s) (n : Nat) : s.forces n = none := by
  refine h.invariant (I := fun s => s.forces n = none) (fun _ hs => hs ▸ rfl) ?_
  intro s l s' _ hnone hl hs
  cases move_of_step hs with
  | @force m hm => exact absurd rfl (hl m)
  | @readToken o _ hcall | @send o _ _ _ hcall _ | @reject o _ _ _ hcall _ | @fail o _ _ _ _ hcall
  | @accept o _ _ _ _ hcall | @writeToken o _ _ hcall | @merge o _ _ hcall =>
      cases o with
      | worker w => exact hnone
      | force m =>
          obtain ⟨-, hm⟩ := callOf_force.mp hcall
          have hne : n ≠ m := by
            rintro rfl
            rw [hnone] at hm
            cases hm
          exact (Function.update_of_ne hne _ _).trans hnone
  | _ => exact hnone

theorem readsAlone_of_noForce {token : String} {stepData : Table} {s s' : State} {l : Label}
    (h : (machine token stepData).ReachableBy NoForce s) (hs : step s l = some s') : ReadsAlone s l := by
  rintro o rfl o' batch' call' hc' hh'
  have hsingle := ServedQueue.singleWorker_run (view_new_fresh token stepData)
    (simulated (fun _ _ => True) (fun _ _ _ _ _ => trivial) h)
  have hactive : ∀ {w batch call}, s.workers w = some (.calling batch call) → (s.view.workers w).Active := by
    intro w batch call hw
    rw [view_workers hw]
    trivial
  cases move_of_step hs with
  | @readToken _ batch hc =>
      obtain w | n := o
      · obtain v | m := o'
        · have hw := callOf_worker.mp hc
          have hv := callOf_worker.mp hc'
          obtain rfl := hsingle.unique w v (hactive hw) (hactive hv)
          rw [hw] at hv
          cases hv
          exact hh'
        · have hm := (callOf_force.mp hc').2
          rw [forces_eq_none h m] at hm
          cases hm
      · have hn := (callOf_force.mp hc).2
        rw [forces_eq_none h n] at hn
        cases hn

/-- Without forced refreshes the copies of the token never overlap. -/
theorem readsAlone_run {token : String} {stepData : Table} {s : State}
    (h : (machine token stepData).ReachableBy NoForce s) :
    (machine token stepData).ReachableBy ReadsAlone s := by
  induction h with
  | init hs => exact .init hs
  | step hr _ hs ih => exact .step ih (readsAlone_of_noForce hr hs) hs

/-- Two batches of the worker; the service answers the first with a new token. -/
def twoBatches : List Label :=
  pushLabels 0 "a" ++ [.maybeStart 0 0, .takeBatch 0, .readToken (.worker 0), .send (.worker 0),
    .respond (.worker 0) (.ok { checkpointToken := some "t1" }), .writeToken (.worker 0),
    .merge (.worker 0), .finishBatch 0, .notify 0, .notify 0, .checkRetry 0] ++ pushLabels 1 "b" ++
    [.maybeStart 1 1, .takeBatch 0, .readToken (.worker 0), .send (.worker 0)]

def Label.isForce : Label → Bool
  | .force _ => true
  | _ => false

theorem token_linear_twoBatches :
    ∃ s, (s.callOf (.worker 0)).map (·.2) = some (.inFlight "t1" [startUpdate "b"]) ∧
      TokenLinear "t0" s := by
  have hend : ((machine "t0" fun _ => none).checkedRun (fun _ l => !l.isForce)
      (.new "t0" fun _ => none) twoBatches).map (fun s => (s.callOf (.worker 0)).map (·.2)) =
      some (some (.inFlight "t1" [startUpdate "b"])) := by decide +kernel
  obtain ⟨s, hrun, hs⟩ := Option.map_eq_some_iff.mp hend
  refine ⟨s, hs, @token_linear "t0" (fun _ => none) s (readsAlone_run ?_)⟩
  refine Transition.Machine.checkedRun_reachableBy (fun r l _ hok => ?_) twoBatches (.init rfl) hrun
  rintro n rfl
  cases hok

end LambdaDurable.CheckpointManager
