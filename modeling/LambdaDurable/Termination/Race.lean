import LambdaDurable.Library.Transition
import LambdaDurable.Library.Watch
import LambdaDurable.Termination.Manager
import Mathlib.Data.List.Basic

/-!
# Competing terminations

Any number of calls of `terminate`, of `wait_for_termination` and of `get_termination_result`,
each started at any time and none cancelled. The flag, the callback and the value of the channel
are those of the manager.
-/

namespace LambdaDurable.Termination

/-- How far a call of `wait_for_termination` has come with its clone of the receiver. -/
inductive Waiter
  | subscribed (rx : Watch.Receiver)
  | notified (rx : Watch.Receiver)
  | returned (result : TerminationResult)
  deriving DecidableEq, Repr

/-- No code reads `accepted`, the results of the calls that have set the flag, `invocations` of
the callback, nor `observed`, what `get_termination_result` has returned. -/
structure Race where
  manager : Termination := {}
  version : Nat := 0
  callers : List (TerminationResult × TerminateStage) := []
  waiters : List Waiter := []
  accepted : List TerminationResult := []
  invocations : Nat := 0
  observed : List (Option TerminationResult) := []

inductive RaceLabel
  | terminate (result : TerminationResult)
  | advance (c : Nat)
  | wait
  -- `changed` of the clone returns
  | changed (w : Nat)
  | borrow (w : Nat)
  | getTerminationResult

namespace Race

def channel (s : Race) : Watch.Channel (Option TerminationResult) :=
  { value := s.manager.published, version := s.version }

/-- The state after the call `c` has gone from stage `g` to `g'`. -/
def moved (s : Race) (c : Nat) (result : TerminationResult) (g g' : TerminateStage)
    (manager : Termination) : Race :=
  { s with
    manager
    callers := s.callers.set c (result, g')
    version := if g = .signalled then (s.channel.send (some result)).version else s.version
    accepted := if g' = .flagged then s.accepted ++ [result] else s.accepted
    invocations := if g' = .signalled then s.invocations + 1 else s.invocations }

def step (s : Race) : RaceLabel → Option Race
  | .terminate result => some { s with callers := s.callers ++ [(result, .waiting)] }
  | .advance c =>
    s.callers[c]?.bind fun (result, g) =>
      (s.manager.advance result g).map fun (manager, g') => s.moved c result g g' manager
  | .wait => some { s with waiters := s.waiters ++ [.subscribed {}] }
  | .changed w =>
    match s.waiters[w]? with
    | some (.subscribed rx) =>
      (s.channel.changed rx).map fun rx' => { s with waiters := s.waiters.set w (.notified rx') }
    | _ => none
  | .borrow w =>
    match s.waiters[w]? with
    | some (.notified rx) =>
      match s.channel.value with
      | some result => some { s with waiters := s.waiters.set w (.returned result) }
      | none => some { s with waiters := s.waiters.set w (.subscribed rx) }
    | _ => none
  | .getTerminationResult => some { s with observed := s.observed ++ [s.channel.value] }

def machine : Transition.Machine Race RaceLabel where
  init s := s = {}
  step := step

/-! ## The phases of a race -/

/-- The call that has set the flag, and how far it has come. -/
inductive Phase
  | unclaimed
  | flagged (c : Nat) (result : TerminationResult)
  | signalled (c : Nat) (result : TerminationResult)
  | published (c : Nat) (result : TerminationResult)

namespace Phase

def winner : Phase → Option (Nat × TerminationResult)
  | unclaimed => none
  | flagged c result | signalled c result | published c result => some (c, result)

def manager : Phase → Termination
  | unclaimed => {}
  | flagged _ _ => { terminated := true, locked := true }
  | signalled _ _ => { terminated := true, locked := true, isTerminating := true }
  | published _ result =>
    { terminated := true, isTerminating := true, published := some result }

def version : Phase → Nat
  | published _ _ => 1
  | _ => 0

def invocations : Phase → Nat
  | unclaimed | flagged _ _ => 0
  | signalled _ _ | published _ _ => 1

/-- The stages at which the call `c` can be. -/
def Stage : Phase → Nat → TerminateStage → Prop
  | unclaimed, _, g => g = .waiting
  | flagged c _, c', g => g = if c' = c then .flagged else .waiting
  | signalled c _, c', g => g = if c' = c then .signalled else .waiting
  | published c _, c', g => g = .returned ∨ (c' ≠ c ∧ g = .waiting)

/-- What a waiter can have seen. -/
def Sees : Phase → Waiter → Prop
  | published _ result, w =>
    w = .subscribed {} ∨ w = .notified { seen := 1 } ∨ w = .returned result
  | _, w => w = .subscribed {}

end Phase

/-- The race is in the phase. -/
structure InPhase (p : Phase) (s : Race) : Prop where
  manager : s.manager = p.manager
  version : s.version = p.version
  accepted : s.accepted = p.winner.toList.map (·.2)
  invocations : s.invocations = p.invocations
  winner : ∀ c result, p.winner = some (c, result) → ∃ g, s.callers[c]? = some (result, g)
  callers : ∀ c result g, s.callers[c]? = some (result, g) → p.Stage c g
  waiters : ∀ w ∈ s.waiters, p.Sees w
  observed : ∀ result, some result ∈ s.observed → p.manager.published = some result

theorem inPhase_start : InPhase .unclaimed {} where
  manager := rfl
  version := rfl
  accepted := rfl
  invocations := rfl
  winner := by simp [Phase.winner]
  callers := by simp
  waiters := by simp
  observed := by simp

variable {p : Phase} {s s' : Race}

theorem InPhase.terminate (h : InPhase p s) (result : TerminationResult) :
    InPhase p { s with callers := s.callers ++ [(result, .waiting)] } where
  manager := h.manager
  version := h.version
  accepted := h.accepted
  invocations := h.invocations
  winner c r hwinner := by
    obtain ⟨g, hg⟩ := h.winner c r hwinner
    exact ⟨g, by rw [List.getElem?_append_left (List.getElem?_eq_some_iff.mp hg).1, hg]⟩
  callers c r g hc := by
    rw [List.getElem?_append] at hc
    split at hc
    · exact h.callers c r g hc
    · rename_i hnew
      have hfresh : ∀ c' r', p.winner = some (c', r') → c ≠ c' := by
        rintro c' r' hwinner rfl
        obtain ⟨g', hg'⟩ := h.winner _ _ hwinner
        exact hnew (List.getElem?_eq_some_iff.mp hg').1
      obtain ⟨-, rfl⟩ : result = r ∧ TerminateStage.waiting = g := by
        obtain ⟨hlt, hget⟩ := List.getElem?_eq_some_iff.mp hc
        simpa using hget
      cases p with
      | unclaimed => rfl
      | flagged c' r' => exact (if_neg (hfresh c' r' rfl)).symm
      | signalled c' r' => exact (if_neg (hfresh c' r' rfl)).symm
      | published c' r' => exact Or.inr ⟨hfresh c' r' rfl, rfl⟩
  waiters := h.waiters
  observed := h.observed

theorem callers_set {c c' : Nat} {result r : TerminationResult} {g k : TerminateStage}
    {callers : List (TerminationResult × TerminateStage)}
    (h : (callers.set c (result, g))[c']? = some (r, k)) :
    (c' = c ∧ r = result ∧ k = g) ∨ (c' ≠ c ∧ callers[c']? = some (r, k)) := by
  rw [List.getElem?_set] at h
  split at h
  · rename_i hc
    split at h
    · cases h
      exact Or.inl ⟨hc.symm, rfl, rfl⟩
    · cases h
  · rename_i hc
    exact Or.inr ⟨Ne.symm hc, h⟩

theorem callers_winner {c c' : Nat} {result r : TerminationResult} {g g' k : TerminateStage}
    {callers : List (TerminationResult × TerminateStage)}
    (hc : callers[c]? = some (result, g)) (h : callers[c']? = some (r, k)) :
    ∃ k', (callers.set c (result, g'))[c']? = some (r, k') := by
  by_cases hcc : c = c'
  · subst hcc
    rw [hc] at h
    cases h
    exact ⟨g', by rw [List.getElem?_set_self (List.getElem?_eq_some_iff.mp hc).1]⟩
  · exact ⟨k, by rw [List.getElem?_set_ne hcc, h]⟩

theorem InPhase.claim {c : Nat} {result : TerminationResult} (h : InPhase .unclaimed s)
    (hc : s.callers[c]? = some (result, .waiting)) :
    InPhase (.flagged c result) (s.moved c result .waiting .flagged
      { s.manager with terminated := true, locked := true }) where
  manager := by rw [moved, h.manager]; rfl
  version := h.version
  accepted := by rw [moved, h.accepted]; rfl
  invocations := h.invocations
  winner := by
    rintro _ _ ⟨⟩
    exact callers_winner hc hc
  callers c' r g hg := by
    obtain ⟨rfl, -, rfl⟩ | ⟨hne, hg⟩ := callers_set hg
    · exact (if_pos rfl).symm
    · exact (h.callers c' r g hg).trans (if_neg hne).symm
  waiters := h.waiters
  observed r hr := by
    have hnone := h.observed r hr
    cases hnone

theorem InPhase.signal {c : Nat} {result : TerminationResult} (h : InPhase (.flagged c result) s)
    (hc : s.callers[c]? = some (result, .flagged)) :
    InPhase (.signalled c result) (s.moved c result .flagged .signalled
      { s.manager with isTerminating := true }) where
  manager := by rw [moved, h.manager]; rfl
  version := h.version
  accepted := h.accepted
  invocations := by rw [moved, h.invocations]; rfl
  winner := by
    rintro _ _ ⟨⟩
    exact callers_winner hc hc
  callers c' r g hg := by
    obtain ⟨rfl, -, rfl⟩ | ⟨hne, hg⟩ := callers_set hg
    · exact (if_pos rfl).symm
    · exact (h.callers c' r g hg).trans ((if_neg hne).trans (if_neg hne).symm)
  waiters := h.waiters
  observed r hr := by
    have hnone := h.observed r hr
    cases hnone

theorem InPhase.publish {c : Nat} {result : TerminationResult}
    (h : InPhase (.signalled c result) s) (hc : s.callers[c]? = some (result, .signalled)) :
    InPhase (.published c result) (s.moved c result .signalled .returned
      { s.manager with published := some result, locked := false }) where
  manager := by rw [moved, h.manager]; rfl
  version := by simp [moved, channel, h.version, Watch.Channel.send, Phase.version]
  accepted := h.accepted
  invocations := h.invocations
  winner := by
    rintro _ _ ⟨⟩
    exact callers_winner hc hc
  callers c' r g hg := by
    obtain ⟨rfl, -, rfl⟩ | ⟨hne, hg⟩ := callers_set hg
    · exact Or.inl rfl
    · exact Or.inr ⟨hne, (h.callers c' r g hg).trans (if_neg hne)⟩
  waiters w hw := Or.inl (h.waiters w hw)
  observed r hr := by
    have hnone := h.observed r hr
    cases hnone

/-- A call that finds the flag set returns; the flag is free only once a result is published. -/
theorem InPhase.giveUp {c c' : Nat} {result r : TerminationResult}
    (h : InPhase (.published c' r) s) (hc : s.callers[c]? = some (result, .waiting)) :
    InPhase (.published c' r) (s.moved c result .waiting .returned s.manager) where
  manager := h.manager
  version := h.version
  accepted := h.accepted
  invocations := h.invocations
  winner := by
    rintro _ _ ⟨⟩
    obtain ⟨g, hg⟩ := h.winner c' r rfl
    exact callers_winner hc hg
  callers k r' g hg := by
    obtain ⟨rfl, -, rfl⟩ | ⟨hne, hg⟩ := callers_set hg
    · exact Or.inl rfl
    · exact h.callers k r' g hg
  waiters := h.waiters
  observed := h.observed

theorem InPhase.of_flagged {c : Nat} {result : TerminationResult} (h : InPhase p s)
    (hc : s.callers[c]? = some (result, .flagged)) : p = .flagged c result := by
  have hstage := h.callers c result _ hc
  cases p with
  | flagged c' r =>
    have hcc : c = c' := by
      by_contra hne
      rw [Phase.Stage, if_neg hne] at hstage
      cases hstage
    obtain ⟨g, hg⟩ := h.winner c' r rfl
    rw [← hcc, hc] at hg
    cases hg
    rw [hcc]
  | unclaimed => cases hstage
  | signalled =>
    simp only [Phase.Stage] at hstage
    split at hstage <;> cases hstage
  | published =>
    obtain h | ⟨-, h⟩ := hstage <;> cases h

theorem InPhase.of_signalled {c : Nat} {result : TerminationResult} (h : InPhase p s)
    (hc : s.callers[c]? = some (result, .signalled)) : p = .signalled c result := by
  have hstage := h.callers c result _ hc
  cases p with
  | signalled c' r =>
    have hcc : c = c' := by
      by_contra hne
      rw [Phase.Stage, if_neg hne] at hstage
      cases hstage
    obtain ⟨g, hg⟩ := h.winner c' r rfl
    rw [← hcc, hc] at hg
    cases hg
    rw [hcc]
  | unclaimed => cases hstage
  | flagged =>
    simp only [Phase.Stage] at hstage
    split at hstage <;> cases hstage
  | published =>
    obtain h | ⟨-, h⟩ := hstage <;> cases h

/-- While nobody holds the flag, either nobody has set it or a result is published. -/
theorem InPhase.of_free (h : InPhase p s) (hlocked : s.manager.locked = false) :
    (p = .unclaimed ∧ s.manager.terminated = false) ∨
      ∃ c r, p = .published c r ∧ s.manager.terminated = true := by
  rw [h.manager] at hlocked ⊢
  cases p with
  | unclaimed => exact Or.inl ⟨rfl, rfl⟩
  | flagged => cases hlocked
  | signalled => cases hlocked
  | published c r => exact Or.inr ⟨c, r, rfl, rfl⟩

theorem InPhase.advance {c : Nat} {result : TerminationResult} {g g' : TerminateStage}
    {manager : Termination} (h : InPhase p s) (hc : s.callers[c]? = some (result, g))
    (hadv : s.manager.advance result g = some (manager, g')) :
    ∃ p', InPhase p' (s.moved c result g g' manager) := by
  obtain ⟨rfl, hlocked, hflag, rfl, rfl⟩ | ⟨rfl, hlocked, hflag, rfl, rfl⟩ | ⟨rfl, rfl, rfl⟩ |
      ⟨rfl, rfl, rfl⟩ := advance_cases hadv
  · obtain ⟨-, hfree⟩ | ⟨c', r, rfl, -⟩ := h.of_free hlocked
    · rw [hflag] at hfree
      cases hfree
    · exact ⟨_, h.giveUp hc⟩
  · obtain ⟨rfl, -⟩ | ⟨c', r, -, hset⟩ := h.of_free hlocked
    · exact ⟨_, h.claim hc⟩
    · rw [hflag] at hset
      cases hset
  · obtain rfl := h.of_flagged hc
    exact ⟨_, h.signal hc⟩
  · obtain rfl := h.of_signalled hc
    exact ⟨_, h.publish hc⟩

/-- A waiter goes on to something that it can have seen. -/
theorem InPhase.setWaiter {w : Nat} {next : Waiter} (h : InPhase p s) (hnext : p.Sees next) :
    InPhase p { s with waiters := s.waiters.set w next } where
  manager := h.manager
  version := h.version
  accepted := h.accepted
  invocations := h.invocations
  winner := h.winner
  callers := h.callers
  waiters w' hw' := by
    obtain hw' | rfl := List.mem_or_eq_of_mem_set hw'
    · exact h.waiters w' hw'
    · exact hnext
  observed := h.observed

theorem Phase.sees_subscribed (p : Phase) : p.Sees (.subscribed {}) := by
  cases p with
  | published => exact Or.inl rfl
  | _ => rfl

theorem InPhase.wait (h : InPhase p s) :
    InPhase p { s with waiters := s.waiters ++ [.subscribed {}] } where
  manager := h.manager
  version := h.version
  accepted := h.accepted
  invocations := h.invocations
  winner := h.winner
  callers := h.callers
  waiters w hw := by
    obtain hw | hw := List.mem_append.mp hw
    · exact h.waiters w hw
    · rw [List.mem_singleton.mp hw]
      exact p.sees_subscribed
  observed := h.observed

theorem InPhase.getTerminationResult (h : InPhase p s) :
    InPhase p { s with observed := s.observed ++ [s.channel.value] } where
  manager := h.manager
  version := h.version
  accepted := h.accepted
  invocations := h.invocations
  winner := h.winner
  callers := h.callers
  waiters := h.waiters
  observed result hr := by
    obtain hr | hr := List.mem_append.mp hr
    · exact h.observed result hr
    · rw [List.mem_singleton.mp hr, channel, h.manager]

/-- A subscription sees a change, and a notified waiter a result, only when one is published. -/
theorem InPhase.of_changed {rx rx' : Watch.Receiver} (h : InPhase p s)
    (hsees : p.Sees (.subscribed rx)) (hchanged : s.channel.changed rx = some rx') :
    p.Sees (.notified rx') := by
  obtain ⟨hne, hseen⟩ := Watch.Channel.changed_eq_some_iff.mp hchanged
  rw [channel, h.version] at hne hseen
  cases p with
  | published c r => exact Or.inr (Or.inl (congrArg _ (congrArg Watch.Receiver.mk hseen)))
  | unclaimed => cases hsees; exact absurd rfl hne
  | flagged => cases hsees; exact absurd rfl hne
  | signalled => cases hsees; exact absurd rfl hne

theorem InPhase.of_borrow {rx : Watch.Receiver} (h : InPhase p s)
    (hsees : p.Sees (.notified rx)) :
    ∃ c result, p = .published c result ∧ s.channel.value = some result := by
  rw [channel, h.manager]
  cases p with
  | published c result => exact ⟨c, result, rfl, rfl⟩
  | unclaimed => cases hsees
  | flagged => cases hsees
  | signalled => cases hsees

theorem inPhase_step {l : RaceLabel} (h : InPhase p s) (hstep : machine.step s l = some s') :
    ∃ p', InPhase p' s' := by
  cases l with
  | terminate result =>
    obtain rfl := Option.some.inj hstep
    exact ⟨p, h.terminate result⟩
  | advance c =>
    obtain ⟨⟨result, g⟩, hc, hmap⟩ := Option.bind_eq_some_iff.mp hstep
    obtain ⟨⟨manager, g'⟩, hadv, rfl⟩ := Option.map_eq_some_iff.mp hmap
    exact h.advance hc hadv
  | wait =>
    obtain rfl := Option.some.inj hstep
    exact ⟨p, h.wait⟩
  | changed w =>
    simp only [machine, step] at hstep
    split at hstep <;> rename_i hw
    · obtain ⟨rx', hchanged, rfl⟩ := Option.map_eq_some_iff.mp hstep
      exact ⟨p, h.setWaiter (h.of_changed (h.waiters _ (List.mem_of_getElem? hw)) hchanged)⟩
    · cases hstep
  | borrow w =>
    simp only [machine, step] at hstep
    split at hstep <;> rename_i hw
    · obtain ⟨c, result, rfl, hvalue⟩ := h.of_borrow (h.waiters _ (List.mem_of_getElem? hw))
      rw [hvalue] at hstep
      obtain rfl := Option.some.inj hstep
      exact ⟨_, h.setWaiter (Or.inr (Or.inr rfl))⟩
    · cases hstep
  | getTerminationResult =>
    obtain rfl := Option.some.inj hstep
    exact ⟨p, h.getTerminationResult⟩

theorem inPhase_of_reachable (h : machine.Reachable s) : ∃ p, InPhase p s := by
  refine h.invariant (I := fun s => ∃ p, InPhase p s) ?_ ?_
  · rintro s rfl
    exact ⟨_, inPhase_start⟩
  · rintro s l s' - ⟨p, hp⟩ hstep
    exact inPhase_step hp hstep

theorem InPhase.advances {c : Nat} {result : TerminationResult} {g : TerminateStage}
    (h : InPhase p s) (hc : s.callers[c]? = some (result, g)) (hg : g ≠ .returned) :
    ∃ c' s', machine.step s (.advance c') = some s' := by
  have hmove : ∀ {c' : Nat} {result' : TerminationResult} {g' : TerminateStage},
      s.callers[c']? = some (result', g') → (∃ t, s.manager.advance result' g' = some t) →
      ∃ c' s', machine.step s (.advance c') = some s' := by
    rintro c' result' g' hc' ⟨⟨manager, g''⟩, hadv⟩
    exact ⟨c', _, by simp only [machine, step, hc', Option.bind_some, hadv, Option.map_some]; rfl⟩
  have hfree : s.manager.locked = false → ∃ t, s.manager.advance result g = some t := by
    intro hlocked
    cases g with
    | waiting =>
      simp only [Termination.advance, hlocked, Bool.false_eq_true, if_false]
      split <;> exact ⟨_, rfl⟩
    | flagged => exact ⟨_, rfl⟩
    | signalled => exact ⟨_, rfl⟩
    | returned => exact absurd rfl hg
  cases p with
  | unclaimed => exact hmove hc (hfree (h.manager ▸ rfl))
  | published => exact hmove hc (hfree (h.manager ▸ rfl))
  | flagged c' r =>
    obtain ⟨g', hg'⟩ := h.winner c' r rfl
    obtain rfl : g' = .flagged := (h.callers c' r g' hg').trans (if_pos rfl)
    exact hmove hg' ⟨_, rfl⟩
  | signalled c' r =>
    obtain ⟨g', hg'⟩ := h.winner c' r rfl
    obtain rfl : g' = .signalled := (h.callers c' r g' hg').trans (if_pos rfl)
    exact hmove hg' ⟨_, rfl⟩

theorem borrow_returns {w : Nat} {rx : Watch.Receiver} {result : TerminationResult}
    (hw : s.waiters[w]? = some (.notified rx)) (h : s.manager.published = some result) :
    ∃ s', machine.step s (.borrow w) = some s' ∧ s'.waiters[w]? = some (.returned result) := by
  refine ⟨{ s with waiters := s.waiters.set w (.returned result) }, ?_, ?_⟩
  · simp only [machine, step, hw, channel, h]
  · exact List.getElem?_set_self (List.getElem?_eq_some_iff.mp hw).1

/-- A published result reaches every waiter, however late it has subscribed. -/
theorem InPhase.reaches {c w : Nat} {result : TerminationResult} {waiter : Waiter}
    (h : InPhase (.published c result) s) (hw : s.waiters[w]? = some waiter) :
    ∃ ls s', machine.run s ls = some s' ∧ s'.waiters[w]? = some (.returned result) := by
  have hpublished : s.manager.published = some result := h.manager ▸ rfl
  obtain rfl | rfl | rfl := h.waiters waiter (List.mem_of_getElem? hw)
  · have hchannel : s.channel = Watch.Channel.send { value := none } (some result) := by
      rw [channel, h.version, h.manager]
      rfl
    have hchanged : s.channel.changed {} = some { seen := 1 } :=
      hchannel ▸ Watch.Channel.changed_send le_rfl _
    let t := { s with waiters := s.waiters.set w (.notified { seen := 1 }) }
    have hstep : machine.step s (.changed w) = some t := by
      simp only [machine, step, hw, hchanged, Option.map_some, t]
    have ht : t.waiters[w]? = some (.notified { seen := 1 }) :=
      List.getElem?_set_self (List.getElem?_eq_some_iff.mp hw).1
    obtain ⟨s', hs', hreturned⟩ := borrow_returns ht hpublished
    exact ⟨[.changed w, .borrow w], s', by simp [hstep, hs'], hreturned⟩
  · obtain ⟨s', hs', hreturned⟩ := borrow_returns hw hpublished
    exact ⟨[.borrow w], s', by simp [hs'], hreturned⟩
  · exact ⟨[], s, rfl, hw⟩

theorem InPhase.of_published {result : TerminationResult} (h : InPhase p s)
    (hresult : s.manager.published = some result) : ∃ c, p = .published c result := by
  rw [h.manager] at hresult
  cases p with
  | published c r =>
    cases hresult
    exact ⟨c, rfl⟩
  | unclaimed => cases hresult
  | flagged => cases hresult
  | signalled => cases hresult

/-- Whatever the order, one result is accepted, its call calls the callback once and then
publishes it, and nobody sees another. -/
theorem first_termination_wins (h : machine.Reachable s) :
    (s.accepted.length ≤ 1 ∧ s.invocations ≤ 1) ∧
      (∀ result, s.manager.published = some result → s.accepted = [result] ∧ s.invocations = 1 ∧
        (∃ (c : Nat) (g : TerminateStage), s.callers[c]? = some (result, g)) ∧
        ∀ w < s.waiters.length,
          ∃ ls s', machine.run s ls = some s' ∧ s'.waiters[w]? = some (.returned result)) ∧
      (∀ result, Waiter.returned result ∈ s.waiters ∨ some result ∈ s.observed →
        s.manager.published = some result) ∧
      (∀ (c : Nat) (result : TerminationResult), s.callers[c]? = some (result, .returned) →
        s.manager.published.isSome) ∧
      ∀ (c : Nat) (result : TerminationResult) (g : TerminateStage),
        s.callers[c]? = some (result, g) → g ≠ .returned →
        ∃ c' s', machine.step s (.advance c') = some s' := by
  obtain ⟨p, hp⟩ := inPhase_of_reachable h
  refine ⟨?_, ?_, ?_, ?_, fun c result g => hp.advances⟩
  · rw [hp.accepted, hp.invocations]
    cases p <;> exact ⟨by simp [Phase.winner], by simp [Phase.invocations]⟩
  · intro result hresult
    obtain ⟨c, rfl⟩ := hp.of_published hresult
    exact ⟨hp.accepted, hp.invocations, ⟨c, hp.winner c result rfl⟩,
      fun w hw => hp.reaches (List.getElem?_eq_getElem hw)⟩
  · rintro result (hw | hr)
    · have hsees := hp.waiters _ hw
      rw [hp.manager]
      cases p with
      | published c r =>
        obtain hsub | hnotified | hreturned := hsees
        · cases hsub
        · cases hnotified
        · cases hreturned
          rfl
      | unclaimed => cases hsees
      | flagged => cases hsees
      | signalled => cases hsees
    · exact hp.manager ▸ hp.observed result hr
  · intro c result hc
    have hstage := hp.callers c result _ hc
    rw [hp.manager]
    cases p with
    | published => rfl
    | unclaimed => cases hstage
    | flagged =>
      simp only [Phase.Stage] at hstage
      split at hstage <;> cases hstage
    | signalled =>
      simp only [Phase.Stage] at hstage
      split at hstage <;> cases hstage

/-- Two calls, of which the second one wins, with a waiter from before and one from after. -/
def lateRun : List RaceLabel :=
  [.wait, .terminate (.new .retryScheduled), .terminate (.new .waitScheduled), .advance 1,
    .advance 1, .advance 1, .advance 0, .wait, .changed 0, .borrow 0, .changed 1, .borrow 1,
    .getTerminationResult]

theorem first_termination_wins_late :
    ∃ s, machine.run {} lateRun = some s ∧ s.waiters.length = 2 ∧
      s.accepted = [.new .waitScheduled] ∧ s.invocations = 1 := by
  have hobserved : (machine.run {} lateRun).map (fun s => (s.waiters.length, s.observed)) =
      some (2, [some (.new .waitScheduled)]) := by decide
  obtain ⟨s, hs, hpair⟩ := Option.map_eq_some_iff.mp hobserved
  obtain ⟨hlength, hreads⟩ := Prod.mk.inj hpair
  obtain ⟨-, hpublished, hseen, -⟩ :=
    first_termination_wins (Transition.Machine.run_reachable rfl lateRun hs)
  obtain ⟨haccepted, hinvocations, -⟩ := hpublished _ (hseen (.new .waitScheduled) (by simp [hreads]))
  exact ⟨s, hs, hlength, haccepted, hinvocations⟩

end Race

end LambdaDurable.Termination
