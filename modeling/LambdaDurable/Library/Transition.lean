import Mathlib.Logic.Relation

/-!
# Machines given by a partial transition function

A label carries every choice the environment makes, so a run is a list of labels
and can be evaluated. Safety is proved of the states reached by runs whose steps
all satisfy a side condition on the state before the step and the label taken.
-/

namespace Transition

universe u v w x

structure Machine (σ : Type u) (ℓ : Type v) where
  init : σ → Prop
  step : σ → ℓ → Option σ

namespace Machine

variable {σ : Type u} {ℓ : Type v} (M : Machine σ ℓ)

/-- States reached by runs whose every step `(s, l)` satisfies `allow`. -/
inductive ReachableBy (allow : σ → ℓ → Prop) : σ → Prop
  | init {s : σ} : M.init s → ReachableBy allow s
  | step {s s' : σ} {l : ℓ} : ReachableBy allow s → allow s l → M.step s l = some s' →
      ReachableBy allow s'

def Reachable (s : σ) : Prop := M.ReachableBy (fun _ _ => True) s

variable {M} {allow : σ → ℓ → Prop}

theorem ReachableBy.mono {allow' : σ → ℓ → Prop} (hsub : ∀ s l, allow s l → allow' s l) {s : σ}
    (h : M.ReachableBy allow s) : M.ReachableBy allow' s := by
  induction h with
  | init hs => exact .init hs
  | step _ hl hstep ih => exact .step ih (hsub _ _ hl) hstep

/-- The states before the steps are reachable as well. -/
theorem ReachableBy.along {s : σ} (h : M.ReachableBy allow s) :
    M.ReachableBy (fun s l => M.ReachableBy allow s ∧ allow s l) s := by
  induction h with
  | init hs => exact .init hs
  | step hr hl hstep ih => exact .step ih ⟨hr, hl⟩ hstep

/-- The steps have been taken. -/
theorem ReachableBy.taken {s : σ} (h : M.ReachableBy allow s) :
    M.ReachableBy (fun s l => allow s l ∧ ∃ s', M.step s l = some s') s := by
  induction h with
  | init hs => exact .init hs
  | step _ hl hstep ih => exact ih.step ⟨hl, _, hstep⟩ hstep

/-- Simulation up to stuttering: runs of the machine project to runs of the relation `R`. -/
theorem ReachableBy.simulates {τ : Type w} {R : τ → τ → Prop} (view : σ → τ)
    (hstep : ∀ s l s', allow s l → M.step s l = some s' → view s' = view s ∨ R (view s) (view s'))
    {s : σ} (h : M.ReachableBy allow s) :
    ∃ s₀, M.init s₀ ∧ Relation.ReflTransGen R (view s₀) (view s) := by
  induction h with
  | @init s hs => exact ⟨s, hs, .refl⟩
  | step _ hl hs ih =>
      obtain ⟨s₀, hinit, hrun⟩ := ih
      refine ⟨s₀, hinit, ?_⟩
      obtain heq | hR := hstep _ _ _ hl hs
      · rwa [heq]
      · exact hrun.tail hR

theorem ReachableBy.reachable {s : σ} (h : M.ReachableBy allow s) : M.Reachable s :=
  h.mono fun _ _ _ => trivial

/-- The invariant rule. The step case may use that the state before is reachable,
so invariants proved earlier are available to later ones. -/
theorem ReachableBy.invariant {I : σ → Prop} (hinit : ∀ s, M.init s → I s)
    (hstep : ∀ s l s', M.ReachableBy allow s → I s → allow s l → M.step s l = some s' → I s')
    {s : σ} (h : M.ReachableBy allow s) : I s := by
  induction h with
  | init hs => exact hinit _ hs
  | step hr hl hs ih => exact hstep _ _ _ hr ih hl hs

theorem Reachable.invariant {I : σ → Prop} (hinit : ∀ s, M.init s → I s)
    (hstep : ∀ s l s', M.Reachable s → I s → M.step s l = some s' → I s')
    {s : σ} (h : M.Reachable s) : I s :=
  ReachableBy.invariant hinit (fun s l s' hr hi _ hs => hstep s l s' hr hi hs) h

variable (M)

def run (s : σ) (ls : List ℓ) : Option σ := ls.foldlM M.step s

@[simp] theorem run_nil (s : σ) : M.run s [] = some s := rfl

@[simp] theorem run_cons (s : σ) (l : ℓ) (ls : List ℓ) :
    M.run s (l :: ls) = (M.step s l).bind fun t => M.run t ls := rfl

variable {M}

theorem run_preserves {P : σ → Prop} (hstep : ∀ s l s', P s → M.step s l = some s' → P s')
    (ls : List ℓ) {s t : σ} (hs : P s) (h : M.run s ls = some t) : P t := by
  induction ls generalizing s with
  | nil =>
    obtain rfl : s = t := by simpa using h
    exact hs
  | cons l ls ih =>
    obtain ⟨r, hr, ht⟩ := Option.bind_eq_some_iff.mp (M.run_cons s l ls ▸ h)
    exact ih (hstep s l r hs hr) ht

theorem run_reachable {s t : σ} (hs : M.init s) (ls : List ℓ) (h : M.run s ls = some t) :
    M.Reachable t :=
  run_preserves (P := M.Reachable) (fun _ _ _ hr hstep => .step hr trivial hstep) ls (.init hs) h

variable (M)

/-- A run that checks a side condition before each step. -/
def checkedRun (ok : σ → ℓ → Bool) (s : σ) (ls : List ℓ) : Option σ :=
  ls.foldlM (fun s l => if ok s l then M.step s l else none) s

variable {M}

theorem checkedRun_cons {ok : σ → ℓ → Bool} {s t : σ} {l : ℓ} {ls : List ℓ}
    (h : M.checkedRun ok s (l :: ls) = some t) :
    ok s l = true ∧ ∃ r, M.step s l = some r ∧ M.checkedRun ok r ls = some t := by
  rw [checkedRun, List.foldlM_cons] at h
  obtain ⟨r, hr, ht⟩ := Option.bind_eq_some_iff.mp h
  simp only [Option.ite_none_right_eq_some] at hr
  exact ⟨hr.1, r, hr.2, ht⟩

theorem checkedRun_append {ok : σ → ℓ → Bool} {s t : σ} {ls ls' : List ℓ}
    (h : M.checkedRun ok s ls = some t) : M.checkedRun ok s (ls ++ ls') = M.checkedRun ok t ls' := by
  unfold checkedRun at h ⊢
  rw [List.foldlM_append, h]
  rfl

theorem checkedRun_mono {ok ok' : σ → ℓ → Bool} (hsub : ∀ s l, ok s l = true → ok' s l = true)
    {ls : List ℓ} {s t : σ} (h : M.checkedRun ok s ls = some t) : M.checkedRun ok' s ls = some t := by
  induction ls generalizing s with
  | nil => exact h
  | cons l ls ih =>
    obtain ⟨hl, r, hr, ht⟩ := checkedRun_cons h
    rw [checkedRun, List.foldlM_cons, if_pos (hsub s l hl), hr]
    exact ih ht

theorem checkedRun_reachableBy {ok : σ → ℓ → Bool}
    (hok : ∀ s l, M.ReachableBy allow s → ok s l = true → allow s l) (ls : List ℓ) {s t : σ}
    (hs : M.ReachableBy allow s) (h : M.checkedRun ok s ls = some t) :
    M.ReachableBy allow t := by
  induction ls generalizing s with
  | nil =>
      obtain rfl : s = t := by simpa [checkedRun] using h
      exact hs
  | cons l ls ih =>
      obtain ⟨hl, r, hr, ht⟩ := checkedRun_cons h
      exact ih (hs.step (hok s l hs hl) hr) ht

theorem checkedRun_preserves {P : σ → Prop} {ok : σ → ℓ → Bool}
    (hstep : ∀ s l s', P s → M.step s l = some s' → P s') (ls : List ℓ) {s t : σ} (hs : P s)
    (h : M.checkedRun ok s ls = some t) : P t := by
  induction ls generalizing s with
  | nil =>
    obtain rfl : s = t := by simpa [checkedRun] using h
    exact hs
  | cons l ls ih =>
    obtain ⟨-, r, hr, ht⟩ := checkedRun_cons h
    exact ih (hstep s l r hs hr) ht

/-! ## Histories -/

/-- The machine with a history that no step reads. -/
def recording {γ : Type w} (M : Machine σ ℓ) (start : γ) (after : γ → σ → ℓ → γ) :
    Machine (σ × γ) ℓ where
  init p := M.init p.1 ∧ p.2 = start
  step p l := (M.step p.1 l).map fun s' => (s', after p.2 p.1 l)

variable {γ : Type w} {start : γ} {after : γ → σ → ℓ → γ}

theorem recording_step {p p' : σ × γ} {l : ℓ} (h : (M.recording start after).step p l = some p') :
    M.step p.1 l = some p'.1 ∧ p'.2 = after p.2 p.1 l := by
  obtain ⟨s', hs', rfl⟩ := Option.map_eq_some_iff.mp h
  exact ⟨hs', rfl⟩

theorem ReachableBy.forget {p : σ × γ}
    (h : (M.recording start after).ReachableBy (fun p l => allow p.1 l) p) : M.ReachableBy allow p.1 := by
  induction h with
  | init hp => exact .init hp.1
  | step _ hl hstep ih => exact ih.step hl (recording_step hstep).1

end Machine

end Transition
