import LambdaDurable.Library.Transition

/-!
# What a scheduler can bring about

The scheduler picks whose turn it is, and the environment which of the labels of that turn is
taken. Liveness is proved of a machine by a rank that some turn lowers, whatever the environment
picks, and refuted by an invariant of the steps the scheduler may take.
-/

namespace Transition.Machine

universe u v w

variable {σ : Type u} {ℓ : Type v} {κ : Type w}

/-- By turns with `allow`, a scheduler brings the machine to `goal` whatever the environment picks. -/
inductive Leads (M : Machine σ ℓ) (turn : ℓ → κ) (allow : ℓ → Prop) (goal : σ → Prop) : σ → Prop
  | here {s : σ} : goal s → Leads M turn allow goal s
  | turn {s t : σ} {l : ℓ} : allow l → M.step s l = some t →
      (∀ l' t', turn l' = turn l → M.step s l' = some t' → Leads M turn allow goal t') →
      Leads M turn allow goal s

variable {M : Machine σ ℓ} {turn : ℓ → κ} {allow : ℓ → Prop} {goal goal' : σ → Prop} {s t : σ}

theorem Leads.bind (h : M.Leads turn allow goal s)
    (hgoal : ∀ t, goal t → M.Leads turn allow goal' t) : M.Leads turn allow goal' s := by
  induction h with
  | here hs => exact hgoal _ hs
  | turn hl hstep _ ih => exact .turn hl hstep ih

theorem Leads.mono (h : M.Leads turn allow goal s) (hgoal : ∀ t, goal t → goal' t) :
    M.Leads turn allow goal' s :=
  h.bind fun t ht => .here (hgoal t ht)

/-- A turn that leaves the environment no choice. -/
theorem Leads.only {l : ℓ} (hl : ∀ l', turn l' = turn l → l' = l) (hallow : allow l)
    (hstep : M.step s l = some t) (h : M.Leads turn allow goal t) : M.Leads turn allow goal s := by
  refine .turn hallow hstep fun l' t' hturn hstep' => ?_
  obtain rfl := hl l' hturn
  obtain rfl := Option.some.inj (hstep.symm.trans hstep')
  exact h

/-- What every step keeps is kept on the way. -/
theorem Leads.keeping {I : σ → Prop} (hI : ∀ s l t, I s → M.step s l = some t → I t)
    (h : M.Leads turn allow goal s) (hs : I s) : M.Leads turn allow (fun t => goal t ∧ I t) s := by
  induction h with
  | here hgoal => exact .here ⟨hgoal, hs⟩
  | turn hl hstep _ ih =>
    exact .turn hl hstep fun l' t' hturn hstep' => ih l' t' hturn hstep' (hI _ _ _ hs hstep')

/-- The rank cannot be lowered for ever. -/
theorem leads_of_rank (rank : σ → Nat) {P : σ → Prop}
    (hP : ∀ s, P s → M.Leads turn allow (fun t => goal t ∨ P t ∧ rank t < rank s) s) (hs : P s) :
    M.Leads turn allow goal s := by
  generalize hn : rank s = n
  induction n using Nat.strongRecOn generalizing s with
  | ind n ih =>
    refine (hP s hs).bind fun t ht => ?_
    obtain hgoal | ⟨ht, hlt⟩ := ht
    · exact .here hgoal
    · exact ih (rank t) (hn ▸ hlt) ht rfl

/-- What the scheduler cannot leave and the goal excludes. -/
theorem not_leads {I : σ → Prop} (hI : ∀ s l t, I s → allow l → M.step s l = some t → I t)
    (hgoal : ∀ s, I s → ¬ goal s) (hs : I s) : ¬ M.Leads turn allow goal s := by
  intro h
  induction h with
  | here hg => exact hgoal _ hs hg
  | turn hl hstep _ ih => exact ih _ _ rfl hstep (hI _ _ _ hs hl hstep)

end Transition.Machine
