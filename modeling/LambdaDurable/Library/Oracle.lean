import LambdaDurable.Library.Program

/-!
# Programs whose answers come from an oracle

A history is the answered effects of a program, newest first. Nothing else decides what is left of
the program, so two histories of one program with answers of one oracle go the same way: one of
them goes on from the other.
-/

namespace Effects

universe u v w x

variable {E : Type u} {A : E → Type v} {α : Type w}

abbrev History (E : Type u) (A : E → Type v) : Type (max u v) := List ((e : E) × A e)

/-- The answers an effect can have after a history. -/
abbrev Oracle (E : Type u) (A : E → Type v) : Type (max u v) := History E A → (e : E) → A e → Prop

namespace Prog

variable {p q q' : Prog E A α} {history later : History E A} {e : E} {a : A e}

/-- `q` is left of `p` after the history. -/
inductive Leads (p : Prog E A α) : History E A → Prog E A α → Prop
  | refl : Leads p [] p
  | answer {history : History E A} {e : E} {k : A e → Prog E A α} :
      Leads p history (.act e k) → (a : A e) → Leads p (⟨e, a⟩ :: history) (k a)

theorem leads_nil (h : Leads p [] q) : q = p := by
  cases h
  rfl

theorem leads_cons (h : Leads p (⟨e, a⟩ :: history) q) :
    ∃ k, Leads p history (.act e k) ∧ q = k a := by
  cases h with
  | answer h a => exact ⟨_, h, rfl⟩

theorem Leads.unique (h : Leads p history q) (h' : Leads p history q') : q = q' := by
  induction h generalizing q' with
  | refl => exact (leads_nil h').symm
  | answer _ a ih =>
    obtain ⟨k', hk', rfl⟩ := leads_cons h'
    obtain ⟨-, hk⟩ := Prog.act.inj (ih hk')
    rw [eq_of_heq hk]

theorem Leads.earlier (h : Leads p (later ++ history) q) : ∃ q', Leads p history q' := by
  induction later generalizing q with
  | nil => exact ⟨q, h⟩
  | cons event later ih =>
    obtain ⟨k, hk, -⟩ := leads_cons h
    exact ih hk

/-- The rest starts with an answer to the next effect. -/
theorem Leads.split (h : Leads p (later ++ history) q) (hlater : later ≠ []) :
    ∃ rest e a k, later = rest ++ [⟨e, a⟩] ∧ Leads p history (.act e k) := by
  obtain ⟨rest, ⟨e, a⟩, hconcat⟩ := (List.eq_nil_or_concat later).resolve_left hlater
  rw [List.concat_eq_append] at hconcat
  rw [hconcat, List.append_assoc] at h
  obtain ⟨q', hq'⟩ := h.earlier
  obtain ⟨k, hk, -⟩ := leads_cons hq'
  exact ⟨rest, e, a, k, hconcat, hk⟩

theorem Leads.next {k : A e → Prog E A α} (h : Leads p history (.act e k))
    (h' : Leads p (later ++ history) q) (hlater : later ≠ []) :
    ∃ rest a, later = rest ++ [⟨e, a⟩] := by
  obtain ⟨rest, e', a, k', rfl, hk'⟩ := h'.split hlater
  obtain ⟨rfl, -⟩ := Prog.act.inj (h.unique hk')
  exact ⟨rest, a, rfl⟩

/-- Nothing follows a return. -/
theorem Leads.last {r : α} (h : Leads p history (.ret r)) (h' : Leads p (later ++ history) q) :
    later = [] := by
  by_contra hlater
  obtain ⟨rest, e', a, k', rfl, hk'⟩ := h'.split hlater
  cases h.unique hk'

/-- All answers of the history are from the oracle. -/
def Told (oracle : Oracle E A) : History E A → Prop
  | [] => True
  | ⟨e, a⟩ :: history => oracle history e a ∧ Told oracle history

variable {oracle oracle' : Oracle E A}

theorem Told.earlier (h : Told oracle (later ++ history)) : Told oracle history := by
  induction later with
  | nil => exact h
  | cons event later ih => exact ih h.2

theorem Told.event (h : Told oracle (later ++ ⟨e, a⟩ :: history)) : oracle history e a :=
  h.earlier.1

theorem Told.mono (hsub : ∀ history e a, oracle history e a → oracle' history e a)
    (h : Told oracle history) : Told oracle' history := by
  induction history with
  | nil => trivial
  | cons event history ih => exact ⟨hsub _ _ _ h.1, ih h.2⟩

/-- With at most one answer to each effect there is one way to go. -/
theorem Leads.comparable (hsingle : ∀ history e a a', oracle history e a → oracle history e a' → a = a')
    {history' : History E A} (h : Leads p history q) (h' : Leads p history' q')
    (htold : Told oracle history) (htold' : Told oracle history') :
    history <:+ history' ∨ history' <:+ history := by
  induction h with
  | refl => exact Or.inl (List.nil_suffix ..)
  | @answer history e k hbefore a ih =>
    obtain ⟨later, rfl⟩ | hsuffix := ih htold.2
    · by_cases hlater : later = []
      · subst hlater
        exact Or.inr (List.suffix_cons _ _)
      · obtain ⟨rest, a', rfl⟩ := hbefore.next h' hlater
        rw [List.append_assoc] at htold'
        obtain rfl := hsingle _ _ _ _ htold.1 htold'.event
        exact Or.inl ⟨rest, by simp⟩
    · exact Or.inr (hsuffix.trans (List.suffix_cons _ _))

end Prog

end Effects
