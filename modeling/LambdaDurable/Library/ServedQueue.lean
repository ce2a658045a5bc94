import Mathlib.Logic.Function.Basic
import Mathlib.Logic.Relation
import Mathlib.Tactic.Common

/-!
# A queue served by background workers that are started on demand

A caller pushes an entry and then starts a worker, unless the busy flag is up. A worker
takes batches off the queue until it finds the queue empty, or gives up and drains it;
only after that, in an action of its own, does it take the flag down. Watchers sleep
until the queue is empty and the flag is down.

The danger is a caller that looks at the flag between those two actions of a worker.
`may` says which callers may find the flag up; everything but `Attended` holds for any `may`.
-/

namespace ServedQueue

universe u v w x

inductive CallerStage
  | outside | pushed | waiting

inductive WorkerStage (α : Type x)
  | absent
  -- still going to look at the queue; entries of the batch in hand not yet signalled
  | looping (held : List α)
  -- never looks at the queue again, the flag still up
  | exiting
  -- the flag is down, the watchers are not yet woken
  | leaving
  | done

namespace WorkerStage

variable {α : Type x}

def held : WorkerStage α → List α
  | looping held => held
  | _ => []

def Looping : WorkerStage α → Prop
  | looping _ => True
  | _ => False

/-- The busy flag is up on behalf of this worker. -/
def Active : WorkerStage α → Prop
  | looping _ | exiting => True
  | _ => False

def Running : WorkerStage α → Prop
  | looping _ | exiting | leaving => True
  | _ => False

theorem Looping.active {p : WorkerStage α} (h : p.Looping) : p.Active := by
  cases p <;> trivial

theorem Active.running {p : WorkerStage α} (h : p.Active) : p.Running := by
  cases p <;> trivial

end WorkerStage

structure Queue (ι : Type u) (ω : Type v) (κ : Type w) (α : Type x) where
  pending : List α
  busy : Bool
  callers : ι → CallerStage
  signalled : ι → Bool
  workers : ω → WorkerStage α
  asleep : κ → Bool

variable {ι : Type u} {ω : Type v} {κ : Type w} {α : Type x}

/-- Nothing pushed, nobody running. -/
structure Queue.Fresh (q : Queue ι ω κ α) : Prop where
  pending : q.pending = []
  busy : q.busy = false
  callers : ∀ i, q.callers i = .outside
  workers : ∀ w, q.workers w = .absent
  asleep : ∀ k, q.asleep k = false

variable {owner : α → ι}

/-! ## One worker at a time -/

structure SingleWorker (q : Queue ι ω κ α) : Prop where
  busy_iff : q.busy = true ↔ ∃ w, (q.workers w).Active
  unique : ∀ w w', (q.workers w).Active → (q.workers w').Active → w = w'

theorem SingleWorker.not_active {q : Queue ι ω κ α} (h : SingleWorker q) (hbusy : q.busy = false)
    (w : ω) : ¬ (q.workers w).Active := by
  intro hw
  have hb := h.busy_iff.mpr ⟨w, hw⟩
  rw [hbusy] at hb
  cases hb

/-! ## Every caller inside is accounted for -/

/-- A caller that has pushed has been signalled, or has an entry that a worker may still take
or still holds. -/
def Accounted (owner : α → ι) (q : Queue ι ω κ α) : Prop :=
  ∀ i, q.callers i ≠ .outside → q.signalled i = true ∨
    ∃ a, owner a = i ∧ (a ∈ q.pending ∨ ∃ w, a ∈ (q.workers w).held)

/-! ## Every sleeping watcher will be woken -/

def Watched (q : Queue ι ω κ α) : Prop :=
  ∀ k, q.asleep k = true → q.pending ≠ [] ∨ ∃ w, (q.workers w).Running

/-! ## No entry is left behind -/

/-- While nobody is going to look at the queue, the owner of each entry has yet to look at the flag. -/
def Attended (owner : α → ι) (q : Queue ι ω κ α) : Prop :=
  (∀ w, ¬ (q.workers w).Looping) → ∀ a ∈ q.pending, q.callers (owner a) = .pushed

/-- A caller that may find the flag up: some worker is still looping, or the caller has no entry
in the queue. -/
def MayFindBusy (owner : α → ι) (q : Queue ι ω κ α) (i : ι) : Prop :=
  (∀ w, ¬ (q.workers w).Looping) → ∀ a ∈ q.pending, owner a ≠ i

theorem singleWorker_of_fresh {q : Queue ι ω κ α} (h : q.Fresh) : SingleWorker q := by
  have hnone : ∀ w, ¬ (q.workers w).Active := by
    intro w
    rw [h.workers]
    exact id
  refine ⟨⟨fun hb => ?_, fun ⟨w, hw⟩ => absurd hw (hnone w)⟩, fun w _ hw => absurd hw (hnone w)⟩
  rw [h.busy] at hb
  cases hb

/-! ## Consequences -/

theorem pending_eq_nil {q : Queue ι ω κ α} (hsingle : SingleWorker q) (h : Attended owner q)
    (hbusy : q.busy = false) (hpushed : ∀ i, q.callers i ≠ .pushed) : q.pending = [] := by
  refine List.eq_nil_iff_forall_not_mem.mpr fun a ha => hpushed (owner a) (h ?_ a ha)
  intro w hw
  exact hsingle.not_active hbusy w hw.active

/-- A caller that waits without having been signalled is served by a looping worker. -/
theorem exists_looping {q : Queue ι ω κ α} (hacc : Accounted owner q) (h : Attended owner q) {i : ι}
    (hi : q.callers i = .waiting) (hsig : q.signalled i = false) :
    ∃ w, (q.workers w).Looping := by
  by_contra hnone
  push Not at hnone
  rcases hacc i (by rw [hi]; nofun) with hs | ⟨a, rfl, ha | ⟨w, hw⟩⟩
  · rw [hsig] at hs
    cases hs
  · have hpushed := h hnone a ha
    rw [hi] at hpushed
    cases hpushed
  · have hloop := hnone w
    cases hp : q.workers w with
    | looping held =>
        rw [hp] at hloop
        exact hloop trivial
    | _ =>
        rw [hp] at hw
        cases hw

theorem exists_running {q : Queue ι ω κ α} (hsingle : SingleWorker q) (hwatch : Watched q)
    (h : Attended owner q) {k : κ} (hk : q.asleep k = true) (hpushed : ∀ i, q.callers i ≠ .pushed) :
    ∃ w, (q.workers w).Running := by
  by_cases hbusy : q.busy = true
  · obtain ⟨w, hw⟩ := hsingle.busy_iff.mp hbusy
    exact ⟨w, hw.running⟩
  · refine (hwatch k hk).resolve_left fun hne => hne ?_
    exact pending_eq_nil hsingle h (by simpa using hbusy) hpushed

/-! ## Steps -/

section

variable [DecidableEq ω]

/-- A worker that stays active keeps the discipline, whatever else it does. -/
theorem SingleWorker.move {q q' : Queue ι ω κ α} {w : ω} {p : WorkerStage α} (h : SingleWorker q)
    (hbusy : q'.busy = q.busy) (hworkers : q'.workers = Function.update q.workers w p)
    (hp : p.Active ↔ (q.workers w).Active) : SingleWorker q' := by
  have hactive : ∀ v, (q'.workers v).Active ↔ (q.workers v).Active := by
    intro v
    rw [hworkers, Function.update_apply]
    split
    · rename_i hv
      rw [hv]
      exact hp
    · exact Iff.rfl
  refine ⟨?_, ?_⟩
  · rw [hbusy, h.busy_iff]
    exact exists_congr fun v => (hactive v).symm
  · intro v v' hv hv'
    exact h.unique v v' ((hactive v).mp hv) ((hactive v').mp hv')

theorem held_update {q : Queue ι ω κ α} {w : ω} {p : WorkerStage α} {a : α}
    (hold : a ∈ (q.workers w).held → a ∈ p.held) (h : ∃ v, a ∈ (q.workers v).held) :
    ∃ v, a ∈ (Function.update q.workers w p v).held := by
  obtain ⟨v, hv⟩ := h
  refine ⟨v, ?_⟩
  rw [Function.update_apply]
  split
  · rename_i hvw
    exact hold (hvw ▸ hv)
  · exact hv

end

variable [DecidableEq ι] [DecidableEq ω] [DecidableEq κ]

inductive Step (owner : α → ι) (may : Queue ι ω κ α → ι → Prop) :
    Queue ι ω κ α → Queue ι ω κ α → Prop
  | push {q : Queue ι ω κ α} {a : α} : q.callers (owner a) = .outside →
      Step owner may q { q with
        pending := q.pending ++ [a]
        callers := Function.update q.callers (owner a) .pushed }
  | startBusy {q : Queue ι ω κ α} {i : ι} {g : CallerStage} : q.callers i = .pushed →
      q.busy = true → may q i → g ≠ .pushed →
      Step owner may q { q with callers := Function.update q.callers i g }
  | startIdle {q : Queue ι ω κ α} {i : ι} {g : CallerStage} {w : ω} : q.callers i = .pushed →
      q.busy = false → g ≠ .pushed → q.workers w = .absent →
      Step owner may q { q with
        busy := true
        callers := Function.update q.callers i g
        workers := Function.update q.workers w (.looping []) }
  | resume {q : Queue ι ω κ α} {i : ι} : q.callers i = .waiting → q.signalled i = true →
      Step owner may q { q with callers := Function.update q.callers i .outside }
  | take {q : Queue ι ω κ α} {w : ω} {batch rest : List α} : q.workers w = .looping [] →
      q.pending = batch ++ rest →
      Step owner may q { q with
        pending := rest
        workers := Function.update q.workers w (.looping batch) }
  | signal {q : Queue ι ω κ α} {w : ω} {a : α} {held : List α} :
      q.workers w = .looping (a :: held) →
      Step owner may q { q with
        signalled := Function.update q.signalled (owner a) true
        workers := Function.update q.workers w (.looping held) }
  | drain {q : Queue ι ω κ α} {w : ω} : q.workers w = .looping [] →
      Step owner may q { q with
        pending := []
        signalled := fun i => q.signalled i || q.pending.any fun a => owner a == i
        workers := Function.update q.workers w .exiting }
  | quit {q : Queue ι ω κ α} {w : ω} : q.workers w = .looping [] → q.pending = [] →
      Step owner may q { q with workers := Function.update q.workers w .exiting }
  | release {q : Queue ι ω κ α} {w : ω} : q.workers w = .exiting →
      Step owner may q { q with busy := false, workers := Function.update q.workers w .leaving }
  | announce {q : Queue ι ω κ α} {w : ω} : q.workers w = .leaving →
      Step owner may q { q with
        workers := Function.update q.workers w .done
        asleep := fun _ => false }
  | sleep {q : Queue ι ω κ α} {k : κ} : q.pending ≠ [] ∨ q.busy = true →
      Step owner may q { q with asleep := Function.update q.asleep k true }

variable {may : Queue ι ω κ α → ι → Prop}

theorem SingleWorker.step {q q' : Queue ι ω κ α} (h : SingleWorker q) (hs : Step owner may q q') :
    SingleWorker q' := by
  cases hs with
  | push _ | startBusy _ _ _ _ | resume _ _ | sleep _ => exact ⟨h.busy_iff, h.unique⟩
  | @startIdle i g w _ hbusy _ hw =>
      have hnone := h.not_active hbusy
      refine ⟨⟨fun _ => ⟨w, ?_⟩, fun _ => rfl⟩, ?_⟩
      · dsimp only
        rw [Function.update_self]
        trivial
      · have honly : ∀ v, (Function.update q.workers w (.looping []) v).Active → v = w := by
          intro v hv
          by_contra hne
          rw [Function.update_of_ne hne] at hv
          exact hnone v hv
        intro v v' hv hv'
        exact (honly v hv).trans (honly v' hv').symm
  | take hw _ => exact h.move rfl rfl (by rw [hw]; exact Iff.rfl)
  | signal hw => exact h.move rfl rfl (by rw [hw]; exact Iff.rfl)
  | drain hw => exact h.move rfl rfl (by rw [hw]; exact Iff.rfl)
  | quit hw _ => exact h.move rfl rfl (by rw [hw]; exact Iff.rfl)
  | @release w hw =>
      have hnone : ∀ v, ¬ (Function.update q.workers w .leaving v).Active := by
        intro v hv
        by_cases hvw : v = w
        · rw [hvw, Function.update_self] at hv
          exact hv
        · rw [Function.update_of_ne hvw] at hv
          have hwa : (q.workers w).Active := by
            rw [hw]
            trivial
          exact hvw (h.unique v w hv hwa)
      refine ⟨⟨nofun, fun ⟨v, hv⟩ => absurd hv (hnone v)⟩, ?_⟩
      intro v _ hv
      exact absurd hv (hnone v)
  | announce hw => exact h.move rfl rfl (by rw [hw]; exact Iff.rfl)

theorem Accounted.step {q q' : Queue ι ω κ α} (h : Accounted owner q) (hs : Step owner may q q') :
    Accounted owner q' := by
  intro i hi
  cases hs with
  | @push a _ =>
      dsimp only at hi ⊢
      by_cases hia : i = owner a
      · exact Or.inr ⟨a, hia.symm, Or.inl (by simp)⟩
      · rw [Function.update_of_ne hia] at hi
        refine (h i hi).imp_right fun ⟨b, hb, hmem⟩ => ⟨b, hb, hmem.imp_left ?_⟩
        exact List.mem_append_left _
  | @startBusy j g hj _ _ _ =>
      dsimp only at hi
      refine h i ?_
      obtain rfl | hij := eq_or_ne i j
      · rw [hj]
        nofun
      · rwa [Function.update_of_ne hij] at hi
  | @startIdle j g w hj _ _ hw =>
      dsimp only at hi
      have hbefore : q.callers i ≠ .outside := by
        obtain rfl | hij := eq_or_ne i j
        · rw [hj]
          nofun
        · rwa [Function.update_of_ne hij] at hi
      refine (h i hbefore).imp_right fun ⟨b, hb, hmem⟩ => ⟨b, hb, hmem.imp_right ?_⟩
      exact held_update (by rw [hw]; nofun)
  | @resume j _ _ =>
      refine h i fun hout => hi ?_
      dsimp only
      rw [Function.update_apply]
      split
      · rfl
      · exact hout
  | @take w batch rest hw hpending =>
      refine (h i hi).imp_right fun ⟨b, hb, hmem⟩ => ⟨b, hb, ?_⟩
      obtain hmem | hmem := hmem
      · rw [hpending, List.mem_append] at hmem
        obtain hmem | hmem := hmem
        · refine Or.inr ⟨w, ?_⟩
          dsimp only
          rwa [Function.update_self]
        · exact Or.inl hmem
      · exact Or.inr (held_update (by rw [hw]; nofun) hmem)
  | @signal w a held hw =>
      dsimp only
      by_cases hia : i = owner a
      · exact Or.inl (by rw [hia, Function.update_self])
      · rw [Function.update_of_ne hia]
        refine (h i hi).imp_right fun ⟨b, hb, hmem⟩ => ⟨b, hb, hmem.imp_right ?_⟩
        refine held_update ?_
        rw [hw]
        intro hba
        obtain rfl | hba := List.mem_cons.mp hba
        · exact absurd hb.symm hia
        · exact hba
  | @drain w hw =>
      obtain hsig | ⟨b, hb, hmem | hmem⟩ := h i hi
      · exact Or.inl (by simp [hsig])
      · refine Or.inl ?_
        rw [Bool.or_eq_true, List.any_eq_true]
        exact Or.inr ⟨b, hmem, by simp [hb]⟩
      · exact Or.inr ⟨b, hb, Or.inr (held_update (by rw [hw]; nofun) hmem)⟩
  | @quit w hw _ =>
      refine (h i hi).imp_right fun ⟨b, hb, hmem⟩ => ⟨b, hb, hmem.imp_right ?_⟩
      exact held_update (by rw [hw]; nofun)
  | @release w hw =>
      refine (h i hi).imp_right fun ⟨b, hb, hmem⟩ => ⟨b, hb, hmem.imp_right ?_⟩
      exact held_update (by rw [hw]; nofun)
  | @announce w hw =>
      refine (h i hi).imp_right fun ⟨b, hb, hmem⟩ => ⟨b, hb, hmem.imp_right ?_⟩
      exact held_update (by rw [hw]; nofun)
  | sleep _ => exact h i hi

theorem Watched.step {q q' : Queue ι ω κ α} (h : Watched q) (hsingle : SingleWorker q)
    (hs : Step owner may q q') : Watched q' := by
  have running : ∀ (w : ω) (p : WorkerStage α), p.Running →
      ∃ v, (Function.update q.workers w p v).Running :=
    fun w p hp => ⟨w, by rwa [Function.update_self]⟩
  intro k hk
  cases hs with
  | push _ => exact Or.inl (by simp)
  | startBusy _ _ _ _ | resume _ _ => exact h k hk
  | startIdle _ _ _ _ => exact Or.inr (running _ _ trivial)
  | take _ _ => exact Or.inr (running _ _ trivial)
  | signal _ => exact Or.inr (running _ _ trivial)
  | drain _ => exact Or.inr (running _ _ trivial)
  | quit _ _ => exact Or.inr (running _ _ trivial)
  | release _ => exact Or.inr (running _ _ trivial)
  | announce _ => cases hk
  | sleep hwhy =>
      refine hwhy.imp_right fun hbusy => ?_
      obtain ⟨w, hw⟩ := hsingle.busy_iff.mp hbusy
      exact ⟨w, hw.running⟩

theorem Attended.step {q q' : Queue ι ω κ α} (h : Attended owner q)
    (hs : Step owner (MayFindBusy owner) q q') : Attended owner q' := by
  have looping : ∀ (w : ω) (held : List α),
      ¬ ∀ v, ¬ (Function.update q.workers w (.looping held) v).Looping :=
    fun w held hnone => hnone w (by rw [Function.update_self]; trivial)
  -- a worker that is not looping moves on: nobody was looping before either
  have before : ∀ (w : ω) (p : WorkerStage α), ¬ (q.workers w).Looping →
      (∀ v, ¬ (Function.update q.workers w p v).Looping) → ∀ v, ¬ (q.workers v).Looping := by
    intro w p hw hnone v hv
    obtain rfl | hvw := eq_or_ne v w
    · exact hw hv
    · exact hnone v (by rwa [Function.update_of_ne hvw])
  intro hnone a ha
  cases hs with
  | @push b hb =>
      dsimp only
      obtain ha | ha := List.mem_append.mp ha
      · have hpushed := h hnone a ha
        obtain hab | hab := eq_or_ne (owner a) (owner b)
        · rw [hab, Function.update_self]
        · rwa [Function.update_of_ne hab]
      · rw [List.mem_singleton.mp ha, Function.update_self]
  | @startBusy i g _ _ hmay _ =>
      dsimp only
      rw [Function.update_of_ne (hmay hnone a ha)]
      exact h hnone a ha
  | startIdle _ _ _ _ => exact absurd hnone (looping _ _)
  | @resume i hi _ =>
      have hpushed := h hnone a ha
      have hne : owner a ≠ i := by
        rintro rfl
        rw [hi] at hpushed
        cases hpushed
      dsimp only
      rwa [Function.update_of_ne hne]
  | take _ _ => exact absurd hnone (looping _ _)
  | signal _ => exact absurd hnone (looping _ _)
  | drain _ => cases ha
  | quit _ hempty => rw [hempty] at ha; cases ha
  | @release w hw => exact h (before w _ (by rw [hw]; exact id) hnone) a ha
  | @announce w hw => exact h (before w _ (by rw [hw]; exact id) hnone) a ha
  | sleep _ => exact h hnone a ha

/-! ## Runs -/

theorem singleWorker_run {q q' : Queue ι ω κ α} (h : q.Fresh)
    (hrun : Relation.ReflTransGen (Step owner may) q q') : SingleWorker q' := by
  induction hrun with
  | refl => exact singleWorker_of_fresh h
  | tail _ hs ih => exact ih.step hs

theorem accounted_run {q q' : Queue ι ω κ α} (h : q.Fresh)
    (hrun : Relation.ReflTransGen (Step owner may) q q') : Accounted owner q' := by
  induction hrun with
  | refl => exact fun i hi => absurd (h.callers i) hi
  | tail _ hs ih => exact ih.step hs

theorem watched_run {q q' : Queue ι ω κ α} (h : q.Fresh)
    (hrun : Relation.ReflTransGen (Step owner may) q q') : Watched q' := by
  induction hrun with
  | refl =>
      intro k hk
      rw [h.asleep] at hk
      cases hk
  | tail hr hs ih => exact ih.step (singleWorker_run h hr) hs

theorem attended_run {q q' : Queue ι ω κ α} (h : q.Fresh)
    (hrun : Relation.ReflTransGen (Step owner (MayFindBusy owner)) q q') : Attended owner q' := by
  induction hrun with
  | refl =>
      intro _ a ha
      rw [h.pending] at ha
      cases ha
  | tail _ hs ih => exact ih.step hs

/-! ## Entries nobody takes -/

/-- Entries are left, nobody is going to look at the queue, and nobody is about to start a worker. -/
structure Abandoned (q : Queue ι ω κ α) : Prop where
  pending : q.pending ≠ []
  looping : ∀ w, ¬ (q.workers w).Looping
  pushed : ∀ i, q.callers i ≠ .pushed

/-- Nothing but a push changes that. -/
theorem Abandoned.step {q q' : Queue ι ω κ α} (h : Abandoned q) (hs : Step owner may q q')
    (hpushed : ∀ i, q'.callers i ≠ .pushed) : Abandoned q' := by
  have moved : ∀ (w : ω) (p : WorkerStage α), ¬ p.Looping →
      ∀ v, ¬ (Function.update q.workers w p v).Looping := by
    intro w p hp v
    rw [Function.update_apply]
    split
    · exact hp
    · exact h.looping v
  have looping : ∀ {w : ω} {held : List α}, q.workers w ≠ .looping held := by
    intro w held hw
    have hnot := h.looping w
    rw [hw] at hnot
    exact hnot trivial
  cases hs with
  | push _ => exact absurd (Function.update_self ..) (hpushed _)
  | startBusy hi _ _ _ | startIdle hi _ _ _ => exact absurd hi (h.pushed _)
  | take hw _ | signal hw | drain hw | quit hw _ => exact absurd hw looping
  | resume _ _ | sleep _ => exact ⟨h.pending, h.looping, hpushed⟩
  | release _ | announce _ => exact ⟨h.pending, moved _ _ id, hpushed⟩

end ServedQueue
