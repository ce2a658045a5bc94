import Mathlib.Logic.Relation
import LambdaDurable.Checkpoint.Standing

/-!
# Records the service still acts on

The delay of a Pending operation ends, and a wait, a callback or an invoke that has been started
is finished. The service does this without being asked again, so an invocation may end on such a
record. A status the SDK does not know stands for one the service may have given for good.
-/

namespace LambdaDurable.Backend

open Relation

def Due (op : Operation) : Prop :=
  op.status = .pending ∨ isExternal op.operationType = true ∧ op.status.isTerminal = false ∧
    op.status ≠ .unknown

theorem Due.advances {t : Table} {id : String} {op : Operation} (h : Due op) (hop : t id = some op) :
    ∃ event t', advance t event = some t' ∧ Advances (t id) (t' id) := by
  obtain hpending | ⟨hexternal, hopen, -⟩ := h
  · refine ⟨.elapsed id, Function.update t id (some { op with status := .ready }), ?_, ?_⟩
    · simp [advance, hop, hpending]
    · rw [hop, Function.update_self]
      exact .elapsed hpending
  · have hterm : OperationStatus.succeeded.isTerminal = true := rfl
    refine ⟨.completed { op with id, status := .succeeded },
      Function.update t id (some { op with id, status := .succeeded }), ?_, ?_⟩
    · simp [advance, hop, hopen, hexternal, hterm]
    · rw [hop, Function.update_self]
      exact .completed hopen hexternal rfl

/-- The record was due when it was loaded, or an acknowledged update has made it due, and only the
service has acted on it since. -/
inductive Awaken (loaded : Table) (acks : List OperationUpdate) (t : Table) (id : String) : Prop
  | loaded {op : Operation} : loaded id = some op → Due op →
      ReflTransGen Advances (some op) (t id) → Awaken loaded acks t id
  | acknowledged {u : OperationUpdate} {old : Option Operation} {op : Operation} : u ∈ acks →
      u.id = id → applied old u = some op → Due op → ReflTransGen Advances (some op) (t id) →
      Awaken loaded acks t id

/-- The service has acted on the record, or can do so now. -/
theorem Awaken.advances {loaded t : Table} {acks : List OperationUpdate} {id : String}
    (h : Awaken loaded acks t id) :
    (∃ r, Advances r (t id)) ∨ ∃ event t', advance t event = some t' ∧ Advances (t id) (t' id) := by
  have hsome : ∀ {op : Operation}, Due op → ReflTransGen Advances (some op) (t id) →
      (∃ r, Advances r (t id)) ∨
        ∃ event t', advance t event = some t' ∧ Advances (t id) (t' id) := by
    intro op hdue hadvances
    obtain hsame | ⟨r, -, hlast⟩ := hadvances.cases_tail
    · exact Or.inr (hdue.advances hsame)
    · exact Or.inl ⟨r, hlast⟩
  cases h with
  | loaded _ hdue hadvances => exact hsome hdue hadvances
  | acknowledged _ _ _ hdue hadvances => exact hsome hdue hadvances

/-! ## The last update decides -/

section

variable {old r : Option Operation} {us : List OperationUpdate} {v : OperationUpdate}

theorem Follows.none_acked (h : Follows old us r) (hus : us = []) :
    ReflTransGen Advances old r := by
  induction h with
  | refl => exact .refl
  | ack _ _ => simp at hus
  | event _ hadvances ih => exact (ih hus).tail hadvances

theorem Follows.last_acked {vs : List OperationUpdate} (h : Follows old vs r) (hvs : vs = us ++ [v]) :
    ∃ r', Follows old us r' ∧ ReflTransGen Advances (applied r' v) r := by
  induction h with
  | refl => simp at hvs
  | ack hbefore _ =>
    obtain ⟨rfl, hlast⟩ := List.append_inj' hvs rfl
    obtain rfl : _ = v := by simpa using hlast
    exact ⟨_, hbefore, .refl⟩
  | event _ hadvances ih =>
    obtain ⟨r', hr', hrest⟩ := ih hvs
    exact ⟨r', hr', hrest.tail hadvances⟩

theorem advances_from_none (h : ReflTransGen Advances none r) : r = none := by
  induction h with
  | refl => rfl
  | tail _ hadvances ih =>
    subst ih
    cases hadvances

theorem Merges.nil_iff {us vs : List OperationUpdate} (h : Merges us vs) : us = [] ↔ vs = [] := by
  cases h with
  | nil => simp
  | batch _ hmerged =>
    have hgroup := merged_eq_none.not.mp (Option.ne_none_iff_exists'.mpr ⟨_, hmerged⟩)
    simp [hgroup]

/-- Of a single update there is a single acknowledgement. -/
theorem Merges.single {u : OperationUpdate} {us vs : List OperationUpdate} (h : Merges us vs)
    (hus : us = [u]) : vs = [u] := by
  cases h with
  | nil => simp at hus
  | @batch us group vs v hbefore hmerged =>
    have hgroup := merged_eq_none.not.mp (Option.ne_none_iff_exists'.mpr ⟨_, hmerged⟩)
    obtain ⟨rfl, rfl⟩ | ⟨-, hnone⟩ := List.append_eq_singleton_iff.mp hus
    · obtain rfl := hbefore.nil_iff.mp rfl
      obtain rfl := Option.some.inj hmerged
      rfl
    · exact absurd hnone hgroup

end

/-! ## The ways a record comes to be due -/

section

variable {loaded t : Table} {id : String} {accepted acks : List OperationUpdate}

/-- Nothing was sent of an operation whose loaded record was due. -/
theorem awaken_of_loaded {op : Operation} (hrecord : Follows (loaded id) (naming id acks) (t id))
    (hmerges : Merges accepted (naming id acks)) (hnone : accepted = []) (hop : loaded id = some op)
    (hdue : Due op) : Awaken loaded acks t id := by
  have hadvances := hrecord.none_acked (hmerges.nil_iff.mp hnone)
  rw [hop] at hadvances
  exact .loaded hop hdue hadvances

/-- Only the START of a new external operation was sent, and it is acknowledged. -/
theorem awaken_of_start {u : OperationUpdate}
    (hrecord : Follows (loaded id) (naming id acks) (t id))
    (hmerges : Merges accepted (naming id acks)) (haccepted : accepted = [u])
    (hnew : loaded id = none) (haction : u.action = .start)
    (htype : isExternal u.operationType = true) : Awaken loaded acks t id := by
  have hacks := hmerges.single haccepted
  obtain ⟨r, hbefore, hadvances⟩ := hrecord.last_acked (hacks.trans (List.nil_append _).symm)
  have hnothing := hbefore.none_acked rfl
  rw [hnew] at hnothing
  obtain rfl := advances_from_none hnothing
  have happlied : applied none u = some { created u with status := .started } := by
    simp [applied, record, haction]
  have hmem : u ∈ naming id acks := by simp [hacks]
  rw [happlied] at hadvances
  exact .acknowledged (List.mem_filter.mp hmem).1 (naming_id hmem) happlied
    (Or.inr ⟨htype, rfl, by simp⟩) hadvances

/-- The RETRY that ends a session of a step is acknowledged. -/
theorem awaken_of_retry {u : OperationUpdate}
    (hrecord : Follows (loaded id) (naming id acks) (t id))
    (hmerges : Merges accepted (naming id acks)) (hsession : Session accepted (some u))
    (haction : u.action = .retry) (hold : OfType .step (loaded id))
    (hopen : loaded.terminal id = false) (htype : ∀ v ∈ naming id acks, v.operationType = .step) :
    Awaken loaded acks t id := by
  obtain ⟨closing, ⟨starts, hacks, hstarts⟩, hsame⟩ := hsession.merges hmerges
  obtain ⟨v, rfl, hv⟩ := Option.map_eq_some_iff.mp hsame
  have hretry : v.action = .retry := (congrArg Prod.fst hv).trans haction
  rw [Option.toList_some] at hacks
  obtain ⟨r, hbefore, hadvances⟩ := hrecord.last_acked hacks
  have hearlier : ∀ w ∈ starts, w.operationType = .step := fun w hw =>
    htype w (hacks ▸ List.mem_append_left _ hw)
  have hopened : Session starts none := ⟨starts, (List.append_nil _).symm, hstarts⟩
  have hstanding := hbefore.standing hold hearlier
  rw [hopened.foldl Standing.after_start] at hstanding
  have hverdict : r.any (·.status.isTerminal) = false := by
    rw [← standing_verdict_isSome, hstanding]
    exact (congrArg Option.isSome (verdict_of_open hopen)).trans rfl
  have happlied : applied r v = some (retried (r.getD (created v)) v) := by
    rw [applied, if_neg (by simp [hverdict]), record, hretry]
  have hmem : v ∈ naming id acks := by simp [hacks]
  rw [happlied] at hadvances
  exact .acknowledged (List.mem_filter.mp hmem).1 (naming_id hmem) happlied (Or.inl rfl) hadvances

end

end LambdaDurable.Backend
