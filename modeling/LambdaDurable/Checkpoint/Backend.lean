import LambdaDurable.Types.Operation

/-!
# The record of an operation in the service

An acknowledged START makes an operation Started, RETRY makes it Pending with one more
attempt, SUCCEED and FAIL are final and keep their payload, error and context options.
By itself the service ends retry delays and finishes waits, callbacks and invokes.
-/

namespace LambdaDurable

namespace Backend

def created (u : OperationUpdate) : Operation :=
  { id := u.id, parentId := u.parentId, name := u.name, operationType := u.operationType,
    subType := u.subType, status := .started }

def finished (op : Operation) (status : OperationStatus) (u : OperationUpdate) : Operation :=
  match u.operationType with
  | .step => { op with
      status
      stepDetails := some { attempt := op.stepDetails.bind (·.attempt), result := u.payload,
                            error := u.error } }
  | .context => { op with
      status
      contextDetails := some { replayChildren := u.contextOptions.bind (·.replayChildren),
                               result := u.payload, error := u.error } }
  | _ => { op with status }

def retried (op : Operation) (u : OperationUpdate) : Operation :=
  { op with
    status := .pending
    stepDetails := some { attempt := some (op.attemptIdx + 1), result := u.payload,
                          error := u.error } }

/-- The record after one acknowledged update of an operation that is not final. -/
def record (old : Option Operation) (u : OperationUpdate) : Option Operation :=
  let op := old.getD (created u)
  match u.action with
  | .start => some { op with status := .started }
  | .retry => some (retried op u)
  | .succeed => some (finished op .succeeded u)
  | .fail => some (finished op .failed u)
  | .cancel => old

def applyUpdate (t : Table) (u : OperationUpdate) : Table :=
  if t.terminal u.id then t else Function.update t u.id (record (t u.id) u)

def applyAll (t : Table) (updates : List OperationUpdate) : Table := updates.foldl applyUpdate t

inductive Event
  -- the delay of a retry is over
  | elapsed (id : String)
  -- a wait, a callback or an invoke is finished
  | completed (op : Operation)

def isExternal : OperationType → Bool
  | .wait | .callback | .chainedInvoke => true
  | _ => false

def advance (t : Table) : Event → Option Table
  | .elapsed id =>
    match t id with
    | some op =>
      if op.status = .pending then some (Function.update t id (some { op with status := .ready }))
      else none
    | none => none
  | .completed op =>
    match t op.id with
    | some old =>
      if old.status.isTerminal = false ∧ isExternal old.operationType ∧ op.status.isTerminal then
        some (Function.update t op.id (some op))
      else none
    | none => none

/-! ## What an update leaves alone -/

theorem applyUpdate_of_ne (t : Table) (u : OperationUpdate) {id : String} (h : id ≠ u.id) :
    applyUpdate t u id = t id := by
  unfold applyUpdate
  split
  · rfl
  · exact Function.update_of_ne h _ _

theorem applyUpdate_self (t : Table) (u : OperationUpdate) :
    applyUpdate t u u.id = if t.terminal u.id then t u.id else record (t u.id) u := by
  unfold applyUpdate
  split
  · rfl
  · exact Function.update_self ..

/-- Final records stay as they are. -/
theorem applyUpdate_of_terminal {t : Table} {id : String} (u : OperationUpdate)
    (h : t.terminal id = true) : applyUpdate t u id = t id := by
  by_cases hid : id = u.id
  · subst hid
    rw [applyUpdate_self, if_pos h]
  · exact applyUpdate_of_ne t u hid

theorem terminal_congr {t t' : Table} {id : String} (h : t' id = t id) :
    t'.terminal id = t.terminal id := by
  unfold Table.terminal
  rw [h]

theorem applyAll_of_terminal {t : Table} {id : String} (updates : List OperationUpdate)
    (h : t.terminal id = true) : applyAll t updates id = t id := by
  induction updates generalizing t with
  | nil => rfl
  | cons u updates ih =>
    have hstep := applyUpdate_of_terminal u h
    have hterm : (applyUpdate t u).terminal id = true := by rw [terminal_congr hstep, h]
    exact (ih hterm).trans hstep

theorem applyAll_of_ne (t : Table) {id : String} (updates : List OperationUpdate)
    (h : ∀ u ∈ updates, u.id ≠ id) : applyAll t updates id = t id := by
  induction updates generalizing t with
  | nil => rfl
  | cons u updates ih =>
    have hu : id ≠ u.id := fun heq => h u List.mem_cons_self heq.symm
    exact (ih _ fun v hv => h v (List.mem_cons_of_mem _ hv)).trans (applyUpdate_of_ne t u hu)

theorem advance_cases {t t' : Table} {event : Event} (h : advance t event = some t') :
    (∃ id op, event = .elapsed id ∧ t id = some op ∧ op.status = .pending ∧
      t' = Function.update t id (some { op with status := .ready })) ∨
    (∃ old op, event = .completed op ∧ t op.id = some old ∧ old.status.isTerminal = false ∧
      isExternal old.operationType = true ∧ op.status.isTerminal = true ∧
      t' = Function.update t op.id (some op)) := by
  cases event with
  | elapsed id =>
    simp only [advance] at h
    split at h
    · rename_i op hop
      simp only [Option.ite_none_right_eq_some, Option.some.injEq] at h
      exact Or.inl ⟨id, op, rfl, hop, h.1, h.2.symm⟩
    · cases h
  | completed op =>
    simp only [advance] at h
    split at h
    · rename_i old hold
      simp only [Option.ite_none_right_eq_some, Option.some.injEq] at h
      exact Or.inr ⟨old, op, rfl, hold, h.1.1, h.1.2.1, h.1.2.2, h.2.symm⟩
    · cases h

theorem advance_of_terminal {t t' : Table} {event : Event} {id : String}
    (h : advance t event = some t') (hterm : t.terminal id = true) : t' id = t id := by
  have hne : ∀ {id' : String} {op : Operation}, t id' = some op → op.status.isTerminal = false →
      id ≠ id' := by
    rintro id' op hop hstatus rfl
    simp [Table.terminal, hop, hstatus] at hterm
  obtain ⟨id', op, -, hop, hstatus, rfl⟩ | ⟨old, op, -, hold, hstatus, -, -, rfl⟩ := advance_cases h
  · exact Function.update_of_ne (hne hop (by rw [hstatus]; rfl)) _ _
  · exact Function.update_of_ne (hne hold hstatus) _ _

end Backend

end LambdaDurable
