import LambdaDurable.Checkpoint.Backend
import LambdaDurable.Checkpoint.Coalesce

/-!
# What batches do to the record of one operation

A batch acts on the record of an operation through the merge of the batch's updates of
that operation. Between batches the service acts by itself.
-/

namespace LambdaDurable

open CheckpointManager

namespace Backend

/-- The record after one acknowledged update; a final record stays. -/
def applied (old : Option Operation) (u : OperationUpdate) : Option Operation :=
  if old.any (·.status.isTerminal) then old else record old u

theorem applyUpdate_eq_applied (t : Table) (u : OperationUpdate) :
    applyUpdate t u u.id = applied (t u.id) u :=
  applyUpdate_self t u

/-- The updates of one operation, merged in order. -/
def merged : List OperationUpdate → Option OperationUpdate
  | [] => none
  | u :: us => some (us.foldl mergeUpdate u)

/-- The updates that name an operation. -/
def naming (id : String) (us : List OperationUpdate) : List OperationUpdate :=
  us.filter (·.id == id)

theorem naming_append (id : String) (us vs : List OperationUpdate) :
    naming id (us ++ vs) = naming id us ++ naming id vs :=
  List.filter_append ..

theorem merged_append_singleton (us : List OperationUpdate) (u : OperationUpdate) :
    merged (us ++ [u]) = some ((merged us).elim u (mergeUpdate · u)) := by
  cases us with
  | nil => rfl
  | cons v us => simp [merged]

theorem merged_eq_none {us : List OperationUpdate} : merged us = none ↔ us = [] := by
  cases us <;> simp [merged]

theorem merged_id {id : String} {us : List OperationUpdate} {u : OperationUpdate}
    (hus : ∀ v ∈ us, v.id = id) (h : merged us = some u) : u.id = id := by
  cases us with
  | nil => cases h
  | cons v us =>
    obtain rfl := Option.some.inj h
    have hkeep : ∀ (vs : List OperationUpdate) (w : OperationUpdate),
        (vs.foldl mergeUpdate w).id = w.id := by
      intro vs
      induction vs with
      | nil => exact fun _ => rfl
      | cons _ vs ih => exact fun w => ih _
    rw [hkeep]
    exact hus v List.mem_cons_self

theorem naming_id {id : String} {us : List OperationUpdate} {v : OperationUpdate}
    (h : v ∈ naming id us) : v.id = id := by
  simpa using (List.mem_filter.mp h).2

/-! ## What a coalesced batch does to one record -/

/-- The map holds, for each operation met so far, the merge of its updates. -/
structure Represents (acc : Coalesced) (us : List OperationUpdate) : Prop where
  byId : ∀ id, acc.byId id = merged (naming id us)
  order : ∀ id, id ∈ acc.order ↔ acc.byId id ≠ none
  nodup : acc.order.Nodup

theorem Represents.step {acc acc' : Coalesced} {us : List OperationUpdate} {u : OperationUpdate}
    (h : Represents acc us) (hstep : coalesceStep acc u = .ok acc') : Represents acc' (us ++ [u]) := by
  have hother : ∀ id, id ≠ u.id → naming id (us ++ [u]) = naming id us := by
    intro id hid
    have hnot : naming id [u] = [] := by simp [naming, hid.symm]
    rw [naming_append, hnot, List.append_nil]
  have hself : naming u.id (us ++ [u]) = naming u.id us ++ [u] := by
    have hkeep : naming u.id [u] = [u] := by simp [naming]
    rw [naming_append, hkeep]
  have hupdate : ∀ {v : OperationUpdate} {byId}, byId = Function.update acc.byId u.id (some v) →
      some v = merged (naming u.id (us ++ [u])) → ∀ id, byId id = merged (naming id (us ++ [u])) := by
    rintro v _ rfl hv id
    by_cases hid : id = u.id
    · rw [hid, Function.update_self, hv]
    · rw [Function.update_of_ne hid, h.byId, hother id hid]
  unfold coalesceStep at hstep
  split at hstep
  · rename_i hnone
    obtain rfl := Except.ok.inj hstep
    have hfresh : u.id ∉ acc.order := fun hmem => (h.order u.id).mp hmem hnone
    refine ⟨hupdate rfl ?_, fun id => ?_, ?_⟩
    · rw [hself, merged_append_singleton, ← h.byId, hnone]
      rfl
    · simp only [List.mem_append, List.mem_singleton, h.order, Function.update_apply]
      split <;> simp_all
    · exact List.nodup_append.mpr ⟨h.nodup, List.nodup_singleton _, by
        rintro id hid _ hu rfl
        exact hfresh (List.mem_singleton.mp hu ▸ hid)⟩
  · rename_i existing hexisting
    split at hstep
    · cases hstep
    · obtain rfl := Except.ok.inj hstep
      refine ⟨hupdate rfl ?_, fun id => ?_, h.nodup⟩
      · rw [hself, merged_append_singleton, ← h.byId, hexisting]
        rfl
      · simp only [h.order, Function.update_apply]
        split <;> simp_all

theorem Represents.fold {acc acc' : Coalesced} {us vs : List OperationUpdate}
    (h : Represents acc us) (hfold : vs.foldlM coalesceStep acc = .ok acc') :
    Represents acc' (us ++ vs) := by
  induction vs generalizing acc us with
  | nil =>
    obtain rfl := Except.ok.inj hfold
    rwa [List.append_nil]
  | cons v vs ih =>
    rw [List.foldlM_cons] at hfold
    cases hv : coalesceStep acc v with
    | error e =>
      rw [hv] at hfold
      cases hfold
    | ok mid =>
      rw [hv] at hfold
      rw [List.append_cons]
      exact ih (h.step hv) hfold

/-- Updates with distinct IDs act one on each record. -/
theorem applyAll_filterMap {order : List String} {byId : String → Option OperationUpdate}
    (hid : ∀ i u, byId i = some u → u.id = i) (hnodup : order.Nodup) (t : Table) (id : String) :
    applyAll t (order.filterMap byId) id =
      if id ∈ order then ((byId id).map (applied (t id))).getD (t id) else t id := by
  induction order generalizing t with
  | nil => rfl
  | cons i order ih =>
    obtain ⟨hi, hnodup⟩ := List.nodup_cons.mp hnodup
    cases hu : byId i with
    | none =>
      rw [List.filterMap_cons_none hu, ih hnodup]
      by_cases heq : id = i
      · subst heq
        simp [hi, hu]
      · simp [heq]
    | some u =>
      have hui := hid i u hu
      rw [List.filterMap_cons_some hu]
      change applyAll (applyUpdate t u) _ id = _
      rw [ih hnodup]
      by_cases heq : id = i
      · subst heq
        rw [if_neg hi, if_pos List.mem_cons_self, hu, ← hui, applyUpdate_eq_applied, hui]
        rfl
      · rw [applyUpdate_of_ne t u (hui ▸ heq)]
        simp [heq]

theorem order_of_fold {acc acc' : Coalesced} {us : List OperationUpdate}
    (h : us.foldlM coalesceStep acc = .ok acc') :
    ∃ more, acc'.order = acc.order ++ more ∧ more.Sublist (us.map (·.id)) := by
  induction us generalizing acc with
  | nil =>
    obtain rfl := Except.ok.inj h
    exact ⟨[], (List.append_nil _).symm, List.Sublist.slnil⟩
  | cons u us ih =>
    rw [List.foldlM_cons] at h
    cases hu : coalesceStep acc u with
    | error e =>
      rw [hu] at h
      cases h
    | ok mid =>
      rw [hu] at h
      obtain ⟨more, horder, hsub⟩ := ih h
      unfold coalesceStep at hu
      split at hu
      · obtain rfl := Except.ok.inj hu
        exact ⟨u.id :: more, horder.trans (List.append_cons ..).symm, hsub.cons_cons _⟩
      · split at hu
        · cases hu
        · obtain rfl := Except.ok.inj hu
          exact ⟨more, horder, hsub.cons _⟩

/-- The shortcut for at most one update computes what the merge computes. -/
theorem coalesceUpdates_eq (us : List OperationUpdate) :
    coalesceUpdates us =
      (us.foldlM coalesceStep {}).map fun acc => acc.order.filterMap acc.byId := by
  match us with
  | [] => rfl
  | [u] => simp [coalesceUpdates, List.foldlM, coalesceStep, Except.map, pure, Except.pure, bind,
      Except.bind]
  | u :: v :: rest =>
    unfold coalesceUpdates
    rw [if_neg (by simp)]
    cases (u :: v :: rest).foldlM coalesceStep {} <;> rfl

/-- What is sent is read off the map of the batch, in the order of first occurrence. -/
theorem represents_of_coalesce {us vs : List OperationUpdate} (h : coalesceUpdates us = .ok vs) :
    ∃ acc, Represents acc us ∧ acc.order.Sublist (us.map (·.id)) ∧
      acc.order.filterMap acc.byId = vs := by
  rw [coalesceUpdates_eq] at h
  cases hfold : us.foldlM coalesceStep {} with
  | error e =>
    rw [hfold] at h
    cases h
  | ok acc =>
    rw [hfold] at h
    have hempty : Represents {} [] := ⟨fun _ => rfl, fun _ => by simp, List.nodup_nil⟩
    obtain ⟨more, horder, hsub⟩ := order_of_fold hfold
    obtain rfl : acc.order = more := horder
    exact ⟨acc, hempty.fold hfold, hsub, Except.ok.inj h⟩

theorem Represents.id_of_byId {acc : Coalesced} {us : List OperationUpdate} (h : Represents acc us)
    {id : String} {u : OperationUpdate} (hu : acc.byId id = some u) : u.id = id := by
  rw [h.byId] at hu
  exact merged_id (fun v hv => naming_id hv) hu

theorem applyAll_of_coalesce {us vs : List OperationUpdate} (h : coalesceUpdates us = .ok vs)
    (t : Table) (id : String) :
    applyAll t vs id = ((merged (naming id us)).map (applied (t id))).getD (t id) := by
  obtain ⟨acc, hacc, -, rfl⟩ := represents_of_coalesce h
  rw [applyAll_filterMap (fun _ _ hu => hacc.id_of_byId hu) hacc.nodup]
  split
  · rw [hacc.byId]
  · rename_i hnone
    rw [hacc.order, not_not, hacc.byId] at hnone
    rw [hnone]
    rfl

/-- An update that is sent is the merge of those of its operation. -/
theorem merged_of_coalesce {us vs : List OperationUpdate}
    (h : coalesceUpdates us = .ok vs) {v : OperationUpdate} (hv : v ∈ vs) :
    merged (naming v.id us) = some v := by
  obtain ⟨acc, hacc, -, rfl⟩ := represents_of_coalesce h
  obtain ⟨id, -, hid⟩ := List.mem_filterMap.mp hv
  rw [hacc.id_of_byId hid, ← hacc.byId]
  exact hid

/-- No operation of a batch is lost. -/
theorem mem_of_coalesce {us vs : List OperationUpdate}
    (h : coalesceUpdates us = .ok vs) {u : OperationUpdate} (hu : u ∈ us) :
    ∃ v ∈ vs, v.id = u.id := by
  obtain ⟨acc, hacc, -, rfl⟩ := represents_of_coalesce h
  have hnaming : naming u.id us ≠ [] :=
    List.ne_nil_of_mem (List.mem_filter.mpr ⟨hu, by simp⟩)
  have hsome : acc.byId u.id ≠ none := by
    rw [hacc.byId]
    exact fun hnone => hnaming (merged_eq_none.mp hnone)
  obtain ⟨v, hv⟩ := Option.ne_none_iff_exists'.mp hsome
  exact ⟨v, List.mem_filterMap.mpr ⟨u.id, (hacc.order u.id).mpr hsome, hv⟩, hacc.id_of_byId hv⟩

theorem sublist_of_coalesce {us vs : List OperationUpdate} (h : coalesceUpdates us = .ok vs) :
    (vs.map (·.id)).Sublist (us.map (·.id)) := by
  obtain ⟨acc, hacc, hsub, rfl⟩ := represents_of_coalesce h
  have hids : ∀ ids : List String, ((ids.filterMap acc.byId).map (·.id)).Sublist ids := by
    intro ids
    induction ids with
    | nil => exact List.Sublist.slnil
    | cons id ids ih =>
      rw [List.filterMap_cons]
      cases hid : acc.byId id with
      | none => exact ih.cons _
      | some u =>
        rw [List.map_cons, hacc.id_of_byId hid]
        exact ih.cons_cons _
  exact (hids acc.order).trans hsub

/-! ## The record along a run -/

/-- What the service does by itself to one record. -/
inductive Advances : Option Operation → Option Operation → Prop
  | elapsed {op : Operation} : op.status = .pending →
      Advances (some op) (some { op with status := .ready })
  | completed {old op : Operation} : old.status.isTerminal = false →
      isExternal old.operationType = true → op.status.isTerminal = true →
      Advances (some old) (some op)

theorem advances_of_advance {t t' : Table} {event : Event} (h : advance t event = some t')
    (id : String) : t' id = t id ∨ Advances (t id) (t' id) := by
  obtain ⟨i, op, -, hop, hp, rfl⟩ | ⟨old, op, -, hold, hopen, hext, hterm, rfl⟩ := advance_cases h
  · by_cases hid : id = i
    · subst hid
      rw [Function.update_self, hop]
      exact Or.inr (.elapsed hp)
    · exact Or.inl (Function.update_of_ne hid _ _)
  · by_cases hid : id = op.id
    · subst hid
      rw [Function.update_self, hold]
      exact Or.inr (.completed hopen hext hterm)
    · exact Or.inl (Function.update_of_ne hid _ _)

/-- The updates `us` of an operation, acknowledged in any batches, turn its record `old` into
the last one. -/
inductive Evolves (old : Option Operation) : List OperationUpdate → Option Operation → Prop
  | refl : Evolves old [] old
  | batch {us group : List OperationUpdate} {r : Option Operation} {u : OperationUpdate} :
      Evolves old us r → merged group = some u → Evolves old (us ++ group) (applied r u)
  | event {us : List OperationUpdate} {r r' : Option Operation} : Evolves old us r →
      Advances r r' → Evolves old us r'

theorem Evolves.applyAll {old : Option Operation} {us batch vs : List OperationUpdate} {t : Table}
    {id : String} (h : Evolves old us (t id)) (hbatch : coalesceUpdates batch = .ok vs) :
    Evolves old (us ++ naming id batch) (Backend.applyAll t vs id) := by
  rw [applyAll_of_coalesce hbatch]
  cases hmerged : merged (naming id batch) with
  | none =>
    rw [merged_eq_none.mp hmerged, List.append_nil]
    exact h
  | some u => exact h.batch hmerged

theorem Evolves.advance {old : Option Operation} {us : List OperationUpdate} {t t' : Table}
    {event : Event} {id : String} (h : Evolves old us (t id)) (ht : advance t event = some t') :
    Evolves old us (t' id) := by
  obtain hsame | hadvances := advances_of_advance ht id
  · rwa [hsame]
  · exact h.event hadvances

/-- No update follows a final one. -/
def Orderly (us : List OperationUpdate) : Prop :=
  us.Pairwise fun u v => u.action.isTerminal = true → v.action.isTerminal = true

theorem merged_action {us : List OperationUpdate} {v u : OperationUpdate}
    (h : merged (us ++ [v]) = some u) : u.action = v.action := by
  rw [merged_append_singleton] at h
  obtain rfl := Option.some.inj h
  cases merged us <;> rfl

theorem exists_concat_of_merged {us : List OperationUpdate} {u : OperationUpdate}
    (h : merged us = some u) : ∃ init last, us = init ++ [last] ∧ u.action = last.action := by
  have hne : us ≠ [] := by
    rintro rfl
    cases h
  obtain ⟨init, last, rfl⟩ := List.eq_nil_or_concat' us |>.resolve_left hne
  exact ⟨init, last, rfl, merged_action h⟩

theorem finished_status (op : Operation) (status : OperationStatus) (u : OperationUpdate) :
    (finished op status u).status = status := by
  unfold finished
  split <;> rfl

theorem finished_operationType (op : Operation) (status : OperationStatus) (u : OperationUpdate) :
    (finished op status u).operationType = op.operationType := by
  unfold finished
  split <;> rfl

theorem applied_of_terminal {old : Option Operation} (u : OperationUpdate)
    (h : old.any (·.status.isTerminal) = true) : applied old u = old := by
  rw [applied, if_pos h]

theorem applied_terminal (old : Option Operation) {u : OperationUpdate}
    (h : u.action.isTerminal = true) : (applied old u).any (·.status.isTerminal) = true := by
  unfold applied
  split
  · assumption
  · unfold record
    cases hu : u.action with
    | succeed | fail =>
      simp only [Option.any_some, finished_status]
      rfl
    | start | retry | cancel =>
      rw [hu] at h
      cases h

theorem not_terminal_of_advances {r r' : Option Operation} (h : Advances r r') :
    r.any (·.status.isTerminal) = false := by
  cases h with
  | elapsed hp => simp [hp, OperationStatus.isTerminal]
  | completed hopen _ _ => simpa using hopen

theorem Evolves.terminal {old r : Option Operation} {us : List OperationUpdate}
    (h : Evolves old us r) (horder : Orderly us) (hfinal : ∃ u ∈ us, u.action.isTerminal = true) :
    r.any (·.status.isTerminal) = true := by
  induction h with
  | refl =>
    obtain ⟨u, hu, -⟩ := hfinal
    exact (List.not_mem_nil hu).elim
  | @batch us group r u _ hmerged ih =>
    obtain ⟨hbefore, hgroup, -⟩ := List.pairwise_append.mp horder
    obtain ⟨init, last, rfl, haction⟩ := exists_concat_of_merged hmerged
    obtain ⟨v, hv, hvfinal⟩ := hfinal
    obtain hv | hv := List.mem_append.mp hv
    · have hr := ih hbefore ⟨v, hv, hvfinal⟩
      rwa [applied_of_terminal _ hr]
    · refine applied_terminal r ?_
      rw [haction]
      obtain hv | hv := List.mem_append.mp hv
      · exact (List.pairwise_append.mp hgroup).2.2 v hv last List.mem_cons_self hvfinal
      · rwa [← List.mem_singleton.mp hv]
  | event _ hadvances ih =>
    rw [not_terminal_of_advances hadvances] at ih
    cases ih horder hfinal

/-- A record of a kind that the service finishes by itself. -/
def external (r : Option Operation) : Bool := r.any fun op => isExternal op.operationType

theorem record_operationType {old : Option Operation} {u : OperationUpdate} {op : Operation}
    (h : record old u = some op) : op.operationType = (old.getD (created u)).operationType := by
  unfold record at h
  cases hu : u.action <;> rw [hu] at h
  case cancel =>
    obtain rfl : old = some op := h
    rfl
  all_goals
    obtain rfl := Option.some.inj h
    first
      | rfl
      | exact finished_operationType ..

theorem merged_operationType {us : List OperationUpdate} {u : OperationUpdate}
    (h : merged us = some u) : ∃ v ∈ us, v.operationType = u.operationType := by
  cases us with
  | nil => cases h
  | cons v us =>
    obtain rfl := Option.some.inj h
    have hkeep : ∀ (vs : List OperationUpdate) (w : OperationUpdate),
        (vs.foldl mergeUpdate w).operationType = w.operationType := by
      intro vs
      induction vs with
      | nil => exact fun _ => rfl
      | cons _ vs ih => exact fun w => ih _
    exact ⟨v, List.mem_cons_self, (hkeep us v).symm⟩

theorem Evolves.external {old r : Option Operation} {us : List OperationUpdate}
    (h : Evolves old us r) (hold : external old = false)
    (hus : ∀ u ∈ us, isExternal u.operationType = false) : Backend.external r = false := by
  induction h with
  | refl => exact hold
  | @batch us group r u _ hmerged ih =>
    have hr := ih fun v hv => hus v (List.mem_append_left _ hv)
    unfold applied
    split
    · exact hr
    · cases hrec : record r u with
      | none => rfl
      | some op =>
        obtain ⟨v, hv, htype⟩ := merged_operationType hmerged
        rw [Backend.external, Option.any_some, record_operationType hrec]
        cases r with
        | none =>
          change isExternal u.operationType = false
          rw [← htype]
          exact hus v (List.mem_append_right _ hv)
        | some op => exact hr
  | event _ hadvances ih =>
    have hr := ih hus
    cases hadvances with
    | elapsed _ => exact hr
    | completed _ hext _ =>
      rw [Backend.external, Option.any_some, hext] at hr
      cases hr

theorem Evolves.not_terminal {old r : Option Operation} {us : List OperationUpdate}
    (h : Evolves old us r) (hold : old.any (·.status.isTerminal) = false)
    (hext : Backend.external old = false) (hus : ∀ u ∈ us, isExternal u.operationType = false)
    (hfinal : ∀ u ∈ us, u.action.isTerminal = false) : r.any (·.status.isTerminal) = false := by
  induction h with
  | refl => exact hold
  | @batch us group r u _ hmerged ih =>
    have hr := ih (fun v hv => hus v (List.mem_append_left _ hv))
      fun v hv => hfinal v (List.mem_append_left _ hv)
    obtain ⟨init, last, rfl, haction⟩ := exists_concat_of_merged hmerged
    have hlast : u.action.isTerminal = false := by
      rw [haction]
      exact hfinal last (by simp)
    rw [applied, if_neg (by simp [hr]), record]
    cases hu : u.action with
    | start | retry => rfl
    | cancel => exact hr
    | succeed | fail =>
      rw [hu] at hlast
      cases hlast
  | event hr hadvances _ =>
    cases hadvances with
    | elapsed _ => rfl
    | completed _ hcompleted _ =>
      have hopen := hr.external hext hus
      rw [Backend.external, Option.any_some, hcompleted] at hopen
      cases hopen

/-- The status a final update gives. -/
def concluding : OperationAction → OperationStatus
  | .succeed => .succeeded
  | _ => .failed

theorem record_concluding (old : Option Operation) {u : OperationUpdate}
    (hu : u.action.isTerminal = true) : ∃ op, record old u = some op ∧ op.status = concluding u.action := by
  unfold record
  cases haction : u.action with
  | succeed | fail => exact ⟨_, rfl, finished_status ..⟩
  | start | retry | cancel =>
    rw [haction] at hu
    cases hu

/-- The first final updates decide, if they agree. -/
theorem Evolves.concluded {old r : Option Operation} {us : List OperationUpdate}
    (h : Evolves old us r) (hold : old.any (·.status.isTerminal) = false)
    (hext : Backend.external old = false) (hus : ∀ u ∈ us, isExternal u.operationType = false)
    (horder : Orderly us) {action : OperationAction}
    (huniform : ∀ u ∈ us, u.action.isTerminal = true → u.action = action)
    (hfinal : ∃ u ∈ us, u.action.isTerminal = true) :
    ∃ op, r = some op ∧ op.status = concluding action := by
  induction h with
  | refl =>
    obtain ⟨u, hu, -⟩ := hfinal
    exact (List.not_mem_nil hu).elim
  | @batch us group r u hr hmerged ih =>
    obtain ⟨hbefore, hgroup, -⟩ := List.pairwise_append.mp horder
    have husBefore : ∀ v ∈ us, isExternal v.operationType = false := fun v hv =>
      hus v (List.mem_append_left _ hv)
    by_cases hearlier : ∃ v ∈ us, v.action.isTerminal = true
    · have hterm := hr.terminal hbefore hearlier
      rw [applied_of_terminal _ hterm]
      exact ih husBefore hbefore (fun v hv => huniform v (List.mem_append_left _ hv)) hearlier
    · obtain ⟨init, last, rfl, haction⟩ := exists_concat_of_merged hmerged
      have hopen : ∀ v ∈ us, v.action.isTerminal = false := fun v hv =>
        Bool.eq_false_iff.mpr fun hv' => hearlier ⟨v, hv, hv'⟩
      have hlast : last.action.isTerminal = true := by
        obtain ⟨v, hv, hvfinal⟩ := hfinal
        obtain hv | hv := List.mem_append.mp hv
        · exact absurd ⟨v, hv, hvfinal⟩ hearlier
        · obtain hv | hv := List.mem_append.mp hv
          · exact (List.pairwise_append.mp hgroup).2.2 v hv last List.mem_cons_self hvfinal
          · rwa [← List.mem_singleton.mp hv]
      rw [applied, if_neg (by simp [hr.not_terminal hold hext husBefore hopen])]
      obtain ⟨op, hop, hstatus⟩ := record_concluding r (u := u) (by rwa [haction])
      refine ⟨op, hop, hstatus.trans ?_⟩
      rw [haction, huniform last (by simp) hlast]
  | event hr hadvances _ =>
    have hterm := hr.terminal horder hfinal
    rw [not_terminal_of_advances hadvances] at hterm
    cases hterm

theorem Evolves.eq_of_terminal {old r : Option Operation} {us : List OperationUpdate}
    (h : Evolves old us r) (hold : old.any (·.status.isTerminal) = true) : r = old := by
  induction h with
  | refl => rfl
  | batch _ _ ih => rw [ih, applied_of_terminal _ hold]
  | event _ hadvances ih =>
    have hterm := not_terminal_of_advances hadvances
    rw [ih, hold] at hterm
    cases hterm

end Backend

end LambdaDurable
