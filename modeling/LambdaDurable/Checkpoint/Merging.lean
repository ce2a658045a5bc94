import LambdaDurable.Checkpoint.Record

/-!
# The law of coalescing

Of the updates of one operation one is left. It stands where the first of them stood, acts as
the last of them, and has each optional field from the last of them that sets it.
-/

namespace LambdaDurable

open Backend

namespace CheckpointManager

/-- Two of the updates name one operation with different types. -/
def TypeMismatch (us : List OperationUpdate) : Prop :=
  ∃ u ∈ us, ∃ v ∈ us, u.id = v.id ∧ u.operationType ≠ v.operationType

instance (us : List OperationUpdate) : Decidable (TypeMismatch us) :=
  inferInstanceAs (Decidable (∃ u ∈ us, ∃ v ∈ us, u.id = v.id ∧ u.operationType ≠ v.operationType))

def lastSet {α : Type} (field : OperationUpdate → Option α) (us : List OperationUpdate) : Option α :=
  (us.filterMap field).getLast?

theorem lastSet_concat {α : Type} (field : OperationUpdate → Option α) (us : List OperationUpdate)
    (u : OperationUpdate) : lastSet field (us ++ [u]) = (field u).or (lastSet field us) := by
  unfold lastSet
  cases hu : field u with
  | none => simp [hu]
  | some a => simp [hu]

/-- One update stands for all updates of its operation. -/
structure MergeOf (us : List OperationUpdate) (v : OperationUpdate) : Prop where
  operationType : ∀ u ∈ us, u.operationType = v.operationType
  action : (us.map (·.action)).getLast? = some v.action
  parentId : v.parentId = lastSet (·.parentId) us
  name : v.name = lastSet (·.name) us
  subType : v.subType = lastSet (·.subType) us
  payload : v.payload = lastSet (·.payload) us
  error : v.error = lastSet (·.error) us
  contextOptions : v.contextOptions = lastSet (·.contextOptions) us
  stepOptions : v.stepOptions = lastSet (·.stepOptions) us
  waitOptions : v.waitOptions = lastSet (·.waitOptions) us
  callbackOptions : v.callbackOptions = lastSet (·.callbackOptions) us
  chainedInvokeOptions : v.chainedInvokeOptions = lastSet (·.chainedInvokeOptions) us

theorem MergeOf.singleton (u : OperationUpdate) : MergeOf [u] u := by
  have hone : ∀ {α : Type} (field : OperationUpdate → Option α), field u = lastSet field [u] := by
    intro α field
    have h := lastSet_concat field [] u
    rw [List.nil_append] at h
    rw [h]
    exact (Option.or_none ..).symm
  constructor
  case operationType =>
    intro w hw
    rw [List.mem_singleton.mp hw]
  case action => rfl
  all_goals exact hone _

/-- The next update of the operation is merged into the update that stands for the earlier. -/
theorem MergeOf.concat {us : List OperationUpdate} {v u : OperationUpdate} (h : MergeOf us v)
    (htype : v.operationType = u.operationType) : MergeOf (us ++ [u]) (mergeUpdate v u) := by
  constructor
  case operationType =>
    intro w hw
    obtain hw | hw := List.mem_append.mp hw
    · exact h.operationType w hw
    · rw [List.mem_singleton.mp hw]
      exact htype.symm
  case action => simp [mergeUpdate]
  all_goals rw [lastSet_concat]
  case parentId => rw [← h.parentId, mergeUpdate]
  case name => rw [← h.name, mergeUpdate]
  case subType => rw [← h.subType, mergeUpdate]
  case payload => rw [← h.payload, mergeUpdate]
  case error => rw [← h.error, mergeUpdate]
  case contextOptions => rw [← h.contextOptions, mergeUpdate]
  case stepOptions => rw [← h.stepOptions, mergeUpdate]
  case waitOptions => rw [← h.waitOptions, mergeUpdate]
  case callbackOptions => rw [← h.callbackOptions, mergeUpdate]
  case chainedInvokeOptions => rw [← h.chainedInvokeOptions, mergeUpdate]

theorem mergeOf_merged {us : List OperationUpdate} {v : OperationUpdate}
    (htypes : ∀ u ∈ us, ∀ w ∈ us, u.operationType = w.operationType) (h : merged us = some v) :
    MergeOf us v := by
  induction us using List.reverseRecOn generalizing v with
  | nil => cases h
  | append_singleton us u ih =>
    rw [merged_append_singleton] at h
    obtain rfl := Option.some.inj h
    cases hus : merged us with
    | none =>
      obtain rfl := merged_eq_none.mp hus
      exact MergeOf.singleton u
    | some w =>
      have hprev := ih (fun a ha b hb => htypes a (List.mem_append_left _ ha) b
        (List.mem_append_left _ hb)) hus
      have hne : us ≠ [] := by
        rintro rfl
        cases hus
      obtain ⟨first, hfirst⟩ := List.exists_mem_of_ne_nil us hne
      apply hprev.concat
      rw [← hprev.operationType first hfirst]
      exact htypes first (List.mem_append_left _ hfirst) u (by simp)

theorem not_typeMismatch_iff {us : List OperationUpdate} : ¬ TypeMismatch us ↔
    ∀ id, ∀ u ∈ naming id us, ∀ v ∈ naming id us, u.operationType = v.operationType := by
  constructor
  · intro h id u hu v hv
    by_contra hne
    apply h
    exact ⟨u, (List.mem_filter.mp hu).1, v, (List.mem_filter.mp hv).1,
      (naming_id hu).trans (naming_id hv).symm, hne⟩
  · rintro h ⟨u, hu, v, hv, hid, hne⟩
    apply hne
    exact h u.id u (List.mem_filter.mpr ⟨hu, by simp⟩) v (List.mem_filter.mpr ⟨hv, by simp [hid]⟩)

/-! ## When a batch coalesces -/

theorem coalesceStep_error_iff {acc : Coalesced} {us : List OperationUpdate} {u : OperationUpdate}
    (h : Represents acc us) (hus : ¬ TypeMismatch us) :
    (∃ e, coalesceStep acc u = .error e) ↔ TypeMismatch (us ++ [u]) := by
  have hheld : ∀ {v}, acc.byId u.id = some v → MergeOf (naming u.id us) v := by
    intro v hv
    rw [h.byId] at hv
    exact mergeOf_merged (not_typeMismatch_iff.mp hus u.id) hv
  constructor
  · rintro ⟨e, he⟩
    unfold coalesceStep at he
    split at he
    · cases he
    · rename_i existing hexisting
      split at he
      · rename_i hne
        have hmerge := hheld hexisting
        have hnonempty : naming u.id us ≠ [] := by
          intro hnil
          have haction := hmerge.action
          rw [hnil] at haction
          cases haction
        obtain ⟨w, hw⟩ := List.exists_mem_of_ne_nil _ hnonempty
        refine ⟨w, List.mem_append_left _ (List.mem_filter.mp hw).1, u, by simp, naming_id hw, ?_⟩
        rwa [hmerge.operationType w hw]
      · cases he
  · intro hmismatch
    obtain ⟨w, hw, hid, hne⟩ : ∃ w ∈ us, w.id = u.id ∧ w.operationType ≠ u.operationType := by
      obtain ⟨a, ha, b, hb, hid, hne⟩ := hmismatch
      simp only [List.mem_append, List.mem_singleton] at ha hb
      obtain ha | rfl := ha
      · obtain hb | rfl := hb
        · exact absurd ⟨a, ha, b, hb, hid, hne⟩ hus
        · exact ⟨a, ha, hid, hne⟩
      · obtain hb | rfl := hb
        · exact ⟨b, hb, hid.symm, hne.symm⟩
        · exact absurd rfl hne
    have hmem : w ∈ naming u.id us := List.mem_filter.mpr ⟨hw, by simp [hid]⟩
    cases hbyId : acc.byId u.id with
    | none =>
      rw [h.byId, merged_eq_none] at hbyId
      rw [hbyId] at hmem
      cases hmem
    | some existing =>
      unfold coalesceStep
      rw [hbyId]
      dsimp only
      rw [if_pos]
      · exact ⟨_, rfl⟩
      · rwa [← (hheld hbyId).operationType w hmem]

theorem fold_error_iff {acc : Coalesced} {us vs : List OperationUpdate} (h : Represents acc us)
    (hus : ¬ TypeMismatch us) :
    (∃ e, vs.foldlM coalesceStep acc = .error e) ↔ TypeMismatch (us ++ vs) := by
  induction vs generalizing acc us with
  | nil =>
    rw [List.append_nil]
    constructor
    · rintro ⟨e, he⟩
      cases he
    · intro hmismatch
      exact absurd hmismatch hus
  | cons v vs ih =>
    rw [List.foldlM_cons, List.append_cons]
    cases hv : coalesceStep acc v with
    | error e =>
      obtain ⟨a, ha, b, hb, hab⟩ := (coalesceStep_error_iff h hus).mp ⟨e, hv⟩
      constructor
      · intro _
        exact ⟨a, List.mem_append_left _ ha, b, List.mem_append_left _ hb, hab⟩
      · intro _
        exact ⟨e, rfl⟩
    | ok mid =>
      apply ih (h.step hv)
      intro hmismatch
      obtain ⟨e, he⟩ := (coalesceStep_error_iff h hus).mpr hmismatch
      rw [hv] at he
      cases he

theorem represents_nil : Represents {} [] :=
  ⟨fun _ => rfl, fun _ => by simp, List.nodup_nil⟩

theorem coalesceUpdates_error_iff (us : List OperationUpdate) :
    (∃ e, coalesceUpdates us = .error e) ↔ TypeMismatch us := by
  have hfold := @fold_error_iff {} [] us represents_nil (by rintro ⟨u, hu, -⟩; cases hu)
  rw [List.nil_append] at hfold
  rw [← hfold, coalesceUpdates_eq]
  cases us.foldlM coalesceStep {} with
  | error e => simp [Except.map]
  | ok acc => simp [Except.map]

/-! ## The order of what is left -/

theorem eraseDups_concat (ids : List String) (id : String) :
    (ids ++ [id]).eraseDups = if id ∈ ids then ids.eraseDups else ids.eraseDups ++ [id] := by
  rw [List.eraseDups_append]
  by_cases hmem : id ∈ ids <;> simp [List.removeAll, hmem, List.eraseDups_cons]

theorem eraseDups_of_nodup {ids : List String} (h : ids.Nodup) : ids.eraseDups = ids := by
  induction ids using List.reverseRecOn with
  | nil => rfl
  | append_singleton ids id ih =>
    obtain ⟨hids, -, hfresh⟩ := List.nodup_append.mp h
    rw [eraseDups_concat, if_neg fun hmem => hfresh id hmem id (by simp) rfl, ih hids]

theorem coalesceStep_order {acc acc' : Coalesced} {us : List OperationUpdate} {u : OperationUpdate}
    (h : Represents acc us) (horder : acc.order = (us.map (·.id)).eraseDups)
    (hstep : coalesceStep acc u = .ok acc') :
    acc'.order = ((us ++ [u]).map (·.id)).eraseDups := by
  have hmem : u.id ∈ us.map (·.id) ↔ acc.byId u.id ≠ none := by
    rw [← List.mem_eraseDups, ← horder]
    exact h.order u.id
  rw [List.map_append, List.map_singleton, eraseDups_concat, ← horder]
  unfold coalesceStep at hstep
  split at hstep
  · rename_i hnone
    obtain rfl := Except.ok.inj hstep
    rw [if_neg fun hold => hmem.mp hold hnone]
  · rename_i existing hexisting
    split at hstep
    · cases hstep
    · obtain rfl := Except.ok.inj hstep
      rw [if_pos (hmem.mpr (hexisting ▸ Option.some_ne_none existing))]

theorem order_eq_of_fold {acc acc' : Coalesced} {us vs : List OperationUpdate} (h : Represents acc us)
    (horder : acc.order = (us.map (·.id)).eraseDups) (hfold : vs.foldlM coalesceStep acc = .ok acc') :
    acc'.order = ((us ++ vs).map (·.id)).eraseDups := by
  induction vs generalizing acc us with
  | nil =>
    obtain rfl := Except.ok.inj hfold
    rwa [List.append_nil]
  | cons v vs ih =>
    rw [List.foldlM_cons] at hfold
    cases hv : coalesceStep acc v with
    | error e =>
      rw [hv] at hfold
      cases hfold
    | ok mid =>
      rw [hv] at hfold
      rw [List.append_cons]
      exact ih (h.step hv) (coalesceStep_order h horder hv) hfold

/-! ## Coalescing again -/

theorem naming_filterMap {order : List String} {byId : String → Option OperationUpdate}
    (hid : ∀ i u, byId i = some u → u.id = i) (hnodup : order.Nodup) (id : String) :
    naming id (order.filterMap byId) = if id ∈ order then (byId id).toList else [] := by
  induction order with
  | nil => rfl
  | cons i order ih =>
    obtain ⟨hi, hnodup⟩ := List.nodup_cons.mp hnodup
    have hrest := ih hnodup
    cases hu : byId i with
    | none =>
      rw [List.filterMap_cons_none hu, hrest]
      by_cases heq : id = i
      · subst heq
        simp [hi, hu]
      · simp [heq]
    | some u =>
      have hui := hid i u hu
      rw [List.filterMap_cons_some hu, naming, List.filter_cons]
      change (if _ then u :: naming id (order.filterMap byId) else naming id _) = _
      rw [hrest]
      by_cases heq : id = i
      · subst heq
        simp [hi, hu, hui]
      · have hne : ¬ u.id = id := fun h => heq (h.symm.trans hui)
        simp [heq, hne]

/-- What is sent has no two updates of one operation. -/
theorem ids_filterMap {acc : Coalesced} {us : List OperationUpdate} (h : Represents acc us) :
    (acc.order.filterMap acc.byId).map (·.id) = acc.order := by
  have hall : ∀ order : List String, (∀ id ∈ order, acc.byId id ≠ none) →
      (order.filterMap acc.byId).map (·.id) = order := by
    intro order hsome
    induction order with
    | nil => rfl
    | cons id order ih =>
      obtain ⟨u, hu⟩ := Option.ne_none_iff_exists'.mp (hsome id List.mem_cons_self)
      rw [List.filterMap_cons_some hu, List.map_cons, h.id_of_byId hu,
        ih fun i hi => hsome i (List.mem_cons_of_mem _ hi)]
  exact hall acc.order fun id hmem => (h.order id).mp hmem

/-- The map made from what is sent is the map it was read off. -/
theorem fold_filterMap {acc : Coalesced} {us : List OperationUpdate} (h : Represents acc us) :
    (acc.order.filterMap acc.byId).foldlM coalesceStep {} = .ok acc := by
  have hids := ids_filterMap h
  have hnaming := naming_filterMap (fun _ _ hu => h.id_of_byId hu) h.nodup
  have hno : ¬ TypeMismatch (acc.order.filterMap acc.byId) := by
    rw [not_typeMismatch_iff]
    intro id u hu v hv
    rw [hnaming] at hu hv
    split at hu <;> simp_all
  cases hfold : (acc.order.filterMap acc.byId).foldlM coalesceStep {} with
  | error e =>
    refine absurd ?_ hno
    rw [← List.nil_append (acc.order.filterMap acc.byId)]
    exact (fold_error_iff represents_nil (by rintro ⟨u, hu, -⟩; cases hu)).mp ⟨e, hfold⟩
  | ok acc' =>
    have horder := order_eq_of_fold represents_nil rfl hfold
    rw [List.nil_append, hids, eraseDups_of_nodup h.nodup] at horder
    have hbyId : acc'.byId = acc.byId := by
      funext id
      have hrep := represents_nil.fold hfold
      rw [List.nil_append] at hrep
      rw [hrep.byId, hnaming]
      by_cases hmem : id ∈ acc.order
      · rw [if_pos hmem]
        cases acc.byId id <;> rfl
      · rw [if_neg hmem]
        exact (not_not.mp fun hne => hmem ((h.order id).mpr hne)).symm
    cases acc
    cases acc'
    simp_all

/-- Each operation is left with one update, in the order in which the operations first occur. -/
theorem ids_of_coalesce {us vs : List OperationUpdate} (h : coalesceUpdates us = .ok vs) :
    vs.map (·.id) = (us.map (·.id)).eraseDups ∧ (vs.map (·.id)).Nodup := by
  rw [coalesceUpdates_eq] at h
  cases hfold : us.foldlM coalesceStep {} with
  | error e =>
    rw [hfold] at h
    cases h
  | ok acc =>
    rw [hfold] at h
    obtain rfl := Except.ok.inj h
    have hrep := represents_nil.fold hfold
    rw [ids_filterMap hrep]
    exact ⟨order_eq_of_fold represents_nil rfl hfold, hrep.nodup⟩

theorem naming_of_nodup {us : List OperationUpdate} (hnodup : (us.map (·.id)).Nodup)
    {u : OperationUpdate} (hu : u ∈ us) {id : String} (hid : u.id = id) : naming id us = [u] := by
  have hmem : u ∈ naming id us := List.mem_filter.mpr ⟨hu, by simp [hid]⟩
  have hall : ∀ w ∈ naming id us, w = u := by
    intro w hw
    apply List.inj_on_of_nodup_map hnodup (List.mem_filter.mp hw).1 hu
    rw [naming_id hw, hid]
  have hsame := List.eq_replicate_of_mem hall
  have hone : (naming id us).length = 1 := by
    have hle : (naming id us).Nodup := (List.Nodup.of_map _ hnodup).filter _
    have hpos := List.length_pos_of_mem hmem
    rw [hsame, List.nodup_replicate] at hle
    omega
  rw [hsame, hone]
  rfl

/-- Updates of different operations are left as they are. -/
theorem mem_of_coalesce {us vs : List OperationUpdate} (hnodup : (us.map (·.id)).Nodup)
    (h : coalesceUpdates us = .ok vs) {v : OperationUpdate} (hv : v ∈ vs) : v ∈ us := by
  have hid : v.id ∈ us.map (·.id) := by
    have hmem : v.id ∈ vs.map (·.id) := List.mem_map_of_mem hv
    rwa [(ids_of_coalesce h).1, eraseDups_of_nodup hnodup] at hmem
  obtain ⟨u, hu, hsame⟩ := List.mem_map.mp hid
  have hmerged := merged_of_coalesce h hv
  rw [naming_of_nodup hnodup hu hsame] at hmerged
  obtain rfl : u = v := Option.some.inj hmerged
  exact hu

theorem exists_coalesce {us : List OperationUpdate} (hnodup : (us.map (·.id)).Nodup) :
    ∃ vs, coalesceUpdates us = .ok vs := by
  cases h : coalesceUpdates us with
  | ok vs => exact ⟨vs, rfl⟩
  | error e =>
    obtain ⟨u, hu, v, hv, hid, htype⟩ := (coalesceUpdates_error_iff us).mp ⟨e, h⟩
    rw [List.inj_on_of_nodup_map hnodup hu hv hid] at htype
    exact absurd rfl htype

/-- **Coalescing.** A batch is refused when two updates of one operation differ in type. Otherwise
each operation is left with the merge of its updates, in the order in which the operations first
occur, and a batch may be coalesced in parts. -/
theorem coalescing_law (us : List OperationUpdate) :
    ((∃ e, coalesceUpdates us = .error e) ↔ TypeMismatch us) ∧
    (∀ vs, coalesceUpdates us = .ok vs →
      vs.map (·.id) = (us.map (·.id)).eraseDups ∧ (vs.map (·.id)).Nodup ∧
        ∀ v ∈ vs, MergeOf (us.filter (·.id == v.id)) v) ∧
    (∀ vs more, coalesceUpdates us = .ok vs →
      coalesceUpdates (vs ++ more) = coalesceUpdates (us ++ more)) := by
  refine ⟨coalesceUpdates_error_iff us, ?_, ?_⟩
  · intro vs hvs
    have hno : ¬ TypeMismatch us := by
      intro hmismatch
      obtain ⟨e, he⟩ := (coalesceUpdates_error_iff us).mpr hmismatch
      rw [hvs] at he
      cases he
    have hmerged := fun v hv => @merged_of_coalesce us vs hvs v hv
    obtain ⟨hids, hnodup⟩ := ids_of_coalesce hvs
    refine ⟨hids, hnodup, fun v hv => ?_⟩
    exact mergeOf_merged (not_typeMismatch_iff.mp hno v.id) (hmerged v hv)
  · intro vs more hvs
    rw [coalesceUpdates_eq] at hvs
    cases hfold : us.foldlM coalesceStep {} with
    | error e =>
      rw [hfold] at hvs
      cases hvs
    | ok acc =>
      rw [hfold] at hvs
      obtain rfl := Except.ok.inj hvs
      rw [coalesceUpdates_eq, coalesceUpdates_eq, List.foldlM_append, List.foldlM_append, hfold,
        fold_filterMap (represents_nil.fold hfold)]

theorem coalescing_law_step :
    let start : OperationUpdate :=
      { id := "a", name := some "charge", operationType := .step, action := .start }
    let other : OperationUpdate := { id := "b", operationType := .wait, action := .start }
    let done : OperationUpdate :=
      { id := "a", operationType := .step, action := .succeed, payload := some "1" }
    ¬ TypeMismatch [start, other, done] ∧
      coalesceUpdates [start, other, done] =
        .ok [{ start with action := .succeed, payload := some "1" }, other] ∧
      coalesceUpdates ([{ start with action := .succeed, payload := some "1" }, other] ++ [start]) =
        coalesceUpdates [start, other, done, start] ∧
      MergeOf [start, done] { start with action := .succeed, payload := some "1" } := by
  intro start other done
  have hno : ¬ TypeMismatch [start, other, done] := by decide
  have hsent : coalesceUpdates [start, other, done] =
      .ok [{ start with action := .succeed, payload := some "1" }, other] := rfl
  obtain ⟨-, hmerge, hagain⟩ := coalescing_law [start, other, done]
  exact ⟨hno, hsent, hagain _ [start] hsent, (hmerge _ hsent).2.2 _ List.mem_cons_self⟩

end CheckpointManager

end LambdaDurable
