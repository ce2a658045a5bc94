import LambdaDurable.Checkpoint.Record

/-!
# What the acknowledged updates make of a record

An invocation sends at most one update of an operation after its START. Whatever part of
this the service acknowledges, in however many batches, it acknowledges at most one such
update, with the payload and the error it was sent with.
-/

namespace LambdaDurable.Backend

open CheckpointManager

/-- The acknowledged updates `vs` of an operation turn its record `old` into the last one. -/
inductive Follows (old : Option Operation) : List OperationUpdate → Option Operation → Prop
  | refl : Follows old [] old
  | ack {vs : List OperationUpdate} {r : Option Operation} {v : OperationUpdate} :
      Follows old vs r → Follows old (vs ++ [v]) (applied r v)
  | event {vs : List OperationUpdate} {r r' : Option Operation} :
      Follows old vs r → Advances r r' → Follows old vs r'

/-- Each update of the second list merges the next ones of the first. -/
inductive Merges : List OperationUpdate → List OperationUpdate → Prop
  | nil : Merges [] []
  | batch {us group vs : List OperationUpdate} {v : OperationUpdate} :
      Merges us vs → merged group = some v → Merges (us ++ group) (vs ++ [v])

theorem Follows.advance {old : Option Operation} {vs : List OperationUpdate} {t t' : Table}
    {event : Event} {id : String} (h : Follows old vs (t id)) (ht : advance t event = some t') :
    Follows old vs (t' id) := by
  obtain hsame | hadvances := advances_of_advance ht id
  · rwa [hsame]
  · exact h.event hadvances

/-- The updates of an operation in a coalesced batch: none, or the merge of those queued. -/
theorem naming_of_coalesce {us vs : List OperationUpdate} (h : coalesceUpdates us = .ok vs)
    (id : String) : naming id vs = (merged (naming id us)).toList := by
  obtain ⟨acc, hacc, -, rfl⟩ := represents_of_coalesce h
  rw [← hacc.byId]
  have hid : ∀ i v, acc.byId i = some v → v.id = i := fun _ _ hv => hacc.id_of_byId hv
  have hother : ∀ order : List String, id ∉ order → naming id (order.filterMap acc.byId) = [] := by
    intro order hnot
    apply List.filter_eq_nil_iff.mpr
    intro v hv
    obtain ⟨i, hi, hiv⟩ := List.mem_filterMap.mp hv
    simp only [beq_iff_eq, hid i v hiv]
    rintro rfl
    exact hnot hi
  have hlist : ∀ order : List String, order.Nodup → id ∈ order →
      naming id (order.filterMap acc.byId) = (acc.byId id).toList := by
    intro order hnodup hmem
    induction order with
    | nil => cases hmem
    | cons i order ih =>
      obtain ⟨hi, hnodup⟩ := List.nodup_cons.mp hnodup
      have hcons : (i :: order).filterMap acc.byId =
          (acc.byId i).toList ++ order.filterMap acc.byId := by
        cases hu : acc.byId i <;> simp [hu]
      rw [hcons, naming_append]
      by_cases heq : id = i
      · subst heq
        rw [hother order hi, List.append_nil]
        apply List.filter_eq_self.mpr
        intro v hv
        simp [hid id v (Option.mem_toList.mp hv)]
      · rw [ih hnodup ((List.mem_cons.mp hmem).resolve_left heq)]
        have hnone : naming id (acc.byId i).toList = [] := by
          apply List.filter_eq_nil_iff.mpr
          intro v hv
          simp only [beq_iff_eq, hid i v (Option.mem_toList.mp hv)]
          exact fun h => heq h.symm
        rw [hnone, List.nil_append]
  by_cases hmem : id ∈ acc.order
  · exact hlist acc.order hacc.nodup hmem
  · rw [hother acc.order hmem]
    have hnone : acc.byId id = none := by
      by_contra hsome
      exact hmem ((hacc.order id).mpr hsome)
    rw [hnone]
    rfl

theorem Follows.applyAll {old : Option Operation} {acks batch vs : List OperationUpdate} {t : Table}
    {id : String} (h : Follows old acks (t id)) (hbatch : coalesceUpdates batch = .ok vs) :
    Follows old (acks ++ naming id vs) (Backend.applyAll t vs id) := by
  rw [applyAll_of_coalesce hbatch, naming_of_coalesce hbatch]
  cases merged (naming id batch) with
  | none =>
    rw [Option.toList_none, List.append_nil]
    exact h
  | some v => exact h.ack

theorem Merges.coalesced {us acks batch vs : List OperationUpdate} {id : String}
    (h : Merges us acks) (hbatch : coalesceUpdates batch = .ok vs) :
    Merges (us ++ naming id batch) (acks ++ naming id vs) := by
  rw [naming_of_coalesce hbatch]
  cases hmerged : merged (naming id batch) with
  | none =>
    rw [merged_eq_none.mp hmerged, Option.toList_none, List.append_nil, List.append_nil]
    exact h
  | some v => exact h.batch hmerged

theorem Merges.mem {us vs : List OperationUpdate} (h : Merges us vs) {v : OperationUpdate}
    (hv : v ∈ vs) : ∃ u ∈ us, u.operationType = v.operationType := by
  induction h with
  | nil => cases hv
  | @batch us group vs w _ hmerged ih =>
    obtain hv | hv := List.mem_append.mp hv
    · obtain ⟨u, hu, htype⟩ := ih hv
      exact ⟨u, List.mem_append_left _ hu, htype⟩
    · obtain rfl := List.mem_singleton.mp hv
      obtain ⟨u, hu, htype⟩ := merged_operationType hmerged
      exact ⟨u, List.mem_append_right _ hu, htype⟩

/-! ## Sessions -/

/-- A START. -/
structure Opening (u : OperationUpdate) : Prop where
  action : u.action = .start
  payload : u.payload = none
  error : u.error = none
  contextOptions : u.contextOptions = none

/-- STARTs, and after them at most one other update. -/
def Session (us : List OperationUpdate) (closing : Option OperationUpdate) : Prop :=
  ∃ starts, us = starts ++ closing.toList ∧ ∀ u ∈ starts, Opening u

/-- What the service keeps of an update. -/
def kept (u : OperationUpdate) :
    OperationAction × Option String × Option ErrorObject × Option ContextUpdateOptions :=
  (u.action, u.payload, u.error, u.contextOptions)

theorem session_nil : Session [] none := ⟨[], rfl, fun _ hu => (List.not_mem_nil hu).elim⟩

theorem Session.sublist {us vs : List OperationUpdate} {closing : Option OperationUpdate}
    (h : Session us closing) (hsub : vs.Sublist us) :
    ∃ closing', Session vs closing' ∧ (closing' = none ∨ closing' = closing) := by
  obtain ⟨starts, rfl, hstarts⟩ := h
  obtain ⟨front, back, rfl, hfront, hback⟩ := List.sublist_append_iff.mp hsub
  have hopening : ∀ u ∈ front, Opening u := fun u hu => hstarts u (hfront.subset hu)
  cases closing with
  | none =>
    obtain rfl := List.sublist_nil.mp hback
    exact ⟨none, ⟨front, rfl, hopening⟩, Or.inl rfl⟩
  | some u =>
    obtain rfl | rfl := List.sublist_singleton.mp hback
    · exact ⟨none, ⟨front, rfl, hopening⟩, Or.inl rfl⟩
    · exact ⟨some u, ⟨front, rfl, hopening⟩, Or.inr rfl⟩

theorem merged_opening {us : List OperationUpdate} {v : OperationUpdate} (h : merged us = some v)
    (hus : ∀ u ∈ us, Opening u) : Opening v := by
  induction us using List.reverseRecOn generalizing v with
  | nil => cases h
  | append_singleton us u ih =>
    rw [merged_append_singleton] at h
    obtain rfl := Option.some.inj h
    have hu := hus u (by simp)
    cases hmerged : merged us with
    | none => exact hu
    | some w =>
      have hw := ih hmerged fun x hx => hus x (List.mem_append_left _ hx)
      constructor
      · exact hu.action
      · exact (congrArg₂ Option.or hu.payload hw.payload).trans rfl
      · exact (congrArg₂ Option.or hu.error hw.error).trans rfl
      · exact (congrArg₂ Option.or hu.contextOptions hw.contextOptions).trans rfl

theorem merged_closing {starts : List OperationUpdate} {u v : OperationUpdate}
    (h : merged (starts ++ [u]) = some v) (hstarts : ∀ w ∈ starts, Opening w) : kept v = kept u := by
  rw [merged_append_singleton] at h
  obtain rfl := Option.some.inj h
  cases hmerged : merged starts with
  | none => rfl
  | some w =>
    have hw := merged_opening hmerged hstarts
    simp only [Option.elim_some, kept, mergeUpdate, hw.payload, hw.error, hw.contextOptions,
      Option.or_none]

/-- Of a session a session is acknowledged, with the same end. -/
theorem Session.merges {us vs : List OperationUpdate} {closing : Option OperationUpdate}
    (h : Session us closing) (hmerges : Merges us vs) :
    ∃ closing', Session vs closing' ∧ closing'.map kept = closing.map kept := by
  induction hmerges generalizing closing with
  | nil =>
    obtain ⟨starts, hnil, -⟩ := h
    obtain ⟨-, hnone⟩ := List.append_eq_nil_iff.mp hnil.symm
    cases closing with
    | none => exact ⟨none, session_nil, rfl⟩
    | some u => cases hnone
  | @batch us group vs v _ hmerged ih =>
    obtain ⟨init, last, rfl, -⟩ := exists_concat_of_merged hmerged
    obtain ⟨starts, hus, hstarts⟩ := h
    have hbefore : ∀ front : List OperationUpdate, (∀ u ∈ front, Opening u) → us = front →
        ∃ opened, vs = opened ∧ ∀ u ∈ opened, Opening u := by
      rintro front hfront rfl
      obtain ⟨closing', ⟨opened, rfl, hopened⟩, hsame⟩ :=
        @ih none ⟨us, (List.append_nil _).symm, hfront⟩
      cases closing' with
      | none => exact ⟨opened, List.append_nil _, hopened⟩
      | some _ => cases hsame
    cases closing with
    | none =>
      rw [Option.toList_none, List.append_nil] at hus
      subst hus
      obtain ⟨opened, rfl, hopened⟩ := hbefore us
        (fun u hu => hstarts u (List.mem_append_left _ hu)) rfl
      have hv := merged_opening hmerged fun u hu => hstarts u (List.mem_append_right _ hu)
      refine ⟨none, ⟨vs ++ [v], (List.append_nil _).symm, fun u hu => ?_⟩, rfl⟩
      obtain hu | hu := List.mem_append.mp hu
      · exact hopened u hu
      · rwa [List.mem_singleton.mp hu]
    | some u =>
      rw [← List.append_assoc] at hus
      obtain ⟨rfl, hlast⟩ := List.append_inj' hus rfl
      obtain rfl : last = u := by simpa using hlast
      obtain ⟨opened, rfl, hopened⟩ := hbefore us
        (fun u hu => hstarts u (List.mem_append_left _ hu)) rfl
      refine ⟨some v, ⟨vs, rfl, hopened⟩, ?_⟩
      have hv := merged_closing hmerged fun u hu => hstarts u (List.mem_append_right _ hu)
      exact congrArg some hv

/-! ## The record of a step -/

/-- What a step finds in its record. -/
structure Standing where
  attempts : Nat := 0
  result : Option String := none
  error : Option ErrorObject := none
  /-- the final status, if there is one -/
  verdict : Option OperationStatus := none
  deriving DecidableEq, Repr

def standing (r : Option Operation) : Standing where
  attempts := (r.map (·.attemptIdx)).getD 0
  result := r.bind fun op => op.stepDetails.bind (·.result)
  error := r.bind fun op => op.stepDetails.bind (·.error)
  verdict := r.bind fun op => if op.status.isTerminal then some op.status else none

/-- One acknowledged update. -/
def Standing.after (st : Standing) (v : OperationUpdate) : Standing :=
  if st.verdict.isSome then st
  else match v.action with
    | .start | .cancel => st
    | .retry => { attempts := st.attempts + 1, result := v.payload, error := v.error }
    | .succeed => { st with result := v.payload, error := v.error, verdict := some .succeeded }
    | .fail => { st with result := v.payload, error := v.error, verdict := some .failed }

theorem Standing.after_attempts_le (st : Standing) (v : OperationUpdate) :
    (st.after v).attempts ≤ st.attempts + 1 := by
  unfold Standing.after
  split
  · omega
  · cases v.action <;> simp

/-- The final status an update gives. -/
def verdictOf : OperationAction → Option OperationStatus
  | .succeed => some .succeeded
  | .fail => some .failed
  | .start | .retry | .cancel => none

theorem Standing.after_final {st : Standing} {v : OperationUpdate} {status : OperationStatus}
    (hopen : st.verdict = none) (hv : verdictOf v.action = some status) :
    st.after v =
      { st with result := v.payload, error := v.error, verdict := some status } := by
  unfold Standing.after
  cases haction : v.action <;> simp_all [verdictOf]

theorem standing_verdict_isSome (r : Option Operation) :
    (standing r).verdict.isSome = r.any (·.status.isTerminal) := by
  cases r with
  | none => rfl
  | some op => cases hop : op.status <;> simp [standing, hop, OperationStatus.isTerminal]

theorem verdict_of_open {t : Table} {id : String} (hopen : t.terminal id = false) :
    (standing (t id)).verdict = none := by
  have hverdict : (standing (t id)).verdict.isSome = false := by
    rw [standing_verdict_isSome]
    exact hopen
  simpa using hverdict

theorem open_of_verdict {t : Table} {id : String} (h : (standing (t id)).verdict = none) :
    t.terminal id = false := by
  have hverdict : (standing (t id)).verdict.isSome = false := by
    rw [h]
    rfl
  rwa [standing_verdict_isSome] at hverdict

def OfType (type : OperationType) (r : Option Operation) : Prop :=
  ∀ op, r = some op → op.operationType = type

theorem OfType.applied {type : OperationType} {r : Option Operation} {v : OperationUpdate}
    (h : OfType type r) (hv : v.operationType = type) : OfType type (applied r v) := by
  intro op hop
  unfold Backend.applied at hop
  split at hop
  · exact h op hop
  · rw [record_operationType hop]
    cases r with
    | none => exact hv
    | some old => exact h old rfl

theorem OfType.advances {type : OperationType} {r r' : Option Operation} (h : OfType type r)
    (htype : isExternal type = false) (hadvances : Advances r r') : OfType type r' := by
  cases hadvances with
  | @elapsed op _ =>
    rintro _ ⟨⟩
    exact h op rfl
  | completed _ hexternal _ =>
    rw [h _ rfl, htype] at hexternal
    cases hexternal

theorem Follows.ofType {type : OperationType} {old r : Option Operation} {vs : List OperationUpdate}
    (h : Follows old vs r) (hold : OfType type old) (htype : isExternal type = false)
    (hvs : ∀ v ∈ vs, v.operationType = type) : OfType type r := by
  induction h with
  | refl => exact hold
  | ack _ ih =>
    exact (ih fun v hv => hvs v (List.mem_append_left _ hv)).applied (hvs _ (by simp))
  | event _ hadvances ih => exact (ih hvs).advances htype hadvances

theorem standing_applied {r : Option Operation} {v : OperationUpdate}
    (hv : v.operationType = .step) : standing (applied r v) = (standing r).after v := by
  unfold applied Standing.after
  rw [standing_verdict_isSome]
  split
  · rfl
  · rename_i hopen
    have hstarted : OperationStatus.started.isTerminal = false := rfl
    have hpending : OperationStatus.pending.isTerminal = false := rfl
    have hfinal : OperationStatus.succeeded.isTerminal = true ∧
        OperationStatus.failed.isTerminal = true := ⟨rfl, rfl⟩
    cases r with
    | none =>
      cases hu : v.action <;>
        simp [record, hu, standing, finished, hv, retried, created, Operation.attemptIdx, hstarted,
          hpending, hfinal]
    | some op =>
      have hstatus : op.status.isTerminal = false := by simpa using hopen
      cases hu : v.action <;>
        simp [record, hu, standing, finished, hv, retried, Operation.attemptIdx, hstarted, hpending,
          hfinal, hstatus]

theorem standing_advances {r r' : Option Operation} (h : OfType .step r) (hadvances : Advances r r') :
    standing r' = standing r := by
  cases hadvances with
  | elapsed hpending => simp [standing, hpending, OperationStatus.isTerminal, Operation.attemptIdx]
  | completed _ hexternal _ =>
    rw [h _ rfl] at hexternal
    cases hexternal

theorem Follows.foldl {S : Type} {view : Option Operation → S} {after : S → OperationUpdate → S}
    {type : OperationType} {old r : Option Operation} {vs : List OperationUpdate}
    (hafter : ∀ {r v}, v.operationType = type → view (applied r v) = after (view r) v)
    (hadvances : ∀ {r r'}, OfType type r → Advances r r' → view r' = view r)
    (htype : isExternal type = false) (h : Follows old vs r) (hold : OfType type old)
    (hvs : ∀ v ∈ vs, v.operationType = type) : view r = vs.foldl after (view old) := by
  induction h with
  | refl => rfl
  | ack hbefore ih =>
    have hinit := ih fun v hv => hvs v (List.mem_append_left _ hv)
    rw [hafter (hvs _ (by simp)), hinit, List.foldl_append]
    rfl
  | event hbefore hstep ih =>
    rw [hadvances (hbefore.ofType hold htype hvs) hstep, ih hvs]

theorem Follows.standing {old r : Option Operation} {vs : List OperationUpdate}
    (h : Follows old vs r) (hold : OfType .step old) (hvs : ∀ v ∈ vs, v.operationType = .step) :
    Backend.standing r = vs.foldl Standing.after (Backend.standing old) :=
  h.foldl standing_applied standing_advances rfl hold hvs

/-! ## The record of a context -/

/-- What a child context finds in its record. -/
structure ContextStanding where
  result : Option String := none
  replayChildren : Option Bool := none
  /-- the older place of the payload -/
  outputPayload : Option String := none
  verdict : Option OperationStatus := none
  deriving DecidableEq, Repr

def contextStanding (r : Option Operation) : ContextStanding where
  result := r.bind fun op => op.contextDetails.bind (·.result)
  replayChildren := r.bind fun op => op.contextDetails.bind (·.replayChildren)
  outputPayload := r.bind fun op => op.executionDetails.bind (·.outputPayload)
  verdict := r.bind fun op => if op.status.isTerminal then some op.status else none

def ContextStanding.after (st : ContextStanding) (v : OperationUpdate) : ContextStanding :=
  if st.verdict.isSome then st
  else match verdictOf v.action with
    | some status => { st with
        result := v.payload
        replayChildren := v.contextOptions.bind (·.replayChildren)
        verdict := some status }
    | none => st

theorem contextStanding_verdict_isSome (r : Option Operation) :
    (contextStanding r).verdict.isSome = r.any (·.status.isTerminal) :=
  standing_verdict_isSome r

theorem ContextStanding.after_start {st : ContextStanding} {u : OperationUpdate}
    (hu : u.action = .start) : st.after u = st := by
  unfold ContextStanding.after
  rw [hu]
  exact ite_self _

theorem contextStanding_applied {r : Option Operation} {v : OperationUpdate}
    (hv : v.operationType = .context) :
    contextStanding (applied r v) = (contextStanding r).after v := by
  unfold applied ContextStanding.after
  rw [contextStanding_verdict_isSome]
  split
  · rfl
  · rename_i hopen
    have hstarted : OperationStatus.started.isTerminal = false := rfl
    have hpending : OperationStatus.pending.isTerminal = false := rfl
    have hfinal : OperationStatus.succeeded.isTerminal = true ∧
        OperationStatus.failed.isTerminal = true := ⟨rfl, rfl⟩
    cases r with
    | none =>
      cases hu : v.action <;>
        simp [record, hu, contextStanding, finished, hv, retried, created, hstarted, hpending, hfinal,
          verdictOf]
    | some op =>
      have hstatus : op.status.isTerminal = false := by simpa using hopen
      cases hu : v.action <;>
        simp [record, hu, contextStanding, finished, hv, retried, hstarted, hpending, hfinal, hstatus,
          verdictOf]

theorem contextStanding_advances {r r' : Option Operation} (h : OfType .context r)
    (hadvances : Advances r r') : contextStanding r' = contextStanding r := by
  cases hadvances with
  | elapsed hpending => simp [contextStanding, hpending, OperationStatus.isTerminal]
  | completed _ hexternal _ =>
    rw [h _ rfl] at hexternal
    cases hexternal

/-- The updates that ask for another attempt. -/
def retries (vs : List OperationUpdate) : Nat := vs.countP (·.action == .retry)

theorem Standing.after_start {st : Standing} {u : OperationUpdate} (hu : u.action = .start) :
    st.after u = st := by
  unfold Standing.after
  rw [hu]
  exact ite_self _

theorem Session.foldl {S : Type} {after : S → OperationUpdate → S} {vs : List OperationUpdate}
    {closing : Option OperationUpdate} (h : Session vs closing)
    (hstart : ∀ {st u}, u.action = .start → after st u = st) (st : S) :
    vs.foldl after st = closing.elim st (after st) := by
  obtain ⟨starts, rfl, hstarts⟩ := h
  have hopened : starts.foldl after st = st := by
    induction starts with
    | nil => rfl
    | cons u starts ih =>
      rw [List.foldl_cons, hstart (hstarts u List.mem_cons_self).action]
      exact ih fun v hv => hstarts v (List.mem_cons_of_mem _ hv)
  rw [List.foldl_append, hopened]
  cases closing <;> rfl

theorem Session.retries {vs : List OperationUpdate} {closing : Option OperationUpdate}
    (h : Session vs closing) :
    Backend.retries vs = if closing.any (·.action == .retry) then 1 else 0 := by
  obtain ⟨starts, rfl, hstarts⟩ := h
  have hnone : starts.countP (·.action == .retry) = 0 := by
    apply List.countP_eq_zero.mpr
    intro u hu
    rw [(hstarts u hu).action]
    decide
  unfold Backend.retries
  rw [List.countP_append, hnone]
  cases closing with
  | none => rfl
  | some u => simp [List.countP_cons]

end LambdaDurable.Backend
