import LambdaDurable.Context.Below
import LambdaDurable.Context.Launches

/-!
# The children of a batch in a run

The items of a batch stand for its children, in the order in which they were started: those
that are joined with what they returned, the others as started.
-/

namespace LambdaDurable

open Effects Call

variable {V I : Type}

namespace Batch

def startedItem (index : Nat) : BatchItem V := { index, status := .started }

def outcomeItem (index : Nat) : DurableResult V → BatchItem V
  | .ok v => { index, status := .succeeded, result := some v }
  | .error e => { index, status := .failed, error := some e }

/-- The items before they are sorted. -/
def Progress.entries (p : Progress V) : List (BatchItem V) :=
  p.successes.map (fun (index, v) => outcomeItem index (.ok v)) ++
    p.failures.map (fun (index, e) => outcomeItem index (.error e)) ++ p.started.map startedItem

theorem items_perm (p : Progress V) : p.items.Perm p.entries := List.mergeSort_perm _ _

theorem entries_indices (p : Progress V) : p.entries.map (·.index) = p.indices := by
  simp [Progress.entries, Progress.indices, outcomeItem, startedItem, Function.comp_def]

theorem entries_join {p : Progress V} {index : Nat} (h : index ∈ p.started) (r : DurableResult V) :
    ∃ rest, p.entries.Perm (startedItem index :: rest) ∧
      (p.join index r).entries.Perm (outcomeItem index r :: rest) := by
  have hstarted : (p.started.map (startedItem (V := V))).Perm
      (startedItem index :: (p.started.erase index).map startedItem) :=
    (List.perm_cons_erase h).map startedItem
  refine ⟨p.successes.map (fun (index, v) => outcomeItem index (.ok v)) ++
    p.failures.map (fun (index, e) => outcomeItem index (.error e)) ++
    (p.started.erase index).map startedItem, ?_, ?_⟩
  · exact (hstarted.append_left _).trans List.perm_middle
  · cases r with
    | ok v =>
      simp only [Progress.join, Progress.entries, List.map_append, List.map_cons, List.map_nil,
        List.append_assoc, List.singleton_append]
      exact List.perm_middle
    | error e =>
      simp only [Progress.join, Progress.entries, List.map_append, List.map_cons, List.map_nil,
        List.append_assoc, List.singleton_append]
      rw [← List.append_assoc, ← List.append_assoc]
      exact List.perm_middle

end Batch

namespace Tasks

variable {token : String} {loaded : Table} {root : ExecutionContext} {s s' : State V I}
  {l : Label V I} {j t : Nat} {task child : Task V I}

/-- What a batch knows of its child. One that panicked is not taken off the started ones. -/
def Task.item (index : Nat) (task : Task V I) : BatchItem V :=
  match task.joined, task.program with
  | true, .ret (.ok (.value v)) => Batch.outcomeItem index (.ok v)
  | true, .ret (.error e) => Batch.outcomeItem index (.error e)
  | _, _ => Batch.startedItem index

def Task.asItem (j : Nat) (task : Task V I) : Option (BatchItem V) :=
  match task.origin with
  | .child batch index => if batch = j then some (task.item index) else none
  | .call _ _ => none

/-- The children that the task `j` has started. -/
def State.items (s : State V I) (j : Nat) : List (BatchItem V) := s.tasks.filterMap (·.asItem j)

theorem asItem_of_child {index : Nat} (h : task.origin = .child j index) :
    task.asItem j = some (task.item index) := by
  simp [Task.asItem, h]

theorem item_of_unjoined (h : task.joined = false) (index : Nat) :
    task.item index = Batch.startedItem index := by
  unfold Task.item
  rw [h]

theorem filterMap_set_some {α β : Type} {f : α → Option β} {xs : List α} {i : Nat} {x y : α} {b c : β}
    (h : xs[i]? = some x) (hx : f x = some b) (hy : f y = some c) :
    ∃ before after, xs.filterMap f = before ++ b :: after ∧
      (xs.set i y).filterMap f = before ++ c :: after := by
  induction xs generalizing i with
  | nil => cases h
  | cons z xs ih =>
    cases i with
    | zero =>
      obtain rfl : z = x := Option.some.inj h
      exact ⟨[], xs.filterMap f, by rw [List.filterMap_cons_some hx]; rfl, by
        rw [List.set_cons_zero, List.filterMap_cons_some hy]; rfl⟩
    | succ i =>
      obtain ⟨before, after, hbefore, hafter⟩ := ih h
      rw [List.set_cons_succ, List.filterMap_cons, List.filterMap_cons, hbefore, hafter]
      cases f z with
      | none => exact ⟨before, after, rfl, rfl⟩
      | some d => exact ⟨d :: before, after, rfl, rfl⟩

/-! ## What a step does to the items -/

/-- The task that takes the step. -/
def actor : Label V I → Option Nat
  | .perform t _ | .request t _ | .resume t | .join t _ | .panic t _ _ => some t
  | _ => none

theorem running_of_step (h : step loaded s l = some s') (ht : actor l = some t) :
    ∃ task, s.tasks[t]? = some task ∧ task.joined = false := by
  cases l with
  | perform _ _ | request _ _ | resume _ =>
    obtain rfl := Option.some.inj ht
    obtain ⟨task, htask, -⟩ := Option.bind_eq_some_iff.mp h
    exact ⟨task, running_eq_some htask⟩
  | join _ _ | panic _ _ _ =>
    obtain rfl := Option.some.inj ht
    obtain ⟨task, htask, -⟩ := Option.bind_eq_some_iff.mp h
    exact ⟨task, running_eq_some (batchOf_eq_some htask).1⟩
  | _ => cases ht

theorem Acts.items {cl : Call.Label V} {r : State V I} (h : Acts loaded s t task cl r)
    (hopen : task.joined = false) (j : Nat) : r.items j = s.items j := by
  obtain ⟨hmem, v, -, rfl⟩ := h
  apply filterMap_set_same hmem
  have hsame : ∀ index, ({ task with program := v.program, ticket := v.ticket, trace := v.trace } :
      Task V I).item index = task.item index := by
    intro index
    rw [item_of_unjoined hopen]
    apply item_of_unjoined
    exact hopen
  simp only [Task.asItem, hsame]

theorem item_of_joinAnswer {index : Nat} {r : DurableResult V} (h : joinAnswer t child = some (index, r)) :
    child.origin = .child t index ∧
      ({ child with joined := true } : Task V I).item index = Batch.outcomeItem index r := by
  unfold joinAnswer at h
  split at h
  · rename_i batch index' r' horigin hprogram
    simp only [Option.ite_none_right_eq_some] at h
    obtain ⟨rfl, h⟩ := h
    split at h
    · obtain ⟨rfl, rfl⟩ := Prod.mk.inj (Option.some.inj h)
      exact ⟨horigin, by simp [Task.item, hprogram]⟩
    · cases h
    · obtain ⟨rfl, rfl⟩ := Prod.mk.inj (Option.some.inj h)
      exact ⟨horigin, by simp [Task.item, hprogram]⟩
  · cases h

theorem item_of_panics (h : panics t child = true) (index : Nat) :
    ({ child with joined := true } : Task V I).item index = Batch.startedItem index := by
  unfold panics at h
  split at h
  · rename_i hprogram
    simp [Task.item, hprogram]
  · cases h

/-- The join of another batch, or of a child that panicked, changes no item of the batch `j`. -/
theorem items_markJoined {r : State V I} {i : Nat} (hi : r.tasks[i]? = some child)
    (hsame : ∀ index, child.origin = .child j index →
      ({ child with joined := true } : Task V I).item index = child.item index) :
    (r.markJoined i child).items j = r.items j := by
  apply filterMap_set_same hi
  unfold Task.asItem
  dsimp only
  split
  · rename_i batch index horigin
    split
    · rename_i hbatch
      rw [hsame index (hbatch ▸ horigin)]
    · rfl
  · rfl

theorem Move.items_quiet (hm : Move loaded s l s') (hstep : step loaded s l = some s')
    (hquiet : ∀ i, l ≠ .join j i) :
    s'.items j = s.items j ++ (started s l).filterMap (·.asItem j) := by
  have hopen : ∀ {t : Nat} {task : Task V I}, actor l = some t → s.tasks[t]? = some task →
      task.joined = false := by
    intro t task ht htask
    obtain ⟨task', htask', hjoined⟩ := running_of_step hstep ht
    rw [htask] at htask'
    exact Option.some.inj htask' ▸ hjoined
  cases hm with
  | manager _ _ | service _ | enter _ _ => exact (List.append_nil _).symm
  | @begin c name call ctx hctx =>
    have hstarted : started s (.begin c name call) = [.new ctx (.call name call) (call.run ctx name)] := by
      simp [started, hctx]
    rw [hstarted]
    exact List.filterMap_append ..
  | @perform t choose task e r he hr =>
    have hstarted : started s (.perform t choose) = task.spawned t e := by
      simp [started, hr.mem, he]
    have hafter : (r.after t task e).tasks = r.tasks ++ task.spawned t e := by
      cases e <;> first | rfl | exact (List.append_nil _).symm
    rw [hstarted, ← hr.items (hopen rfl hr.mem) j]
    unfold State.items
    rw [hafter, List.filterMap_append]
  | request hr | resume hr =>
    rw [hr.items (hopen rfl hr.mem) j]
    exact (List.append_nil _).symm
  | @join t i index task child result r hjoining hne hi hunjoined hanswer hr =>
    have hi' : r.tasks[i]? = some child := (hr.others hne.symm).trans hi
    rw [items_markJoined hi', hr.items (hopen rfl hr.mem) j]
    · exact (List.append_nil _).symm
    · intro index' horigin
      rw [(item_of_joinAnswer hanswer).1] at horigin
      obtain ⟨rfl, -⟩ : t = j ∧ _ := by simpa using horigin
      exact absurd rfl (hquiet i)
  | @panic t i message task child r hjoining hne hi hunjoined hpanics hr =>
    have hi' : r.tasks[i]? = some child := (hr.others hne.symm).trans hi
    rw [items_markJoined hi', hr.items (hopen rfl hr.mem) j]
    · exact (List.append_nil _).symm
    · intro index _
      rw [item_of_panics hpanics, item_of_unjoined hunjoined]

theorem Move.items_join {i : Nat} (hm : Move loaded s (.join j i) s')
    (hstep : step loaded s (.join j i) = some s') :
    ∃ child index r before after, s.tasks[i]? = some child ∧ child.joined = false ∧
      joinAnswer j child = some (index, r) ∧
      s'.traceOf j = ⟨.joinNext, .ok (index, r)⟩ :: s.traceOf j ∧
      s.items j = before ++ Batch.startedItem index :: after ∧
      s'.items j = before ++ Batch.outcomeItem index r :: after := by
  obtain ⟨actor, hactor, hopen⟩ := running_of_step hstep rfl
  cases hm with
  | @join _ _ index task child result r hjoining hne hi hunjoined hanswer hr =>
    obtain rfl := Option.some.inj (hactor.symm.trans hr.mem)
    have hi' : r.tasks[i]? = some child := (hr.others hne.symm).trans hi
    obtain ⟨horigin, hitem⟩ := item_of_joinAnswer hanswer
    have hbefore : child.asItem j = some (Batch.startedItem index) := by
      rw [asItem_of_child horigin, item_of_unjoined hunjoined]
    have hafter : ({ child with joined := true } : Task V I).asItem j =
        some (Batch.outcomeItem index result) := by
      rw [← hitem]
      exact asItem_of_child horigin
    obtain ⟨before, after, hitems, hitems'⟩ := filterMap_set_some hi' hbefore hafter
    obtain ⟨task', k, hmem, -, -, htrace⟩ := joining_answer hr hjoining
    refine ⟨child, index, result, before, after, hi, hunjoined, hanswer, ?_, ?_, hitems'⟩
    · have hmem' : (r.markJoined i child).tasks[j]? = some task' := (List.getElem?_set_ne hne).trans hmem
      rw [traceOf_of_mem hmem', traceOf_of_mem hr.mem, htrace]
    · rw [← hr.items hopen j]
      exact hitems

theorem asItem_of_unjoined (h : task.joined = false) (j : Nat) :
    task.asItem j = (task.openFor j).map Batch.startedItem := by
  cases horigin : task.origin with
  | call name call => simp only [Task.asItem, Task.openFor, horigin, Option.map_none]
  | child batch index =>
    simp only [Task.asItem, Task.openFor, horigin, h, and_true, item_of_unjoined h]
    split <;> rfl

theorem asItem_started (s : State V I) (l : Label V I) (j : Nat) :
    (started s l).filterMap (·.asItem j) =
      ((started s l).filterMap (·.openFor j)).map Batch.startedItem := by
  rw [List.map_filterMap]
  apply List.filterMap_congr
  intro task htask
  apply asItem_of_unjoined
  obtain ⟨_, _, _, _, -, -, rfl⟩ | ⟨_, _, _, -, -, hspawned⟩ := mem_started htask
  · rfl
  · obtain ⟨_, _, _, _, _, _, _, _, _, rfl⟩ := mem_spawned hspawned
    rfl

/-! ## What a batch and a run know of its children -/

/-- The items of the batch `j` are its children, numbered in the order of their start, and no
more than the configuration allows are in flight. -/
structure Pooled (cfg : BatchConfig V) (totalItems : Nat) (s : State V I) (j : Nat) : Prop where
  mirrors : (s.items j).Perm (Batch.progress (s.traceOf j)).entries
  numbered : (s.items j).map (·.index) = List.range (s.items j).length
  count : (s.items j).length ≤ totalItems
  inFlight : (Batch.progress (s.traceOf j)).started.length ≤
    max (cfg.maxConcurrency.getD (max totalItems 1)) 1

variable {cfg : BatchConfig V} {totalItems : Nat}

theorem Pooled.length (h : Pooled cfg totalItems s j) :
    (Batch.progress (s.traceOf j)).indices.length = (s.items j).length := by
  rw [← Batch.entries_indices, List.length_map]
  exact h.mirrors.length_eq.symm

theorem Pooled.idle (h : Pooled cfg totalItems s j) (hitems : s'.items j = s.items j)
    (hprogress : Batch.progress (s'.traceOf j) = Batch.progress (s.traceOf j)) :
    Pooled cfg totalItems s' j := by
  constructor
  · rw [hitems, hprogress]
    exact h.mirrors
  · rw [hitems]
    exact h.numbered
  · rw [hitems]
    exact h.count
  · rw [hprogress]
    exact h.inFlight

theorem Pooled.join (h : Pooled cfg totalItems s j) {index : Nat} {r : DurableResult V}
    {before after : List (BatchItem V)}
    (hindex : index ∈ (Batch.progress (s.traceOf j)).started)
    (hprogress : Batch.progress (s'.traceOf j) = (Batch.progress (s.traceOf j)).join index r)
    (hitems : s.items j = before ++ Batch.startedItem index :: after)
    (hitems' : s'.items j = before ++ Batch.outcomeItem index r :: after) :
    Pooled cfg totalItems s' j := by
  have hlength : (s'.items j).length = (s.items j).length := by
    rw [hitems, hitems']
    simp
  constructor
  · obtain ⟨rest, hbefore, hafter⟩ := Batch.entries_join hindex r
    have hrest : (before ++ after).Perm rest := by
      have hold := h.mirrors
      rw [hitems] at hold
      exact (List.perm_middle.symm.trans (hold.trans hbefore)).cons_inv
    rw [hitems', hprogress]
    exact List.perm_middle.trans ((hrest.cons _).trans hafter.symm)
  · rw [hlength, ← h.numbered, hitems, hitems']
    cases r <;> simp [Batch.outcomeItem, Batch.startedItem]
  · rw [hlength]
    exact h.count
  · have herase := Batch.length_started_join hindex r
    have hbound := h.inFlight
    rw [hprogress]
    omega

theorem Pooled.spawn (h : Pooled cfg totalItems s j) {index : Nat}
    (hindex : index = (Batch.progress (s.traceOf j)).indices.length) (hlt : index < totalItems)
    (hmay : Batch.maySpawn cfg totalItems (Batch.progress (s.traceOf j)) = true)
    (hprogress : Batch.progress (s'.traceOf j) = { Batch.progress (s.traceOf j) with
      started := (Batch.progress (s.traceOf j)).started ++ [index] })
    (hitems : s'.items j = s.items j ++ [Batch.startedItem index]) : Pooled cfg totalItems s' j := by
  rw [h.length] at hindex
  constructor
  · rw [hitems, hprogress, Batch.Progress.entries, List.map_append, ← List.append_assoc]
    exact h.mirrors.append_right _
  · rw [hitems, List.map_append, h.numbered, List.length_append, List.length_singleton, List.range_succ,
      hindex]
    rfl
  · rw [hitems, List.length_append, List.length_singleton]
    omega
  · simp only [Batch.maySpawn, Bool.and_eq_true, decide_eq_true_eq] at hmay
    rw [hprogress, List.length_append, List.length_singleton]
    omega

/-! ## The invariant along a run -/

/-- The children that a batch joins are its own. -/
theorem view_joins (h : (machine token loaded root).Reachable s) (htask : s.tasks[j]? = some task) :
    (Call.machine token loaded task.start).ReachableBy (Instantly loaded Launching.Joins)
      (s.view task) := by
  refine view_reachableBy (fun s l cl hr hsame hseen => ?_) h.along htask
  rintro choose e k a rfl hprogram ha
  rw [look_trace]
  cases e with
  | joinNext =>
    cases a with
    | error message => trivial
    | ok joined =>
      cases hseen with
      | perform choose => cases ha
      | panic _ _ => cases ha
      | join hi hopen hanswer =>
        obtain rfl := Except.ok.inj (Option.some.inj ha)
        exact ((matched_of_reachableBy hr.1).mem hi hopen hanswer).2
  | _ => trivial

variable {name : Option String} {call : DurableCall V I} {spec : BatchSpec} {itemNames : List String}

theorem spawning_of_reachable (h : (machine token loaded root).Reachable s)
    (htask : s.tasks[j]? = some task) (horigin : task.origin = .call name call)
    (hcall : call.batch name = some (spec, cfg, itemNames)) :
    Launching.Spawning loaded cfg itemNames.length
      (fun trace r => ∃ r', Launching.Gives loaded task.ctx name cfg itemNames.length trace r' ∧
        r = r'.map Output.batch) task.program task.trace := by
  refine meets_of_reachableBy (respects_instantly ?_) ?_ (view_joins h htask)
  · intro trace m n e a ha
    cases e with
    | joinNext => cases ha
    | _ => trivial
  · rw [start_of_origin h (List.mem_of_getElem? htask) horigin]
    exact Launching.spawning_call hcall

theorem batch_of_call {n : Nat} (horigin : task.origin = .call name call)
    (hcall : call.batch name = some (spec, cfg, itemNames)) (hn : drawn task.trace = some n) :
    task.batch = some (spec, cfg, callId task.ctx name n) := by
  unfold DurableCall.batch at hcall
  split at hcall
  · obtain ⟨rfl, rfl, -⟩ : _ ∧ _ ∧ _ := by simpa using hcall
    simp [Task.batch, horigin, hn, callId]
  · obtain ⟨rfl, rfl, -⟩ : _ ∧ _ ∧ _ := by simpa using hcall
    simp [Task.batch, horigin, hn, callId]
  · cases hcall

/-- A batch that has drawn its number has a kind to give its children. -/
theorem batch_isSome (horigin : task.origin = .call name call)
    (hcall : call.batch name = some (spec, cfg, itemNames)) (hdrawn : (drawn task.trace).isSome) :
    task.batch.isSome := by
  obtain ⟨n, hn⟩ := Option.isSome_iff_exists.mp hdrawn
  rw [batch_of_call horigin hcall hn]
  rfl

theorem openFor_spawning {index : Nat} {stepId hashedId itemName : String}
    {choose : (e : Effect V) → Option (Answer e)} (hj : s.tasks[j]? = some task)
    (he : nextEffect task.program = some (.spawn index stepId hashedId itemName))
    (hbatch : task.batch.isSome) : (started s (.perform j choose)).filterMap (·.openFor j) = [index] := by
  obtain ⟨batch, hbatch⟩ := Option.isSome_iff_exists.mp hbatch
  simp [started, hj, he, Task.spawned, hbatch, Task.openFor, Task.new]

theorem pooled_step (h : Pooled cfg itemNames.length s j) (hr : (machine token loaded root).Reachable s)
    (hstep : step loaded s l = some s')
    (horigin : ∀ task, s.tasks[j]? = some task → task.origin = .call name call)
    (hcall : call.batch name = some (spec, cfg, itemNames)) : Pooled cfg itemNames.length s' j := by
  have hm := move_of_step hstep
  by_cases hjoin : ∃ i, l = .join j i
  · obtain ⟨i, rfl⟩ := hjoin
    obtain ⟨child, index, r, before, after, hi, hunjoined, hanswer, htrace, hitems, hitems'⟩ :=
      hm.items_join hstep
    have hindex := ((matched_of_reachableBy hr).mem hi hunjoined hanswer).2
    refine h.join hindex ?_ hitems hitems'
    rw [htrace]
    rfl
  have hitems := hm.items_quiet hstep fun i hl => hjoin ⟨i, hl⟩
  rw [asItem_started] at hitems
  have hquiet : (started s l).filterMap (·.openFor j) = [] → s'.items j = s.items j := by
    intro hnone
    rw [hitems, hnone, List.map_nil, List.append_nil]
  obtain ⟨hsame, hidle⟩ | ⟨task, e, k, a, hj, hprogram, htrace, hanswered⟩ := hm.traceOf_cases j
  · obtain hnone | ⟨choose, task, _, _, _, _, hl, hj, -, -⟩ := openFor_started s l j
    · exact h.idle (hquiet hnone) (by rw [hsame])
    · rw [hidle choose hl] at hj
      cases hj
  · have hnone : (∀ index stepId hashedId itemName, e ≠ .spawn index stepId hashedId itemName) →
        (started s l).filterMap (·.openFor j) = [] := by
      intro hne
      obtain hnone | ⟨_, task', index, _, _, _, -, hj', he, -⟩ := openFor_started s l j
      · exact hnone
      · obtain rfl := Option.some.inj (hj.symm.trans hj')
        rw [hprogram] at he
        exact absurd (Option.some.inj he) (hne _ _ _ _)
    cases e with
    | joinNext =>
      apply h.idle (hquiet (hnone fun _ _ _ _ heq => by cases heq))
      rw [htrace]
      cases a with
      | error message => rfl
      | ok joined =>
        obtain ⟨i, child, hl, -, -, -⟩ := hanswered.joinNext
        exact absurd ⟨i, hl⟩ hjoin
    | spawn index stepId hashedId itemName =>
      have hlaunches := spawning_of_reachable hr hj (horigin task hj) hcall
      rw [hprogram] at hlaunches
      obtain ⟨hdrawn, hindex, hlt, hmay⟩ := hlaunches.1
      have hbatch := batch_isSome (horigin task hj) hcall hdrawn
      rw [← traceOf_of_mem hj] at hindex hmay
      refine h.spawn hindex hlt hmay (by rw [htrace]; rfl) ?_
      cases hanswered with
      | perform _ => rw [hitems, openFor_spawning hj (by rw [hprogram]; rfl) hbatch, List.map_singleton]
      | resume ha => cases ha
    | _ =>
      apply h.idle (hquiet (hnone fun _ _ _ _ heq => by cases heq))
      rw [htrace]
      rfl

theorem pooled_of_reachable (h : (machine token loaded root).Reachable s) (hj : s.tasks[j]? = some task)
    (horigin : task.origin = .call name call)
    (hcall : call.batch name = some (spec, cfg, itemNames)) : Pooled cfg itemNames.length s j := by
  refine Transition.Machine.Reachable.invariant (I := fun s => (∀ task, s.tasks[j]? = some task →
    task.origin = .call name call) → Pooled cfg itemNames.length s j) ?_ ?_ h ?_
  · rintro _ ⟨-, mode, rfl⟩ -
    exact ⟨.refl _, rfl, Nat.zero_le _, Nat.zero_le _⟩
  · intro s l s' hr hs hstep horigin
    have hbefore : ∀ task, s.tasks[j]? = some task → task.origin = .call name call := by
      intro task hj
      obtain ⟨task', hj', hsame⟩ := (move_of_step hstep).grows.kept j task hj
      rw [← hsame.origin]
      exact horigin task' hj'
    exact pooled_step (hs hbefore) hr hstep hbefore hcall
  · intro task' hj'
    rw [hj] at hj'
    exact Option.some.inj hj' ▸ horigin

/-! ## The scheduler of a batch -/

theorem countP_entries (p : Batch.Progress V) :
    p.entries.countP (·.status = .succeeded) = p.successes.length ∧
      p.entries.countP (·.status = .failed) = p.failures.length ∧
      p.entries.countP (·.status = .started) = p.started.length ∧
      p.entries.countP (·.status ≠ .started) = p.completedCount := by
  simp [Batch.Progress.entries, Batch.Progress.completedCount, Batch.outcomeItem, Batch.startedItem,
    List.countP_map, Function.comp_def]

/-- Items with the indices of a range are sorted in one way only. -/
theorem items_eq {p : Batch.Progress V} {items : List (BatchItem V)} (h : items.Perm p.entries)
    (hnumbered : items.map (·.index) = List.range items.length) : p.items = items := by
  have hnodup : (items.map (·.index)).Nodup := hnumbered ▸ List.nodup_range
  have hperm : p.items.Perm items := (Batch.items_perm p).trans h.symm
  have hrange : items.Pairwise fun a b => a.index ≤ b.index := by
    have hlt : (items.map (·.index)).Pairwise (· < ·) := hnumbered ▸ List.pairwise_lt_range
    exact (List.pairwise_map.mp hlt).imp Nat.le_of_lt
  refine hperm.eq_of_pairwise (fun a b ha hb hab hba => ?_) p.items_sorted hrange
  exact List.inj_on_of_nodup_map hnodup (hperm.mem_iff.mp ha) hb (Nat.le_antisymm hab hba)

theorem completionReason_of_isOver {config : CompletionConfig} {p : Batch.Progress V} {n : Nat}
    (hover : (p.completedCount == n || config.minSuccessful.any (p.successes.length ≥ ·) ||
      !config.shouldContinueBatch p.failures.length n) = true) :
    config.computeBatchCompletionReason p.failures.length p.successes.length p.completedCount n =
      if config.shouldContinueBatch p.failures.length n = false then .failureToleranceExceeded
      else if p.completedCount = n then .allCompleted else .minSuccessfulReached := by
  unfold CompletionConfig.computeBatchCompletionReason
  cases hcontinue : config.shouldContinueBatch p.failures.length n with
  | false => rfl
  | true =>
    simp only [Bool.not_true, Bool.false_eq_true, Bool.true_eq_false, if_false]
    split
    · rfl
    · rename_i hopen
      simp only [hcontinue, Bool.not_true, Bool.or_false, Bool.or_eq_true, beq_iff_eq, hopen,
        false_or] at hover
      cases hmin : config.minSuccessful with
      | none => simp [hmin] at hover
      | some min =>
        rw [hmin] at hover
        simp only [Option.any_some, decide_eq_true_eq] at hover
        dsimp only
        rw [if_pos hover]

variable {limit : Rat}

/-- A child is started only while the batch is not over. -/
theorem maySpawn_of_started (hr : (machine token loaded root).Reachable s) (hj : s.tasks[j]? = some task)
    (horigin : task.origin = .call name call) (hcall : call.batch name = some (spec, cfg, itemNames))
    (hstep : step loaded s l = some s') (hmore : (s.items j).length < (s'.items j).length) :
    Batch.maySpawn cfg itemNames.length (Batch.progress (s.traceOf j)) = true := by
  have hm := move_of_step hstep
  by_cases hjoin : ∃ i, l = .join j i
  · obtain ⟨i, rfl⟩ := hjoin
    obtain ⟨_, _, _, _, _, -, -, -, -, hitems, hitems'⟩ := hm.items_join hstep
    rw [hitems, hitems'] at hmore
    simp at hmore
  · have hitems := hm.items_quiet hstep fun i hl => hjoin ⟨i, hl⟩
    rw [asItem_started] at hitems
    obtain hnone | ⟨_, task', _, _, _, _, -, hj', he, -⟩ := openFor_started s l j
    · rw [hitems, hnone] at hmore
      simp at hmore
    · obtain rfl := Option.some.inj (hj.symm.trans hj')
      have hlaunches := spawning_of_reachable hr hj horigin hcall
      rw [traceOf_of_mem hj]
      cases hprogram : task.program with
      | ret r =>
        rw [hprogram] at he
        cases he
      | act e k =>
        rw [hprogram] at he hlaunches
        obtain rfl := Option.some.inj he
        exact hlaunches.1.2.2.2

/-- **The scheduler of `map` and `parallel`.** In every reachable state the children of a batch
are its first items in order, and as many are in flight as may be; a step starts a child only
while the batch is not over. A batch that is returned was read from a Succeeded record before any
child was started, or it has an item for each child, and its reason is the first that applies. -/
theorem batch_scheduled (h : (machine token loaded root).Reachable s) (hj : s.tasks[j]? = some task)
    (horigin : task.origin = .call name call) (hcall : call.batch name = some (spec, cfg, itemNames))
    (hexact : cfg.completionConfig.Exact limit itemNames.length) :
    ((s.items j).map (·.index) = List.range (s.items j).length ∧
      (s.items j).length ≤ itemNames.length) ∧
    (s.items j).countP (·.status = .started) ≤ max 1 (cfg.maxConcurrency.getD itemNames.length) ∧
    (∀ l s', step loaded s l = some s' → (s.items j).length < (s'.items j).length →
      (∀ min ∈ cfg.completionConfig.minSuccessful, (s.items j).countP (·.status = .succeeded) < min) ∧
      cfg.completionConfig.toleranceExceeded limit ((s.items j).countP (·.status = .failed))
        itemNames.length = false) ∧
    ∀ result, task.program = .ret (.ok (.batch result)) →
      (∃ n op, drawn task.trace = some n ∧ loaded (callId task.ctx name n) = some op ∧
        op.status = .succeeded ∧ s.items j = []) ∨
      result.all = s.items j ∧ result.completionReason =
        if cfg.completionConfig.toleranceExceeded limit ((s.items j).countP (·.status = .failed))
          itemNames.length then .failureToleranceExceeded
        else if (s.items j).countP (·.status ≠ .started) = itemNames.length then .allCompleted
        else .minSuccessfulReached := by
  have hpooled := pooled_of_reachable h hj horigin hcall
  have hcount := countP_entries (Batch.progress (s.traceOf j))
  simp only [← hpooled.mirrors.countP_eq] at hcount
  obtain ⟨hsucceeded, hfailed, hstarted, hcompleted⟩ := hcount
  have hfailures : (Batch.progress (s.traceOf j)).failures.length ≤ itemNames.length := by
    rw [← hfailed]
    exact Nat.le_trans List.countP_le_length hpooled.count
  have hcontinue := CompletionConfig.shouldContinueBatch_eq hexact hfailures
  rw [hfailed, hsucceeded, hstarted, hcompleted]
  refine ⟨⟨hpooled.numbered, hpooled.count⟩, ?_, ?_, ?_⟩
  · have hbound := hpooled.inFlight
    cases hmax : cfg.maxConcurrency with
    | none =>
      rw [hmax] at hbound
      simp only [Option.getD_none] at hbound ⊢
      omega
    | some limit =>
      rw [hmax] at hbound
      simp only [Option.getD_some] at hbound ⊢
      omega
  · intro l s' hstep hmore
    have hmay := maySpawn_of_started h hj horigin hcall hstep hmore
    simp only [Batch.maySpawn, Bool.and_eq_true, Bool.not_eq_true', hcontinue] at hmay
    refine ⟨fun min hmin => ?_, hmay.1.2⟩
    rw [Option.mem_def.mp hmin] at hmay
    simpa using hmay.2
  · intro result hret
    have hgives := spawning_of_reachable h hj horigin hcall
    rw [hret] at hgives
    obtain ⟨r, hgives, hr⟩ := hgives
    obtain rfl : r = .ok result := by
      cases r with
      | error e => cases hr
      | ok batch =>
        obtain rfl : result = batch := by simpa [Except.map] using hr
        rfl
    rw [← traceOf_of_mem hj] at hgives
    obtain ⟨n, op, hn, hop, hstatus, hnone⟩ | ⟨hover, rfl⟩ := hgives result rfl
    · left
      refine ⟨n, op, traceOf_of_mem hj ▸ hn, hop, hstatus, ?_⟩
      have hempty := hpooled.mirrors
      rw [hnone] at hempty
      exact hempty.eq_nil
    · right
      refine ⟨items_eq hpooled.mirrors hpooled.numbered, ?_⟩
      have hreason := completionReason_of_isOver hover
      rw [hcontinue] at hreason
      simpa [Batch.Progress.result] using hreason

def spawns (t : Nat) : Label V I :=
  .perform t fun
    | .spawn _ _ _ _ => some ()
    | _ => none

/-- What the task `t` has returned, as a batch. -/
def State.returnedBatch (s : State V I) (t : Nat) : Option (BatchResult V) :=
  s.tasks[t]?.bind fun task =>
    match task.program with
    | .ret (.ok (.batch result)) => some result
    | _ => none

def oneOfTwo : MapConfig Nat Nat where
  toBatchConfig := Batch.atLeast 1

theorem origin_of_checkedRun {ok : State V I → Label V I → Bool} {ls : List (Label V I)}
    {origin : Origin V I} (hj : s.tasks[j]? = some task) (horigin : task.origin = origin)
    (h : (machine token loaded root).checkedRun ok s ls = some s') :
    ∃ task', s'.tasks[j]? = some task' ∧ task'.origin = origin := by
  refine Transition.Machine.checkedRun_preserves
    (P := fun s : State V I => ∃ task, s.tasks[j]? = some task ∧ task.origin = origin) ?_ ls
    ⟨task, hj, horigin⟩ h
  rintro s l s' ⟨task, hj, rfl⟩ hstep
  obtain ⟨task', hj', hsame⟩ := (move_of_step hstep).grows.kept j task hj
  exact ⟨task', hj', hsame.origin⟩

/-- Half of the items may fail, one child after the other. -/
def halfTolerated : MapConfig Nat Nat :=
  { oneOfTwo with
    maxConcurrency := some 1
    completionConfig := { toleratedFailurePercentage := some ⟨50.0, "50"⟩ } }

def mapThree : DurableCall Nat Nat := .map [10, 20, 30] halfTolerated

def failsContext (t : Nat) : Label Nat Nat :=
  .perform t fun
    | .contextFn _ _ => some (.error (.internal "no such host"))
    | _ => none

/-- The next child is the task `t`; it fails, with its records under the calls `n` and `n + 1`. -/
def failedChild (t n : Nat) : List (Label Nat Nat) :=
  [quick 0, spawns 0, quick t, quick t, quick t] ++ asked t n 0 ++ served t n 0 ++
    [quick t, failsContext t] ++ asked t (n + 1) 0 ++ served t (n + 1) 0 ++ [.join 0 t]

/-- Two of three items fail; the third is never started. -/
def mapRun : List (Label Nat Nat) :=
  .begin 0 none mapThree :: ([quick 0, quick 0, quick 0] ++ asked 0 0 0 ++ served 0 0 0 ++
    failedChild 1 1 ++ failedChild 2 3 ++ asked 0 5 0 ++ served 0 5 0)

/-- One failure of three is below the half in floating point too, two are above it. -/
theorem halfTolerated_exact : halfTolerated.completionConfig.Exact 50 3 := by
  rintro _ ⟨⟩ failures hle
  obtain rfl | rfl | rfl | rfl : failures = 0 ∨ failures = 1 ∨ failures = 2 ∨ failures = 3 := by omega
  all_goals decide +kernel

theorem batch_scheduled_mapRun : ∃ (s : State Nat Nat) (result : BatchResult Nat),
    s.returnedBatch 0 = some result ∧ result.all = s.items 0 ∧
      (s.items 0).map (fun item => (item.index, item.status)) = [(0, .failed), (1, .failed)] ∧
      result.completionReason = .failureToleranceExceeded := by
  have hend : ((machine "t0" (fun _ => none) rootContext).checkedRun noneFails
      (.new "t0" (fun _ => none) .execution rootContext) mapRun).map
      (fun s => ((s.returnedBatch 0).isSome, (s.items 0).countP (·.status = .failed),
        (s.items 0).map (fun item => (item.index, item.status)))) =
      some (true, 2, [(0, .failed), (1, .failed)]) := by decide +kernel
  obtain ⟨s, hrun, hs⟩ := Option.map_eq_some_iff.mp hend
  obtain ⟨hreturned, hfailed, hitems⟩ : _ ∧ _ ∧ _ := by simpa only [Prod.mk.injEq] using hs
  obtain ⟨result, hresult⟩ := Option.isSome_iff_exists.mp hreturned
  have hreach : (machine "t0" (fun _ => none) rootContext).Reachable s :=
    Transition.Machine.checkedRun_reachableBy (fun _ _ _ _ => trivial) mapRun (.init ⟨rfl, _, rfl⟩) hrun
  obtain ⟨-, begun, hbegun, hrest⟩ := Transition.Machine.checkedRun_cons hrun
  obtain rfl := Option.some.inj hbegun
  obtain ⟨task, hj, horigin⟩ :=
    @origin_of_checkedRun _ _ _ _ _ _ _ 0 _ _ _ (.call none mapThree) rfl rfl hrest
  have hprogram : task.program = .ret (.ok (.batch result)) := by
    simp only [State.returnedBatch, hj, Option.bind_some] at hresult
    split at hresult
    · rename_i hret
      obtain rfl := Option.some.inj hresult
      exact hret
    · cases hresult
  have hexceeded : halfTolerated.completionConfig.toleranceExceeded 50 2 3 = true := by decide +kernel
  obtain ⟨-, -, -, hbatch⟩ := @batch_scheduled Nat Nat "t0" (fun _ => none) rootContext s 0 task _ _
    mapThree _ _ 50 hreach hj horigin rfl halfTolerated_exact
  refine ⟨s, result, hresult, ?_⟩
  obtain ⟨_, _, -, hop, -⟩ | ⟨hall, hreason⟩ := hbatch result hprogram
  · cases hop
  · refine ⟨hall, hitems, ?_⟩
    rw [hreason, hfailed]
    exact if_pos hexceeded

end Tasks

end LambdaDurable
