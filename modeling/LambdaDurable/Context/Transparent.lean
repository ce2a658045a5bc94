import LambdaDurable.Context.Logging
import LambdaDurable.Context.Paging
import LambdaDurable.Context.Sequential
import LambdaDurable.Context.Summaries
import LambdaDurable.Context.Tree
import LambdaDurable.Library.Oracle

/-!
# A handler does the same in every invocation

A handler that awaits one operation after another is answered by the records of the service: what
an operation has returned once it returns in every later invocation. So a later invocation goes
the way of the earlier ones, and where it goes further it goes on from them.
-/

namespace LambdaDurable

open Effects

variable {V I : Type}

namespace Logging

open Prog (Leads Told)

/-- How many operations have been called. -/
def calls : Past V I → Nat
  | [] => 0
  | ⟨.log _ _ _, _⟩ :: past => calls past
  | ⟨.call _ _, _⟩ :: past => calls past + 1

/-- The operation has returned an error. -/
def Failed : (r : Request V I) → Reply r → Prop
  | .call _ _, .error _ => True
  | _, _ => False

def Clean (past : Past V I) : Prop := ∀ event ∈ past, ¬ Failed event.1 event.2

/-- An operation opens no context, and what it encodes can be decoded. -/
def Request.Plain : Request V I → Prop
  | .log _ _ _ => True
  | .call _ operation => operation.isLeaf = true ∧ operation.Faithful

/-- `.await?` of plain operations: the handler returns on an error. -/
def Straight : Handler V I → Prop
  | .ret _ => True
  | .act r k => r.Plain ∧ ∀ a, Straight (k a) ∧ (Failed r a → ∃ e, k a = .ret (.error e))

/-- The handler may call an operation with this name after `n` others. -/
def Asked (handler : Handler V I) (name : Option String) (n : Nat) : Prop :=
  ∃ past call k, Leads handler past (.act (.call name call) k) ∧ calls past = n

/-- The IDs of the operations the handler may call have no hash in common. -/
def Collisionless (root : ExecutionContext) (handler : Handler V I) : Prop :=
  ∀ name n name' n', Asked handler name n → Asked handler name' n' →
    root.hashId (root.operationId name n) = root.hashId (root.operationId name' n') →
      root.operationId name n = root.operationId name' n'

section

variable {handler q : Handler V I} {past later : Past V I} {name name' : Option String} {n n' : Nat}
  {call : DurableCall V I} {root : ExecutionContext}

theorem calls_append (later past : Past V I) : calls (later ++ past) = calls later + calls past := by
  induction later with
  | nil => exact (Nat.zero_add _).symm
  | cons event later ih =>
    obtain ⟨r, a⟩ := event
    cases r with
    | log _ _ _ => exact ih
    | call _ _ =>
      have hcons : calls (later ++ past) + 1 = calls later + 1 + calls past := by omega
      exact hcons

theorem exists_call_of_lt {t : Nat} (h : t < calls past) : ∃ name call r earlier,
    ⟨.call name call, r⟩ :: earlier <:+ past ∧ calls earlier = t := by
  induction past with
  | nil => cases h
  | cons event past ih =>
    have hlift : t < calls past → ∃ name call r earlier,
        ⟨.call name call, r⟩ :: earlier <:+ event :: past ∧ calls earlier = t := by
      intro hlt
      obtain ⟨name, call, r, earlier, hsuffix, ht⟩ := ih hlt
      exact ⟨name, call, r, earlier, hsuffix.trans (List.suffix_cons _ _), ht⟩
    obtain ⟨r, a⟩ := event
    cases r with
    | log _ _ _ => exact hlift h
    | call name call =>
      by_cases hlt : t < calls past
      · exact hlift hlt
      · have hle : t < calls past + 1 := h
        exact ⟨name, call, a, past, List.suffix_refl _, by omega⟩

theorem Straight.leads (h : Straight handler) (hleads : Leads handler past q) : Straight q := by
  induction hleads with
  | refl => exact h
  | answer _ a ih => exact (ih.2 a).1

/-- A handler that goes on has met no error. -/
theorem Straight.clean (h : Straight handler) {r : Request V I} {k : Reply r → Handler V I}
    (hleads : Leads handler past (.act r k)) : Clean past := by
  have hgoes : ∀ {past q}, Leads handler past q → (∀ a, q ≠ .ret a) → Clean past := by
    intro past q hleads
    induction hleads with
    | refl => exact fun _ event hmem => absurd hmem List.not_mem_nil
    | @answer past r k hbefore a ih =>
      intro hgoes event hmem
      obtain rfl | hmem := List.mem_cons.mp hmem
      · intro hfailed
        obtain ⟨e, he⟩ := ((h.leads hbefore).2 a).2 hfailed
        exact hgoes _ he
      · exact ih (by rintro _ ⟨⟩) event hmem
  exact hgoes hleads (by rintro _ ⟨⟩)

theorem Straight.clean_of_ok (h : Straight handler) {v : V} (hleads : Leads handler past (.ret (.ok v))) :
    Clean past := by
  cases past with
  | nil => exact fun event hmem => absurd hmem List.not_mem_nil
  | cons event past =>
    obtain ⟨r, a⟩ := event
    obtain ⟨k, hbefore, hk⟩ := Prog.leads_cons hleads
    intro event hmem
    obtain rfl | hmem := List.mem_cons.mp hmem
    · intro hfailed
      obtain ⟨e, he⟩ := ((h.leads hbefore).2 a).2 hfailed
      rw [he] at hk
      cases hk
    · exact h.clean hbefore event hmem

/-- The number of a call is in its ID. -/
theorem Collisionless.number_eq (h : Collisionless root handler) (hroot : root.currentParentId = none)
    (hasked : Asked handler name n) (hasked' : Asked handler name' n')
    (hid : callId root name n = callId root name' n') : n = n' := by
  have hsame := congrArg String.toList (h name n name' n' hasked hasked' hid)
  rw [root.operationId_of_root hroot, root.operationId_of_root hroot] at hsame
  have hno : ∀ n : Nat, '_' ∉ n.repr.toList := fun n => by simp
  exact repr_injective (cut_at_last (hno _) (hno _) hsame).2

end

/-! ## An invocation -/

/-- No batch fails. -/
def Accepted (s : State V I) (l : Label V I) : Prop :=
  ∀ m, l = .inner (.manager m) → CheckpointManager.rejects s.tasks.manager m = false

/-- The tasks are the calls of the handler, in order. -/
structure Sequenced (handler : Handler V I) (s : State V I) : Prop where
  leads : Leads handler s.past s.handler
  answered : ∀ {name call r earlier}, ⟨.call name call, r⟩ :: earlier <:+ s.past →
    ∃ task, s.tasks.tasks[calls earlier]? = some task ∧ task.origin = .call name call ∧
      task.program = .ret r
  idle : s.awaited = none → s.tasks.tasks.length = calls s.past
  awaiting : ∀ t, s.awaited = some t → t = calls s.past ∧ s.tasks.tasks.length = t + 1 ∧
    ∃ name call k task, s.handler = .act (.call name call) k ∧ s.tasks.tasks[t]? = some task ∧
      task.origin = .call name call

section

variable {handler : Handler V I} {s s' : State V I} {l : Label V I} {tl : Tasks.Label V I}
  {root : ExecutionContext} {loaded : Table} {token : String} {tasks : Tasks.State V I}

theorem returned_kept (hm : Tasks.Move loaded s.tasks tl tasks) {t : Nat} {task : Tasks.Task V I}
    (ht : s.tasks.tasks[t]? = some task) {r : DurableResult (Output V)} (hr : task.program = .ret r) :
    ∃ task', tasks.tasks[t]? = some task' ∧ task'.origin = task.origin ∧ task'.program = .ret r := by
  obtain ⟨task', ht', hsame⟩ := hm.grows.kept t task ht
  obtain ⟨moved, hmoved, hadvances⟩ := hm.advances ht
  obtain rfl := Option.some.inj (hmoved.symm.trans ht')
  cases hadvances with
  | idle hprogram _ _ => exact ⟨_, ht', hsame.origin, hprogram.trans hr⟩
  | answered hprogram _ _ _ =>
    rw [hr] at hprogram
    cases hprogram

/-- All calls have returned when the handler makes the next one. -/
theorem Sequenced.returned (h : Sequenced handler s) (hidle : s.awaited = none) :
    ∀ task ∈ s.tasks.tasks, ∃ r, task.program = .ret r := by
  intro task hmem
  obtain ⟨t, ht⟩ := List.mem_iff_getElem?.mp hmem
  have hlt := (List.getElem?_eq_some_iff.mp ht).1
  rw [h.idle hidle] at hlt
  obtain ⟨name, call, r, earlier, hsuffix, rfl⟩ := exists_call_of_lt hlt
  obtain ⟨task', ht', -, hr⟩ := h.answered hsuffix
  obtain rfl := Option.some.inj (ht.symm.trans ht')
  exact ⟨r, hr⟩

/-- A step of the tasks that is no call of the handler. -/
theorem Sequenced.inner (h : Sequenced handler s) (hm : Tasks.Move loaded s.tasks tl tasks)
    (hnone : Tasks.started s.tasks tl = []) : Sequenced handler { s with tasks } := by
  have hlength : tasks.tasks.length = s.tasks.tasks.length := by
    rw [hm.grows.length, hnone]
    rfl
  constructor
  · exact h.leads
  · intro name call r earlier hsuffix
    obtain ⟨task, ht, horigin, hr⟩ := h.answered hsuffix
    obtain ⟨task', ht', horigin', hr'⟩ := returned_kept hm ht hr
    exact ⟨task', ht', horigin'.trans horigin, hr'⟩
  · exact fun hidle => hlength.trans (h.idle hidle)
  · intro t ht
    obtain ⟨hcalls, hlast, name, call, k, task, hhandler, htask, horigin⟩ := h.awaiting t ht
    obtain ⟨task', htask', hsame⟩ := hm.grows.kept t task htask
    exact ⟨hcalls, hlength.trans hlast, name, call, k, task', hhandler, htask',
      hsame.origin.trans horigin⟩

theorem Sequenced.call (h : Sequenced handler s) (hidle : s.awaited = none) {name : Option String}
    {call : DurableCall V I} {k : Reply (.call name call) → Handler V I}
    (hhandler : s.handler = .act (.call name call) k)
    (hstep : Tasks.step loaded s.tasks (.begin 0 name call) = some tasks) :
    Sequenced handler { s with tasks, awaited := some s.tasks.tasks.length } := by
  obtain ⟨ctx, hctx, rfl⟩ := Option.map_eq_some_iff.mp hstep
  constructor
  · exact h.leads
  · intro name call r earlier hsuffix
    obtain ⟨task, ht, horigin, hr⟩ := h.answered hsuffix
    have hlt := (List.getElem?_eq_some_iff.mp ht).1
    exact ⟨task, (List.getElem?_append_left hlt).trans ht, horigin, hr⟩
  · rintro ⟨⟩
  · rintro _ ⟨⟩
    exact ⟨h.idle hidle, by simp, name, call, k, _, hhandler, List.getElem?_concat_length, rfl⟩

theorem Sequenced.resume (h : Sequenced handler s) {t : Nat} (ht : s.awaited = some t)
    {name : Option String} {call : DurableCall V I} {k : Reply (.call name call) → Handler V I}
    (hhandler : s.handler = .act (.call name call) k) {r : DurableResult (Output V)}
    (hr : s.tasks.tasks[t]?.bind (·.program.returned) = some r) :
    Sequenced handler
      { s with handler := k r, awaited := none, past := ⟨.call name call, r⟩ :: s.past } := by
  obtain ⟨rfl, hlength, name', call', k', task, hhandler', htask, horigin⟩ := h.awaiting t ht
  rw [hhandler] at hhandler'
  cases hhandler'
  rw [htask, Option.bind_some] at hr
  have hleads := h.leads
  rw [hhandler] at hleads
  constructor
  · exact hleads.answer r
  · intro name' call' r' earlier hsuffix
    obtain heq | hsuffix := List.suffix_cons_iff.mp hsuffix
    · cases heq
      exact ⟨task, htask, horigin, Prog.eq_ret_of_returned hr⟩
    · exact h.answered hsuffix
  · exact fun _ => hlength
  · rintro _ ⟨⟩

theorem Sequenced.log (h : Sequenced handler s) (hidle : s.awaited = none) {level : DurableLogLevel}
    {message : String} {fields : Option (List (String × String))} {k : Unit → Handler V I}
    (hhandler : s.handler = .act (.log level message fields) k) {messages entries} :
    Sequenced handler { s with
      handler := k ()
      past := ⟨.log level message fields, ()⟩ :: s.past
      messages := messages
      entries := entries } := by
  have hleads := h.leads
  rw [hhandler] at hleads
  constructor
  · exact hleads.answer ()
  · intro name call r earlier hsuffix
    obtain heq | hsuffix := List.suffix_cons_iff.mp hsuffix
    · cases heq
    · exact h.answered hsuffix
  · exact h.idle
  · intro t ht
    rw [hidle] at ht
    cases ht

variable {input : Input} {modeAwareLogging : Bool}

theorem sequenced_new (input : Input) (root : ExecutionContext) (handler : Handler V I) :
    Sequenced handler (.new input root handler : State V I) where
  leads := .refl
  answered hsuffix := by cases List.suffix_nil.mp hsuffix
  idle _ := rfl
  awaiting t ht := by cases ht

/-- A step that is no call of the handler is no call. -/
theorem sequential_inner (hordered : Tasks.Ordered root s.tasks) (hcalls : callsRoot tl = false)
    (haccepted : Accepted s (.inner tl)) (hstep : Tasks.step loaded s.tasks tl = some tasks) :
    Tasks.Sequential s.tasks tl ∧ ∀ c name call, tl ≠ .begin c name call := by
  have hbegin : ∀ c name call, tl ≠ .begin c name call := by
    rintro c name call rfl
    obtain ⟨ctx, hctx, -⟩ := Option.map_eq_some_iff.mp hstep
    rw [hordered.contexts] at hctx
    have hlt := (List.getElem?_eq_some_iff.mp hctx).1
    obtain rfl : c = 0 := by simpa using hlt
    cases hcalls
  constructor
  · constructor
    · exact fun c name call heq => absurd heq (hbegin c name call)
    · rintro m rfl
      exact haccepted m rfl
  · exact hbegin

theorem sequenced_of_reachableBy (hstraight : Straight handler)
    (h : (machine input root modeAwareLogging handler).ReachableBy Accepted s) :
    Sequenced handler s ∧
      (Tasks.machine input.token input.stepData root).ReachableBy Tasks.Sequential s.tasks := by
  apply h.invariant (I := fun s => Sequenced handler s ∧
    (Tasks.machine input.token input.stepData root).ReachableBy Tasks.Sequential s.tasks)
  · rintro _ ⟨hroot, rfl⟩
    exact ⟨sequenced_new .., .init ⟨hroot, _, rfl⟩⟩
  · rintro s l s' - ⟨hs, htasks⟩ hl hstep
    have hordered := Tasks.ordered_of_reachableBy htasks
    cases l with
    | inner tl =>
      change step root modeAwareLogging input.stepData s (.inner tl) = some s' at hstep
      simp only [step, Option.ite_none_left_eq_some] at hstep
      obtain ⟨hcalls, hstep⟩ := hstep
      obtain ⟨tasks, htl, rfl⟩ := Option.map_eq_some_iff.mp hstep
      obtain ⟨hsequential, hbegin⟩ := sequential_inner hordered (by simpa using hcalls) hl htl
      exact ⟨hs.inner (Tasks.move_of_step htl) (hordered.started_eq_nil htasks hbegin),
        htasks.step hsequential htl⟩
    | log locked =>
      change step root modeAwareLogging input.stepData s (.log locked) = some s' at hstep
      simp only [step] at hstep
      split at hstep
      · rename_i level message fields k hhandler
        obtain rfl := Option.some.inj hstep
        have hidle : s.awaited = none := by
          cases hawaited : s.awaited with
          | none => rfl
          | some t =>
            obtain ⟨-, -, _, _, _, _, hcall, -⟩ := hs.awaiting t hawaited
            rw [hhandler] at hcall
            cases hcall
        exact ⟨hs.log hidle hhandler, htasks⟩
      · cases hstep
    | call =>
      change step root modeAwareLogging input.stepData s .call = some s' at hstep
      simp only [step] at hstep
      split at hstep
      · rename_i name call k hidle hhandler
        obtain ⟨tasks, htl, rfl⟩ := Option.map_eq_some_iff.mp hstep
        have hplain := hstraight.leads hs.leads
        rw [hhandler] at hplain
        refine ⟨hs.call hidle hhandler htl, htasks.step (l := .begin 0 name call) ⟨?_, ?_⟩ htl⟩
        · rintro c name' call' heq
          cases heq
          exact ⟨hplain.1.1, hs.returned hidle⟩
        · rintro m ⟨⟩
      · cases hstep
    | resume =>
      change step root modeAwareLogging input.stepData s .resume = some s' at hstep
      simp only [step] at hstep
      split at hstep
      · rename_i t name call k hawaited hhandler
        obtain ⟨r, hr, rfl⟩ := Option.map_eq_some_iff.mp hstep
        exact ⟨hs.resume hawaited hhandler hr, htasks⟩
      · cases hstep

/-- Where the handler calls the operation of a task. -/
theorem Sequenced.asked (h : Sequenced handler s) {t : Nat}
    {task : Tasks.Task V I} (ht : s.tasks.tasks[t]? = some task) :
    ∃ past name call k, past <:+ s.past ∧ Leads handler past (.act (.call name call) k) ∧
      calls past = t ∧ task.origin = .call name call := by
  have hawaited : t = calls s.past → ∃ past name call k, past <:+ s.past ∧
      Leads handler past (.act (.call name call) k) ∧ calls past = t ∧
        task.origin = .call name call := by
    rintro rfl
    have hlt := (List.getElem?_eq_some_iff.mp ht).1
    cases hcase : s.awaited with
    | none =>
      rw [h.idle hcase] at hlt
      omega
    | some t' =>
      obtain ⟨rfl, -, name, call, k, task', hhandler, ht', horigin⟩ := h.awaiting t' hcase
      obtain rfl := Option.some.inj (ht.symm.trans ht')
      have hleads := h.leads
      rw [hhandler] at hleads
      exact ⟨s.past, name, call, k, List.suffix_refl _, hleads, rfl, horigin⟩
  by_cases hlt : t < calls s.past
  · obtain ⟨name, call, r, earlier, ⟨later, hpast⟩, rfl⟩ := exists_call_of_lt hlt
    obtain ⟨task', ht', horigin, -⟩ := h.answered ⟨later, hpast⟩
    obtain rfl := Option.some.inj (ht.symm.trans ht')
    have hleads := h.leads
    rw [← hpast] at hleads
    obtain ⟨q, hq⟩ := hleads.earlier
    obtain ⟨k, hk, -⟩ := Prog.leads_cons hq
    refine ⟨earlier, name, call, k, ?_, hk, rfl, horigin⟩
    exact (List.suffix_cons _ _).trans ⟨later, hpast⟩
  · apply hawaited
    have hlast := (List.getElem?_eq_some_iff.mp ht).1
    cases hcase : s.awaited with
    | none =>
      rw [h.idle hcase] at hlast
      omega
    | some t' =>
      obtain ⟨rfl, hlength, -⟩ := h.awaiting t' hcase
      omega

theorem root_of_reachableBy {allow : State V I → Label V I → Prop}
    (h : (machine input root modeAwareLogging handler).ReachableBy allow s) :
    root.currentParentId = none := by
  apply h.invariant (I := fun _ => root.currentParentId = none)
  · exact fun _ hs => hs.1
  · exact fun _ _ _ _ hs _ _ => hs

theorem Sequenced.apart (h : Sequenced handler s) (hroot : root.currentParentId = none)
    (hcollisionless : Collisionless root handler) : Tasks.Apart root s.tasks := by
  intro j task hj t other ht hne hid
  obtain ⟨past, name, call, k, -, hleads, rfl, horigin⟩ := h.asked hj
  obtain ⟨past', name', call', k', -, hleads', rfl, horigin'⟩ := h.asked ht
  rw [horigin, horigin'] at hid
  exact hne (hcollisionless.number_eq hroot ⟨past', call', k', hleads', rfl⟩
    ⟨past, call, k, hleads, rfl⟩ hid)

end

/-! ## What the records say -/

/-- The replies that the records of the service give. -/
def Recalls (root : ExecutionContext) (t : Table) (past : Past V I) : (r : Request V I) → Reply r → Prop
  | .log _ _ _, _ => True
  | .call name call, r =>
    ∃ out, r = .ok out ∧ call.Says root name (calls past) (t (callId root name (calls past))) out

/-- A final record stays as it is, and one of a step is of a step afterwards. -/
structure Carries (t t' : Table) : Prop where
  final : ∀ id, t.terminal id = true → t' id = t id
  step : ∀ id old op, t id = some old → old.operationType = .step → t' id = some op →
    op.operationType = .step

/-- Each record of an operation the handler may call is of the operation that it calls there, as
the records say. -/
def Grounded (root : ExecutionContext) (handler : Handler V I) (t : Table) : Prop :=
  ∀ name n op, Asked handler name n → t (callId root name n) = some op →
    ∃ past name' call k, Leads handler past (.act (.call name' call) k) ∧ calls past = n ∧
      Told (Recalls root t) past ∧ (call.operationType = .step → op.operationType = .step)

section

variable {root : ExecutionContext} {handler : Handler V I} {t t' : Table} {past past' : Past V I}
  {name name' : Option String} {call call' : DurableCall V I}

theorem recalls_single (past : Past V I) (r : Request V I) (a a' : Reply r)
    (h : Recalls root t past r a) (h' : Recalls root t past r a') : a = a' := by
  cases r with
  | log _ _ _ => rfl
  | call name call =>
    obtain ⟨out, rfl, hout⟩ := h
    obtain ⟨out', rfl, hout'⟩ := h'
    rw [hout.unique hout']

theorem Recalls.carried (hcarries : Carries t t') (past : Past V I) (r : Request V I) (a : Reply r)
    (h : Recalls root t past r a) : Recalls root t' past r a := by
  cases r with
  | log _ _ _ => trivial
  | call name call =>
    obtain ⟨out, ha, hout⟩ := h
    exact ⟨out, ha, hout.kept (hcarries.final _)⟩

/-- The records tell which operation is called after so many others. -/
theorem called_once {k : Reply (.call name call) → Handler V I}
    {k' : Reply (.call name' call') → Handler V I}
    (h : Leads handler past (.act (.call name call) k))
    (h' : Leads handler past' (.act (.call name' call') k')) (htold : Told (Recalls root t) past)
    (htold' : Told (Recalls root t) past') (hcalls : calls past = calls past') : past = past' := by
  have hlonger : ∀ {past later name call} {k : Reply (.call name call) → Handler V I} {q : Handler V I},
      Leads handler past (.act (.call name call) k) → Leads handler (later ++ past) q →
      calls past = calls (later ++ past) → later = [] := by
    intro past later name call k q hleads hleads' hsame
    by_contra hlater
    obtain ⟨rest, a, rfl⟩ := hleads.next hleads' hlater
    rw [calls_append, calls_append] at hsame
    have hone : calls [(⟨.call name call, a⟩ : (r : Request V I) × Reply r)] = 1 := rfl
    omega
  obtain ⟨later, rfl⟩ | ⟨later, rfl⟩ := h.comparable recalls_single h' htold htold'
  · rw [hlonger h h' hcalls]
    rfl
  · rw [hlonger h' h hcalls.symm]
    rfl

end

/-- A state of an invocation of the handler. -/
structure Within (input : Input) (root : ExecutionContext) (handler : Handler V I) (s : State V I) :
    Prop where
  sequenced : Sequenced handler s
  tasks : (Tasks.machine input.token input.stepData root).ReachableBy Tasks.Sequential s.tasks
  apart : Tasks.Apart root s.tasks

section

variable {root : ExecutionContext} {handler : Handler V I} {input : Input} {modeAwareLogging : Bool}
  {s : State V I} {name : Option String} {call : DurableCall V I} {past : Past V I}

theorem within_of_reachableBy (hstraight : Straight handler) (hcollisionless : Collisionless root handler)
    (h : (machine input root modeAwareLogging handler).ReachableBy Accepted s) :
    Within input root handler s := by
  obtain ⟨hs, htasks⟩ := sequenced_of_reachableBy hstraight h
  exact ⟨hs, htasks, hs.apart (root_of_reachableBy h) hcollisionless⟩

namespace Within

theorem carries (h : Within input root handler s) : Carries input.stepData s.tasks.backend where
  final _ hterminal := Tasks.recorded_final h.tasks h.apart hterminal
  step _ _ _ hold htype hop := Tasks.recorded_step h.tasks h.apart hold htype hop

/-- An operation whose record says what it returns returns that. -/
theorem returns (h : Within input root handler s) {r : DurableResult (Output V)}
    (hsuffix : ⟨.call name call, r⟩ :: past <:+ s.past) {out : Output V}
    (hout : call.Says root name (calls past) (input.stepData (callId root name (calls past))) out) :
    r = .ok out := by
  obtain ⟨task, ht, horigin, hr⟩ := h.sequenced.answered hsuffix
  exact Tasks.value_returned h.tasks ht horigin hr hout

/-- What the handler has come through. -/
theorem leads (h : Within input root handler s) (hsuffix : past <:+ s.past) :
    ∃ q, Leads handler past q := by
  obtain ⟨later, hpast⟩ := hsuffix
  have hleads := h.sequenced.leads
  rw [← hpast] at hleads
  exact hleads.earlier

/-- All that has been returned is in the records now. -/
theorem told (h : Within input root handler s) (hstraight : Straight handler)
    (hgrounded : Grounded root handler input.stepData) (hsuffix : past <:+ s.past)
    (hclean : Clean past) : Told (Recalls root s.tasks.backend) past := by
  induction past with
  | nil => trivial
  | cons event past ih =>
    obtain ⟨request, r⟩ := event
    have hbefore := ih ((List.suffix_cons _ _).trans hsuffix)
      fun event hmem => hclean event (List.mem_cons_of_mem _ hmem)
    refine ⟨?_, hbefore⟩
    cases request with
    | log _ _ _ => trivial
    | call name call =>
      cases r with
      | error e => exact absurd trivial (hclean _ List.mem_cons_self)
      | ok out =>
        obtain ⟨q, hq⟩ := h.leads hsuffix
        obtain ⟨k, hk, -⟩ := Prog.leads_cons hq
        obtain ⟨task, ht, horigin, hr⟩ := h.sequenced.answered hsuffix
        have hplain := (hstraight.leads hk).1
        refine ⟨out, rfl, Tasks.value_recorded h.tasks h.apart ht horigin hplain.2 ?_ hr⟩
        intro htype op hop
        obtain ⟨past', name', call', k', hk', hcalls, htold, hstep⟩ :=
          hgrounded name (calls past) op ⟨past, call, k, hk, rfl⟩ hop
        have htold' := htold.mono (Recalls.carried h.carries)
        obtain rfl := called_once hk' hk htold' hbefore hcalls
        cases hk.unique hk'
        exact hstep htype

/-- A record that the service has got since is of the operation called. -/
theorem grounded (h : Within input root handler s) (hstraight : Straight handler)
    (hroot : root.currentParentId = none) (hcollisionless : Collisionless root handler)
    (hgrounded : Grounded root handler input.stepData) :
    Grounded root handler s.tasks.backend := by
  intro name n op hasked hop
  cases hold : input.stepData (callId root name n) with
  | some old =>
    obtain ⟨past, name', call, k, hk, hcalls, htold, hstep⟩ := hgrounded name n old hasked hold
    exact ⟨past, name', call, k, hk, hcalls, htold.mono (Recalls.carried h.carries),
      fun htype => h.carries.step _ _ _ hold (hstep htype) hop⟩
  | none =>
    obtain ⟨-, j, task, name', call, hrecord⟩ := Tasks.recorded_new h.tasks h.apart hold hop
    obtain ⟨past, name'', call', k, hsuffix, hk, hcalls, horigin⟩ := h.sequenced.asked hrecord.mem
    cases hrecord.origin.symm.trans horigin
    have hn := hcollisionless.number_eq hroot ⟨past, call, k, hk, hcalls⟩ hasked hrecord.id
    exact ⟨past, name', call, k, hk, hcalls.trans hn,
      h.told hstraight hgrounded hsuffix (hstraight.clean hk), hrecord.operationType⟩

/-- Whatever the records say has happened, the invocation does as well, or will do. -/
theorem comparable (h : Within input root handler s) (hstraight : Straight handler)
    (hgrounded : Grounded root handler input.stepData) {q : Handler V I}
    (hleads : Leads handler past q) (htold : Told (Recalls root input.stepData) past) :
    s.past <:+ past ∨ past <:+ s.past := by
  have hnow := htold.mono (Recalls.carried h.carries)
  by_cases hclean : Clean s.past
  · have hmine := h.told hstraight hgrounded (List.suffix_refl _) hclean
    exact h.sequenced.leads.comparable recalls_single hleads hmine hnow
  cases hpast : s.past with
  | nil =>
    left
    exact List.nil_suffix ..
  | cons event before =>
    obtain ⟨request, a⟩ := event
    have hsuffix : ⟨request, a⟩ :: before <:+ s.past := by rw [hpast]
    obtain ⟨q', hq'⟩ := h.leads hsuffix
    obtain ⟨k, hk, -⟩ := Prog.leads_cons hq'
    have hbefore := hstraight.clean hk
    have hmine := h.told hstraight hgrounded ((List.suffix_cons _ _).trans hsuffix) hbefore
    obtain ⟨later, rfl⟩ | hearlier := hk.comparable recalls_single hleads hmine hnow
    · by_cases hlater : later = []
      · subst hlater
        exact Or.inr (List.suffix_cons _ _)
      · -- the records say what the operation returned, so it has not failed
        obtain ⟨rest, a', rfl⟩ := hk.next hleads hlater
        rw [List.append_assoc] at htold
        have hrecalled := htold.event
        refine absurd (fun event hmem => ?_) hclean
        rw [hpast] at hmem
        obtain rfl | hmem := List.mem_cons.mp hmem
        · cases request with
          | log _ _ _ => exact fun hfailed => hfailed
          | call name call =>
            obtain ⟨out, -, hout⟩ := hrecalled
            obtain rfl := h.returns hsuffix hout
            exact fun hfailed => hfailed
        · exact hbefore event hmem
    · exact Or.inr (hearlier.trans (List.suffix_cons _ _))

end Within

theorem follows_of_advances {t t' : Table} (h : Relation.ReflTransGen Advances t t') (id : String) :
    Backend.Follows (t id) [] (t' id) := by
  induction h with
  | refl => exact .refl
  | tail _ hstep ih =>
    obtain ⟨event, hevent⟩ := hstep
    exact ih.advance hevent

/-- The service goes on serving every record it has. -/
theorem Within.served (h : Within input root handler s) {operations : List Operation}
    (hserves : Serves ⟨input, s⟩ operations) {id : String} {op : Operation}
    (hop : s.tasks.backend id = some op) : ∃ op' ∈ operations, op'.id = id := by
  cases hold : input.stepData id with
  | none =>
    obtain ⟨⟨u, hu, rfl⟩, -⟩ := Tasks.recorded_new h.tasks h.apart hold hop
    exact hserves.acknowledged u hu
  | some old =>
    obtain hnone | ⟨loaded, hmem, rfl, -⟩ := Table.insertAll_apply (fun _ => none) input.operations id
    · cases hold.symm.trans hnone
    · exact hserves.loaded loaded hmem

/-- The records that the next invocation loads are those of the service. -/
theorem Within.serves (h : Within input root handler s) {next : Input}
    (hserves : Serves ⟨input, s⟩ next.operations) : Carries s.tasks.backend next.stepData ∧
      ∀ id op, next.stepData id = some op → ∃ old, s.tasks.backend id = some old := by
  obtain ⟨t, hadvances, hrecords⟩ := hserves.records
  have hfollows := follows_of_advances hadvances
  have hold : ∀ id op, t id = some op → ∃ old, s.tasks.backend id = some old := by
    intro id op hop
    by_contra hnone
    rw [not_exists, ← Option.eq_none_iff_forall_ne_some] at hnone
    have hnow := hfollows id
    rw [show s.tasks.backend id = none from hnone, hop] at hnow
    cases nothing_of_follows hnow rfl
  have hsame : next.stepData = t := by
    funext id
    have hfind : next.stepData id = (next.operations.reverse.find? (·.id = id)).or none :=
      Table.insertAll_eq_find? _ _ id
    rw [Option.or_none] at hfind
    cases hcase : next.operations.reverse.find? (·.id = id) with
    | some op =>
      have hid : op.id = id := by simpa using List.find?_some hcase
      have hmem := List.mem_reverse.mp (List.mem_of_find?_eq_some hcase)
      rw [hfind, hcase, ← hid, hrecords op hmem]
    | none =>
      rw [hfind, hcase]
      cases hop : t id with
      | none => rfl
      | some op =>
        obtain ⟨old, hbackend⟩ := hold id op hop
        obtain ⟨op', hmem, hid⟩ := h.served hserves hbackend
        have hnot := List.find?_eq_none.mp hcase op' (List.mem_reverse.mpr hmem)
        simp [hid] at hnot
  rw [hsame]
  refine ⟨⟨fun id hterminal => final_of_follows (hfollows id) hterminal, ?_⟩, hold⟩
  intro id old op hbackend htype hop
  obtain ⟨op', hop', htype'⟩ := step_of_follows (hfollows id) hbackend htype
  obtain rfl := Option.some.inj (hop.symm.trans hop')
  exact htype'

theorem Grounded.carried {t t' : Table} (h : Grounded root handler t) (hcarries : Carries t t')
    (hold : ∀ id op, t' id = some op → ∃ old, t id = some old) : Grounded root handler t' := by
  intro name n op hasked hop
  obtain ⟨old, hbefore⟩ := hold _ op hop
  obtain ⟨past, name', call, k, hk, hcalls, htold, hstep⟩ := h name n old hasked hbefore
  exact ⟨past, name', call, k, hk, hcalls, htold.mono (Recalls.carried hcarries),
    fun htype => hcarries.step _ _ _ hbefore (hstep htype) hop⟩

end

/-! ## An execution -/

/-- The later invocation goes the way of the earlier one, as far as that has met no error. It runs no
closure whose value the handler has got; what the handler has got is at hand. If the handler has
returned a value, nothing it awaits suspends, and it returns that again. -/
structure Replays (later earlier : Invocation V I) : Prop where
  past : ∀ past, past <:+ earlier.last.past → Clean past →
    later.last.past <:+ past ∨ past <:+ later.last.past
  closures : ∀ name call out before task, ⟨.call name call, .ok out⟩ :: before <:+ earlier.last.past →
    call.operationType = .step → later.last.tasks.tasks[calls before]? = some task →
      task.origin = .call name call ∧ ∀ event ∈ task.trace, event.1.runsClosure = false
  answered : ∀ name call out before task, ⟨.call name call, .ok out⟩ :: before <:+ earlier.last.past →
    later.last.tasks.tasks[calls before]? = some task →
      task.origin = .call name call ∧ Tasks.AtHand later.input.stepData later.last.tasks task out
  goesOn : ∀ v, earlier.last.handler = .ret (.ok v) → ∀ task ∈ later.last.tasks.tasks,
    ∃ out, Tasks.AtHand later.input.stepData later.last.tasks task out
  result : ∀ v r, earlier.last.handler = .ret (.ok v) → later.last.handler = .ret r → r = .ok v

/-- The records say what the handler has come through, as far as it has met no error. -/
structure Remembered (root : ExecutionContext) (handler : Handler V I) (t : Table)
    (inv : Invocation V I) : Prop where
  leads : Leads handler inv.last.past inv.last.handler
  told : ∀ past, past <:+ inv.last.past → Clean past → Told (Recalls root t) past

/-- The record of the execution is none of an operation. -/
def ExecutionApart (root : ExecutionContext) (handler : Handler V I)
    (invocations : List (Invocation V I)) : Prop :=
  ∀ inv ∈ invocations, ∀ op ∈ inv.input.operations, op.operationType = .execution →
    ∀ name n, Asked handler name n → callId root name n ≠ op.id

section

variable {root : ExecutionContext} {handler : Handler V I} {input : Input} {modeAwareLogging : Bool}
  {s : State V I} {inv : Invocation V I} {invocations : List (Invocation V I)}

theorem Remembered.earlier {t : Table} (h : Remembered root handler t inv) {past : Past V I}
    (hsuffix : past <:+ inv.last.past) : ∃ q, Leads handler past q := by
  obtain ⟨later, hpast⟩ := hsuffix
  have hleads := h.leads
  rw [← hpast] at hleads
  exact hleads.earlier

theorem Remembered.carried {t t' : Table} (h : Remembered root handler t inv)
    (hcarries : Carries t t') : Remembered root handler t' inv where
  leads := h.leads
  told past hsuffix hclean := (h.told past hsuffix hclean).mono (Recalls.carried hcarries)

/-- The later invocation calls the same operation there, whose record says what it returned. -/
theorem Remembered.recorded (h : Remembered root handler input.stepData inv)
    (hstraight : Straight handler) (hw : Within input root handler s)
    (hgrounded : Grounded root handler input.stepData) {name : Option String} {call : DurableCall V I}
    {out : Output V} {before : Past V I} {task : Tasks.Task V I}
    (hsuffix : ⟨.call name call, .ok out⟩ :: before <:+ inv.last.past)
    (htask : s.tasks.tasks[calls before]? = some task) :
    task.origin = .call name call ∧
      call.Says root name (calls before) (input.stepData (callId root name (calls before))) out := by
  obtain ⟨q, hq⟩ := h.earlier hsuffix
  obtain ⟨k, hk, -⟩ := Prog.leads_cons hq
  have hclean : Clean (⟨.call name call, .ok out⟩ :: before) := by
    intro event hmem
    obtain rfl | hmem := List.mem_cons.mp hmem
    · exact fun hfailed => hfailed
    · exact hstraight.clean hk event hmem
  obtain ⟨⟨_, ⟨⟩, hout⟩, htold⟩ := h.told _ hsuffix hclean
  obtain ⟨past, name', call', k', hpast, hk', hcalls, horigin⟩ := hw.sequenced.asked htask
  have hmine := hw.told hstraight hgrounded hpast (hstraight.clean hk')
  obtain rfl := called_once hk' hk hmine (htold.mono (Recalls.carried hw.carries)) hcalls
  cases hk.unique hk'
  exact ⟨horigin, hout⟩

/-- A closure is at rest once its value is in the records. -/
theorem Remembered.closures (h : Remembered root handler input.stepData inv)
    (hstraight : Straight handler) (hw : Within input root handler s)
    (hgrounded : Grounded root handler input.stepData) {name : Option String} {call : DurableCall V I}
    {out : Output V} {before : Past V I} {task : Tasks.Task V I}
    (hsuffix : ⟨.call name call, .ok out⟩ :: before <:+ inv.last.past)
    (htype : call.operationType = .step) (htask : s.tasks.tasks[calls before]? = some task) :
    task.origin = .call name call ∧ ∀ event ∈ task.trace, event.1.runsClosure = false := by
  obtain ⟨horigin, hout⟩ := h.recorded hstraight hw hgrounded hsuffix htask
  refine ⟨horigin, Tasks.closures_rest hw.tasks hw.apart htask horigin htype ?_⟩
  obtain ⟨duration, rfl, -⟩ | ⟨op, hop, hstatus⟩ := hout.succeeded
  · cases htype
  · simp [Table.terminal, hop, hstatus, OperationStatus.isTerminal]

theorem Remembered.answered (h : Remembered root handler input.stepData inv)
    (hstraight : Straight handler) (hw : Within input root handler s)
    (hgrounded : Grounded root handler input.stepData) {name : Option String} {call : DurableCall V I}
    {out : Output V} {before : Past V I} {task : Tasks.Task V I}
    (hsuffix : ⟨.call name call, .ok out⟩ :: before <:+ inv.last.past)
    (htask : s.tasks.tasks[calls before]? = some task) :
    task.origin = .call name call ∧ Tasks.AtHand input.stepData s.tasks task out := by
  obtain ⟨horigin, hout⟩ := h.recorded hstraight hw hgrounded hsuffix htask
  exact ⟨horigin, Tasks.value_atHand hw.tasks htask horigin hout⟩

/-- Once the handler has returned a value, no later invocation goes further. -/
theorem Remembered.last (h : Remembered root handler input.stepData inv)
    (hstraight : Straight handler) (hw : Within input root handler s)
    (hgrounded : Grounded root handler input.stepData) {v : V}
    (hv : inv.last.handler = .ret (.ok v)) : s.past <:+ inv.last.past := by
  have hearlier := h.leads
  rw [hv] at hearlier
  have htold := h.told _ (List.suffix_refl _) (hstraight.clean_of_ok hearlier)
  obtain hsuffix | ⟨more, hmore⟩ := hw.comparable hstraight hgrounded hearlier htold
  · exact hsuffix
  · have hlater := hw.sequenced.leads
    rw [← hmore] at hlater
    rw [← hmore, hearlier.last hlater]
    exact List.suffix_refl _

theorem Remembered.goesOn (h : Remembered root handler input.stepData inv)
    (hstraight : Straight handler) (hw : Within input root handler s)
    (hgrounded : Grounded root handler input.stepData) {v : V}
    (hv : inv.last.handler = .ret (.ok v)) {task : Tasks.Task V I} (hmem : task ∈ s.tasks.tasks) :
    ∃ out, Tasks.AtHand input.stepData s.tasks task out := by
  obtain ⟨t, htask⟩ := List.mem_iff_getElem?.mp hmem
  obtain ⟨past, name, call, k, hpast, hk, rfl, -⟩ := hw.sequenced.asked htask
  have hearlier := h.leads
  rw [hv] at hearlier
  obtain ⟨later, hlater⟩ := hpast.trans (h.last hstraight hw hgrounded hv)
  have hleads := hearlier
  rw [← hlater] at hleads
  have hne : later ≠ [] := by
    rintro rfl
    cases hk.unique hleads
  obtain ⟨rest, a, rfl⟩ := hk.next hleads hne
  have hsuffix : ⟨.call name call, a⟩ :: past <:+ inv.last.past := ⟨rest, by rw [← hlater]; simp⟩
  cases a with
  | error e =>
    exact absurd trivial (hstraight.clean_of_ok hearlier _ (hsuffix.subset List.mem_cons_self))
  | ok out => exact ⟨out, (h.answered hstraight hw hgrounded hsuffix htask).2⟩

theorem Remembered.replays (h : Remembered root handler input.stepData inv)
    (hstraight : Straight handler) (hw : Within input root handler s)
    (hgrounded : Grounded root handler input.stepData) : Replays ⟨input, s⟩ inv where
  past past hsuffix hclean := by
    obtain ⟨q, hq⟩ := h.earlier hsuffix
    exact hw.comparable hstraight hgrounded hq (h.told past hsuffix hclean)
  closures _ _ _ _ _ hsuffix htype htask := h.closures hstraight hw hgrounded hsuffix htype htask
  answered _ _ _ _ _ hsuffix htask := h.answered hstraight hw hgrounded hsuffix htask
  goesOn _ hv _ hmem := h.goesOn hstraight hw hgrounded hv hmem
  result v r hv hr := by
    have hearlier := h.leads
    have hlater := hw.sequenced.leads
    rw [hv] at hearlier
    rw [show s.handler = .ret r from hr] at hlater
    obtain ⟨more, hmore⟩ := h.last hstraight hw hgrounded hv
    rw [← hmore] at hearlier
    rw [hlater.last hearlier] at hearlier
    cases hearlier.unique hlater
    rfl

theorem grounded_first {op : Operation} (hops : input.operations = [op])
    (happart : ∀ name n, Asked handler name n → callId root name n ≠ op.id) :
    Grounded root handler input.stepData := by
  intro name n op' hasked hop
  obtain hnone | ⟨loaded, hmem, hid, -⟩ :=
    Table.insertAll_apply (fun _ => none) input.operations (callId root name n)
  · cases hop.symm.trans hnone
  · rw [hops] at hmem
    obtain rfl := List.mem_singleton.mp hmem
    exact absurd hid.symm (happart name n hasked)

theorem Within.remembered (h : Within input root handler s) (hstraight : Straight handler)
    (hgrounded : Grounded root handler input.stepData) :
    Remembered root handler s.tasks.backend ⟨input, s⟩ :=
  ⟨h.sequenced.leads, fun _ hsuffix hclean => h.told hstraight hgrounded hsuffix hclean⟩

/-- In an execution, every invocation goes the way of those before it. -/
theorem invocations_replay (hstraight : Straight handler) (hcollisionless : Collisionless root handler)
    (hexecution : ExecutionApart root handler invocations)
    (h : Run root modeAwareLogging handler (fun _ _ => Accepted) invocations) :
    invocations.Pairwise Replays := by
  suffices hall : ∀ inv rest, invocations = inv :: rest → Within inv.input root handler inv.last ∧
      Grounded root handler inv.last.tasks.backend ∧
      (∀ inv' ∈ invocations, Remembered root handler inv.last.tasks.backend inv') ∧
      invocations.Pairwise Replays by
    cases h with
    | first _ _ _ => exact (hall _ _ rfl).2.2.2
    | next _ _ _ => exact (hall _ _ rfl).2.2.2
  induction h with
  | @first input op s hops htype hs =>
    rintro _ _ ⟨⟩
    have hw := within_of_reachableBy hstraight hcollisionless hs
    have hgrounded := grounded_first hops (hexecution _ List.mem_cons_self op (by simp [hops]) htype)
    refine ⟨hw, hw.grounded hstraight (root_of_reachableBy hs) hcollisionless hgrounded, ?_,
      List.pairwise_singleton _ _⟩
    intro inv' hmem
    obtain rfl := List.mem_singleton.mp hmem
    exact hw.remembered hstraight hgrounded
  | @next last earlier input s _ hserves hs ih =>
    rintro _ _ ⟨⟩
    obtain ⟨hlast, hbackend, hremembered, hpairwise⟩ :=
      ih (fun inv hmem => hexecution inv (List.mem_cons_of_mem _ hmem)) last earlier rfl
    obtain ⟨hcarries, hold⟩ := hlast.serves hserves
    have hw := within_of_reachableBy hstraight hcollisionless hs
    have hgrounded := hbackend.carried hcarries hold
    have hloaded : ∀ inv' ∈ last :: earlier, Remembered root handler input.stepData inv' :=
      fun inv' hmem => (hremembered inv' hmem).carried hcarries
    refine ⟨hw, hw.grounded hstraight (root_of_reachableBy hs) hcollisionless hgrounded, ?_,
      List.pairwise_cons.mpr ⟨fun inv' hmem => ?_, hpairwise⟩⟩
    · intro inv' hmem
      obtain rfl | hmem := List.mem_cons.mp hmem
      · exact hw.remembered hstraight hgrounded
      · exact (hloaded inv' hmem).carried hw.carries
    · exact (hloaded inv' hmem).replays hstraight hw hgrounded

end

/-! ### A wait, and the value of a step -/

/-- The await of an operation, with `?`. -/
def tryAwait (name : Option String) (call : DurableCall Nat Nat) (rest : Output Nat → Handler Nat Nat) :
    Handler Nat Nat :=
  .act (.call name call) fun
    | .ok out => rest out
    | .error e => .ret (.error e)

open Tasks (quick asked queued returnsStep tally tally_undoes tally_alwaysEncodes)

def returnValue : Output Nat → Handler Nat Nat
  | .value v => .ret (.ok v)
  | _ => .ret (.ok 0)

def waitThenStep : Handler Nat Nat :=
  tryAwait none (.wait (.ofSeconds 1)) fun _ => tryAwait (some "a") (.step { codec := tally }) returnValue

/-- The wait is over, and the step runs. -/
def valueRun : List (Label Nat Nat) :=
  let inner : List (Tasks.Label Nat Nat) := [quick 1, quick 1, quick 1] ++ queued 1 0 ++
    [.manager (.maybeStart 0 0)] ++ (CheckpointManager.serveLabels 0).map .manager ++
    [.resume 1, quick 1, returnsStep 1 7] ++ asked 1 1 0 ++ Tasks.served 1 1 0
  resumedRun ++ .call :: inner.map .inner ++ [.resume]

/-- Both are over. -/
def replayRun : List (Label Nat Nat) :=
  resumedRun ++ [.call, .inner (quick 1), .inner (quick 1), .resume]

def stepRecord : Operation :=
  { id := "a_1", name := some "a", operationType := .step, subType := some "Step",
    status := .succeeded, stepDetails := some { result := some "1111111" } }

def lastInput : Input := ⟨"t2", [executionRecord, waitRecord .succeeded, stepRecord]⟩

def acceptsAll (s : State Nat Nat) : Label Nat Nat → Bool
  | .inner (.manager m) => !CheckpointManager.rejects s.tasks.manager m
  | _ => true

theorem acceptsAll_sound {s : State Nat Nat} {l : Label Nat Nat} (h : acceptsAll s l = true) :
    Accepted s l := by
  rintro m rfl
  simpa [acceptsAll] using h

theorem tryAwait_straight {name : Option String} {call : DurableCall Nat Nat}
    {rest : Output Nat → Handler Nat Nat} (hleaf : call.isLeaf = true) (hfaithful : call.Faithful)
    (hrest : ∀ out, Straight (rest out)) : Straight (tryAwait name call rest) := by
  refine ⟨⟨hleaf, hfaithful⟩, fun a => ?_⟩
  cases a with
  | ok out => exact ⟨hrest out, fun hfailed => hfailed.elim⟩
  | error e => exact ⟨trivial, fun _ => ⟨e, rfl⟩⟩

theorem waitThenStep_straight : Straight waitThenStep := by
  apply tryAwait_straight rfl (fun codec hcodec => by cases hcodec)
  intro _
  apply tryAwait_straight rfl
  · intro codec hcodec
    cases hcodec
    exact ⟨tally_undoes, tally_alwaysEncodes⟩
  · intro out
    cases out <;> trivial

/-- No ID has the form of the execution's. -/
theorem execution_apart {op : Operation}
    (hop : op ∈ [executionRecord, waitRecord .succeeded, stepRecord])
    (htype : op.operationType = .execution) (name : Option String) (n : Nat) :
    callId rootContext name n ≠ op.id := by
  simp only [List.mem_cons, List.not_mem_nil, or_false] at hop
  obtain rfl | rfl | rfl := hop
  · intro hid
    have hmem : '_' ∈ (rootContext.operationId name n).toList := by
      rw [rootContext.operationId_of_root rfl]
      simp
    rw [show rootContext.operationId name n = executionRecord.id from hid] at hmem
    exact absurd hmem (by decide)
  · cases htype
  · cases htype

/-- What the service has, and what the handler has returned. -/
def completed (s : State Nat Nat) : (Option Operation × Option Operation × List String) ×
    Option Operation × Option Nat :=
  (recorded s, s.tasks.backend "a_1",
    match s.handler with
    | .ret (.ok v) => some v
    | _ => none)

def stepSucceeded : (Option Operation × Option Operation × List String) ×
    Option Operation × Option Nat :=
  ((some executionRecord, some (waitRecord .succeeded), ["a_1", "a_1"]), some stepRecord, some 7)

theorem serves_of_completed {s : State Nat Nat} (h : completed s = stepSucceeded) :
    Serves ⟨laterInput, s⟩ lastInput.operations := by
  simp only [completed, recorded, stepSucceeded, Prod.mk.injEq] at h
  obtain ⟨⟨hexecution, hwait, hids⟩, hstep, -⟩ := h
  constructor
  · refine ⟨s.tasks.backend, .refl, ?_⟩
    simp only [lastInput, List.forall_mem_cons]
    exact ⟨hexecution, hwait, hstep, by simp⟩
  · intro op hop
    exact ⟨op, List.mem_append_left [stepRecord] hop, rfl⟩
  · intro u hu
    have hid : u.id ∈ ["a_1", "a_1"] := hids ▸ List.mem_map_of_mem hu
    exact ⟨stepRecord, by simp [lastInput], by simpa [stepRecord, eq_comm] using hid⟩

theorem invocations_replay_waitThenStep : ∃ invocations : List (Invocation Nat Nat),
    invocations.map (fun inv => (completed inv.last).2.2) = [some 7, some 7, none] ∧
      invocations.Pairwise Replays := by
  have hfirst : ((machine firstInput rootContext true waitThenStep).checkedRun acceptsAll
      (.new firstInput rootContext waitThenStep) suspendedRun).map
      (fun s => (recorded s, (completed s).2.2)) = some (waitStarted, none) := by decide +kernel
  have hlater : ((machine laterInput rootContext true waitThenStep).checkedRun acceptsAll
      (.new laterInput rootContext waitThenStep) valueRun).map completed = some stepSucceeded := by
    decide +kernel
  have hlast : ((machine lastInput rootContext true waitThenStep).checkedRun acceptsAll
      (.new lastInput rootContext waitThenStep) replayRun).map (fun s => (completed s).2.2) =
      some (some 7) := by decide +kernel
  obtain ⟨s₁, hrun₁, hs₁⟩ := Option.map_eq_some_iff.mp hfirst
  obtain ⟨s₂, hrun₂, hs₂⟩ := Option.map_eq_some_iff.mp hlater
  obtain ⟨s₃, hrun₃, hs₃⟩ := Option.map_eq_some_iff.mp hlast
  obtain ⟨hrecorded, hnone⟩ := Prod.mk.inj hs₁
  have hreach : ∀ {input : Input} {ls : List (Label Nat Nat)} {s : State Nat Nat},
      (machine input rootContext true waitThenStep).checkedRun acceptsAll
        (.new input rootContext waitThenStep) ls = some s →
      (machine input rootContext true waitThenStep).ReachableBy Accepted s := fun {_ ls _} hrun =>
    Transition.Machine.checkedRun_reachableBy (fun _ _ _ => acceptsAll_sound) ls (.init ⟨rfl, rfl⟩) hrun
  have hrun : Run rootContext true waitThenStep (fun _ _ => Accepted)
      [⟨lastInput, s₃⟩, ⟨laterInput, s₂⟩, ⟨firstInput, s₁⟩] :=
    ((Run.first rfl rfl (hreach hrun₁)).next (serves_of_recorded hrecorded) (hreach hrun₂)).next
      (serves_of_completed hs₂) (hreach hrun₃)
  refine ⟨_, ?_, invocations_replay waitThenStep_straight (fun _ _ _ _ _ _ hid => hid) ?_ hrun⟩
  · simp [hnone, hs₂, hs₃, stepSucceeded]
  · intro inv hinv op hop htype name n _
    refine execution_apart ?_ htype name n
    simp only [List.mem_cons, List.not_mem_nil, or_false] at hinv
    obtain rfl | rfl | rfl := hinv
    · exact hop
    · exact List.mem_append_left [stepRecord] hop
    · exact List.mem_append_left [waitRecord .succeeded, stepRecord] hop

end Logging

end LambdaDurable
