import LambdaDurable.Context.Placed
import LambdaDurable.Context.Progress

/-!
# The counters and the children of a task

A counter answers a task with the numbers it has not given to anyone, and the children that
a batch joins are those it has spawned, each once.
-/

namespace LambdaDurable.Tasks

open Effects Call

variable {V I : Type} {token : String} {loaded : Table} {root : ExecutionContext} {s s' : State V I}
  {l : Label V I} {j t : Nat} {task child : Task V I}

/-- What the task has seen; nothing before it is there. -/
def State.traceOf (s : State V I) (j : Nat) : List (Event V) := (s.tasks[j]?.map (·.trace)).getD []

theorem traceOf_of_mem (h : s.tasks[j]? = some task) : s.traceOf j = task.trace := by
  simp [State.traceOf, h]

/-- A step answers an effect of the task `j`. -/
inductive Answered (s : State V I) (j : Nat) : Label V I → (e : Effect V) → Answer e → Prop
  | perform {loaded : Table} {choose : (e : Effect V) → Option (Answer e)} {e : Effect V} {a : Answer e} :
      instant loaded s.mode (s.choices choose) e = some a → Answered s j (.perform j choose) e a
  | resume {n : Nat} {e : Effect V} {a : Answer e} : outcome s.manager n e = some a →
      Answered s j (.resume j) e a
  | join {i index : Nat} {child : Task V I} {r : DurableResult V} : s.tasks[i]? = some child →
      child.joined = false → joinAnswer j child = some (index, r) →
      Answered s j (.join j i) .joinNext (.ok (index, r))
  | panic {i : Nat} {message : String} : Answered s j (.panic j i message) .joinNext (.error message)

/-- What a step does to the program and the trace of the task `j`. -/
inductive Advances (s : State V I) (j : Nat) (l : Label V I) (task task' : Task V I) : Prop
  | idle : task'.program = task.program → task'.trace = task.trace → (∀ choose, l ≠ .perform j choose) →
      Advances s j l task task'
  | answered {e : Effect V} {k : Answer e → Act V (DurableResult (Output V))} {a : Answer e} :
      task.program = .act e k → task'.program = k a → task'.trace = ⟨e, a⟩ :: task.trace →
      Answered s j l e a → Advances s j l task task'

theorem Acts.own {cl : Call.Label V} {r : State V I} (h : Acts loaded s t task cl r) :
    ∃ v, Call.Move loaded (s.view task) cl v ∧
      r.tasks[t]? = some { task with program := v.program, ticket := v.ticket, trace := v.trace } := by
  obtain ⟨hmem, v, hv, rfl⟩ := h
  exact ⟨v, Call.move_of_step hv, List.getElem?_set_self (List.getElem?_eq_some_iff.mp hmem).1⟩

theorem Acts.others {cl : Call.Label V} {r : State V I} (h : Acts loaded s t task cl r) (hne : t ≠ j) :
    r.tasks[j]? = s.tasks[j]? := by
  obtain ⟨-, v, -, rfl⟩ := h
  exact List.getElem?_set_ne hne

theorem Acts.performs {choose : (e : Effect V) → Option (Answer e)} {r : State V I}
    (h : Acts loaded s t task (.perform choose) r) :
    ∃ task' e k a, r.tasks[t]? = some task' ∧ task.program = .act e k ∧ task'.program = k a ∧
      task'.trace = ⟨e, a⟩ :: task.trace ∧ instant loaded s.mode choose e = some a := by
  obtain ⟨v, hmove, hmem⟩ := h.own
  cases hmove with
  | perform _ hprogram ha => exact ⟨_, _, _, _, hmem, hprogram, rfl, by simp; rfl, ha⟩

theorem getElem?_after (s : State V I) (task : Task V I) (e : Effect V) {other : Task V I}
    (h : s.tasks[j]? = some other) : (s.after t task e).tasks[j]? = some other := by
  have happend : ∀ more : List (Task V I), (s.tasks ++ more)[j]? = some other := fun more =>
    (List.getElem?_append_left (List.getElem?_eq_some_iff.mp h).1).trans h
  cases e with
  | fetchAdd _ | newCounter => exact h
  | _ => exact happend _

theorem joining_answer {a : Answer (.joinNext : Effect V)} {r : State V I}
    (h : Acts loaded s t task (.perform (answering a)) r) (hjoining : task.joining = true) :
    ∃ task' k, r.tasks[t]? = some task' ∧ task.program = .act .joinNext k ∧ task'.program = k a ∧
      task'.trace = ⟨.joinNext, a⟩ :: task.trace := by
  obtain ⟨k, hprogram⟩ := program_of_joining hjoining
  obtain ⟨task', e, k', a', hmem, hprogram', hafter, htrace, ha⟩ := h.performs
  obtain ⟨rfl, hk⟩ := Prog.act.inj (hprogram.symm.trans hprogram')
  obtain rfl := eq_of_heq hk
  obtain rfl : a = a' := Option.some.inj ha
  exact ⟨task', k, hmem, hprogram, hafter, htrace⟩

/-- The task `j` after a step in which it was joined, or another one took the step. -/
theorem idle_markJoined {cl : Call.Label V} {r : State V I} (h : Acts loaded s t task cl r)
    (hne : t ≠ j) (hj : s.tasks[j]? = some child) {i : Nat} {other : Task V I}
    (hi : s.tasks[i]? = some other) :
    ∃ child', (r.markJoined i other).tasks[j]? = some child' ∧ child'.program = child.program ∧
      child'.trace = child.trace := by
  have hj' : r.tasks[j]? = some child := (h.others hne).trans hj
  by_cases hij : i = j
  · subst hij
    obtain rfl : other = child := Option.some.inj (hi.symm.trans hj)
    exact ⟨_, List.getElem?_set_self (List.getElem?_eq_some_iff.mp hj').1, rfl, rfl⟩
  · exact ⟨child, (List.getElem?_set_ne hij).trans hj', rfl, rfl⟩

theorem Move.advances (hm : Move loaded s l s') (hj : s.tasks[j]? = some task) :
    ∃ task', s'.tasks[j]? = some task' ∧ Advances s j l task task' := by
  have hidle : s'.tasks[j]? = some task → (∀ choose, l ≠ .perform j choose) →
      ∃ task', s'.tasks[j]? = some task' ∧ Advances s j l task task' :=
    fun hj' hl => ⟨task, hj', .idle rfl rfl hl⟩
  cases hm with
  | manager _ _ | service _ | enter _ _ => exact hidle hj (by rintro _ ⟨⟩)
  | begin _ =>
    exact hidle ((List.getElem?_append_left (List.getElem?_eq_some_iff.mp hj).1).trans hj) (by rintro _ ⟨⟩)
  | @perform t choose actor e r he hr =>
    by_cases htj : t = j
    · subst htj
      obtain rfl : actor = task := Option.some.inj (hr.mem.symm.trans hj)
      obtain ⟨task', e', k, a, hmem, hprogram, hafter, htrace, ha⟩ := hr.performs
      exact ⟨task', getElem?_after r actor e hmem, .answered hprogram hafter htrace (.perform ha)⟩
    · refine hidle (getElem?_after r actor e ((hr.others htj).trans hj)) ?_
      rintro choose' ⟨⟩
      exact htj rfl
  | @request t n actor r hr =>
    by_cases htj : t = j
    · subst htj
      obtain rfl : actor = task := Option.some.inj (hr.mem.symm.trans hj)
      obtain ⟨v, hmove, hmem⟩ := hr.own
      cases hmove with
      | request _ _ _ _ => exact ⟨_, hmem, .idle rfl rfl (by rintro _ ⟨⟩)⟩
    · exact hidle ((hr.others htj).trans hj) (by rintro _ ⟨⟩)
  | @resume t actor r hr =>
    by_cases htj : t = j
    · subst htj
      obtain rfl : actor = task := Option.some.inj (hr.mem.symm.trans hj)
      obtain ⟨v, hmove, hmem⟩ := hr.own
      cases hmove with
      | resume _ hprogram ha => exact ⟨_, hmem, .answered hprogram rfl rfl (.resume ha)⟩
    · exact hidle ((hr.others htj).trans hj) (by rintro _ ⟨⟩)
  | @join t i index actor other result r hjoining hne hi hopen hanswer hr =>
    by_cases htj : t = j
    · subst htj
      obtain rfl : actor = task := Option.some.inj (hr.mem.symm.trans hj)
      obtain ⟨task', k, hmem, hprogram, hafter, htrace⟩ := joining_answer hr hjoining
      exact ⟨task', (List.getElem?_set_ne hne).trans hmem,
        .answered hprogram hafter htrace (.join hi hopen hanswer)⟩
    · obtain ⟨task', hmem, hprogram, htrace⟩ := idle_markJoined hr htj hj hi
      exact ⟨task', hmem, .idle hprogram htrace (by rintro _ ⟨⟩)⟩
  | @panic t i message actor other r hjoining hne hi hopen hpanics hr =>
    by_cases htj : t = j
    · subst htj
      obtain rfl : actor = task := Option.some.inj (hr.mem.symm.trans hj)
      obtain ⟨task', k, hmem, hprogram, hafter, htrace⟩ := joining_answer hr hjoining
      exact ⟨task', (List.getElem?_set_ne hne).trans hmem,
        .answered hprogram hafter htrace .panic⟩
    · obtain ⟨task', hmem, hprogram, htrace⟩ := idle_markJoined hr htj hj hi
      exact ⟨task', hmem, .idle hprogram htrace (by rintro _ ⟨⟩)⟩

/-- The same for what the task `j` has seen, if it is there. -/
theorem Move.traceOf_cases (hm : Move loaded s l s') (j : Nat) :
    s'.traceOf j = s.traceOf j ∧ (∀ choose, l = .perform j choose → s.tasks[j]? = none) ∨
      ∃ task e k a, s.tasks[j]? = some task ∧ task.program = .act e k ∧
        s'.traceOf j = ⟨e, a⟩ :: s.traceOf j ∧ Answered s j l e a := by
  cases hj : s.tasks[j]? with
  | none =>
    left
    refine ⟨?_, fun _ _ => rfl⟩
    have hempty : s.traceOf j = [] := by simp [State.traceOf, hj]
    rw [hempty]
    cases hj' : s'.tasks[j]? with
    | none => simp [State.traceOf, hj']
    | some task' =>
      rw [traceOf_of_mem hj']
      have hnew := (hm.grows.new j (List.getElem?_eq_none_iff.mp hj)).symm.trans hj'
      rcases mem_started (List.mem_of_getElem? hnew) with ⟨_, _, _, _, _, _, rfl⟩ | ⟨_, _, _, _, _, hspawned⟩
      · rfl
      · obtain ⟨_, _, _, _, _, _, _, _, _, rfl⟩ := mem_spawned hspawned
        rfl
  | some task =>
    obtain ⟨task', hj', hadvances⟩ := hm.advances hj
    rw [traceOf_of_mem hj', traceOf_of_mem hj]
    cases hadvances with
    | idle _ htrace hl => exact Or.inl ⟨htrace, fun choose hperform => absurd hperform (hl choose)⟩
    | answered hprogram _ htrace hanswered =>
      exact Or.inr ⟨task, _, _, _, rfl, hprogram, htrace, hanswered⟩

/-! ## Counters -/

/-- The effect that is answered at once. -/
def State.performed (s : State V I) : Label V I → Option (Effect V)
  | .perform t _ => s.tasks[t]?.bind fun task => nextEffect task.program
  | _ => none

def State.countersAfter (s : State V I) (l : Label V I) : (Nat → Nat) × Nat :=
  match s.performed l with
  | some (.fetchAdd c) => (Function.update s.counters c (s.counters c + 1), s.counterCount)
  | some .newCounter => (Function.update s.counters s.counterCount 0, s.counterCount + 1)
  | _ => (s.counters, s.counterCount)

theorem Move.counters_eq (hm : Move loaded s l s') :
    (s'.counters, s'.counterCount) = s.countersAfter l := by
  have hacts : ∀ {t : Nat} {task : Task V I} {cl} {r : State V I}, Acts loaded s t task cl r →
      r.counters = s.counters ∧ r.counterCount = s.counterCount := by
    rintro t task cl r ⟨-, v, -, rfl⟩
    exact ⟨rfl, rfl⟩
  cases hm with
  | manager _ _ | service _ | begin _ | enter _ _ => rfl
  | @perform t choose task e r he hr =>
    have hperformed : s.performed (.perform t choose) = some e := by
      simp [State.performed, hr.mem, he]
    obtain ⟨hcounters, hcount⟩ := hacts hr
    simp only [State.countersAfter, hperformed]
    cases e <;> simp only [State.after, hcounters, hcount]
  | request hr | resume hr | join _ _ _ _ _ hr | panic _ _ _ _ _ hr =>
    obtain ⟨hcounters, hcount⟩ := hacts hr
    exact Prod.ext hcounters hcount

theorem Move.counterCount_le (hm : Move loaded s l s') : s.counterCount ≤ s'.counterCount := by
  have hcount := congrArg Prod.snd hm.counters_eq
  simp only [State.countersAfter] at hcount
  split at hcount <;> omega

theorem Answered.fetchAdd {c : Nat} {n : Answer (.fetchAdd c : Effect V)}
    (h : Answered s j l (.fetchAdd c) n) : n = s.counters c ∧ ∃ choose, l = .perform j choose := by
  cases h with
  | perform ha => exact ⟨(Option.some.inj ha).symm, _, rfl⟩
  | resume ha => cases ha

theorem Answered.newCounter {n : Answer (.newCounter : Effect V)} (h : Answered s j l .newCounter n) :
    n = s.counterCount ∧ ∃ choose, l = .perform j choose := by
  cases h with
  | perform ha => exact ⟨(Option.some.inj ha).symm, _, rfl⟩
  | resume ha => cases ha

theorem Answered.joinNext {index : Nat} {r : DurableResult V}
    (h : Answered s j l .joinNext (.ok (index, r))) : ∃ i child, l = .join j i ∧
      s.tasks[i]? = some child ∧ child.joined = false ∧ joinAnswer j child = some (index, r) := by
  cases h with
  | perform ha => cases ha
  | resume ha => cases ha
  | join hi hopen hanswer => exact ⟨_, _, rfl, hi, hopen, hanswer⟩

/-- The counters that are known are there already. -/
structure Fresh (s : State V I) : Prop where
  contexts : ∀ ctx ∈ s.contexts, ctx.operationCounter < s.counterCount
  tasks : ∀ task ∈ s.tasks, task.ctx.operationCounter < s.counterCount
  created : ∀ j c, ⟨.newCounter, c⟩ ∈ s.traceOf j → c < s.counterCount

theorem Fresh.step (h : Fresh s) {allow : State V I → Label V I → Prop}
    (hr : (machine token loaded root).ReachableBy allow s) (hm : Move loaded s l s') : Fresh s' where
  contexts := by
    have hlater : ∀ ctx ∈ s.contexts, ctx.operationCounter < s'.counterCount := fun ctx hctx =>
      Nat.lt_of_lt_of_le (h.contexts ctx hctx) hm.counterCount_le
    obtain hsame | ⟨t, task, hashedId, counter, htask, he, hcontexts⟩ := hm.contexts_cases
    · rwa [hsame]
    · rw [hcontexts]
      intro ctx hctx
      obtain hctx | hctx := List.mem_append.mp hctx
      · exact hlater ctx hctx
      · obtain rfl := List.mem_singleton.mp hctx
        have hnew := (placed hr htask he).2
        rw [← traceOf_of_mem htask] at hnew
        exact Nat.lt_of_lt_of_le (h.created t counter hnew) hm.counterCount_le
  tasks := by
    intro task' hmem
    apply Nat.lt_of_lt_of_le _ hm.counterCount_le
    obtain ⟨task, htask, hsame⟩ | hnew := hm.grows.mem hmem
    · rw [hsame.ctx]
      exact h.tasks task htask
    · rcases mem_started hnew with ⟨_, name, call, ctx, -, hctx, rfl⟩ | ⟨_, task, e, htask, he, hspawned⟩
      · exact h.contexts ctx (List.mem_of_getElem? hctx)
      · obtain ⟨_, _, _, _, _, _, _, _, _, rfl⟩ := mem_spawned hspawned
        exact h.tasks task (List.mem_of_getElem? htask)
  created := by
    intro j c hmem
    obtain ⟨hsame, -⟩ | ⟨task, e, k, a, hj, hprogram, htrace, hanswered⟩ := hm.traceOf_cases j
    · rw [hsame] at hmem
      exact Nat.lt_of_lt_of_le (h.created j c hmem) hm.counterCount_le
    · rw [htrace] at hmem
      obtain heq | hmem := List.mem_cons.mp hmem
      · cases heq
        obtain ⟨rfl, choose, rfl⟩ := hanswered.newCounter
        have hperformed : s.performed (.perform j choose) = some .newCounter := by
          simp [State.performed, hj, hprogram, nextEffect]
        have hcount := congrArg Prod.snd hm.counters_eq
        simp only [State.countersAfter, hperformed] at hcount
        omega
      · exact Nat.lt_of_lt_of_le (h.created j c hmem) hm.counterCount_le

theorem fresh_of_reachableBy {allow : State V I → Label V I → Prop}
    (h : (machine token loaded root).ReachableBy allow s) : Fresh s := by
  refine h.invariant ?_ fun s l s' hr hs _ hstep => hs.step hr (move_of_step hstep)
  rintro _ ⟨-, mode, rfl⟩
  refine ⟨fun ctx hctx => ?_, fun task htask => (by cases htask), fun j c hmem => by cases hmem⟩
  obtain rfl := List.mem_singleton.mp hctx
  exact Nat.lt_succ_self _

/-- No other task draws from the counter of the context that the task `j` was called on. -/
def Alone (j : Nat) (s : State V I) (l : Label V I) : Prop :=
  ∀ t choose task other c, l = .perform t choose → t ≠ j → s.tasks[j]? = some task →
    s.tasks[t]? = some other → nextEffect other.program = some (.fetchAdd c) →
    c ≠ task.ctx.operationCounter

/-- The counter goes on from the number that the task has drawn last. -/
def Numbered (j : Nat) (s : State V I) : Prop :=
  ∀ task, s.tasks[j]? = some task → ∀ m, lastDraw task.ctx.operationCounter (s.traceOf j) = some m →
    s.counters task.ctx.operationCounter = m + 1

theorem Move.counters_kept (hm : Move loaded s l s') {c : Nat} (hlt : c < s.counterCount)
    (hother : s.performed l ≠ some (.fetchAdd c)) : s'.counters c = s.counters c := by
  have hcounters := congrArg Prod.fst hm.counters_eq
  simp only [State.countersAfter] at hcounters
  split at hcounters
  · rename_i c' hperformed
    have hne : c ≠ c' := by
      rintro rfl
      exact hother hperformed
    exact (congrFun hcounters c).trans (Function.update_of_ne hne _ _)
  · exact (congrFun hcounters c).trans (Function.update_of_ne hlt.ne _ _)
  · rw [hcounters]

theorem performed_eq_some {e : Effect V} (h : s.performed l = some e) : ∃ t choose task,
    l = .perform t choose ∧ s.tasks[t]? = some task ∧ nextEffect task.program = some e := by
  cases l with
  | perform t choose =>
    obtain ⟨task, htask, he⟩ := Option.bind_eq_some_iff.mp h
    exact ⟨t, choose, task, rfl, htask, he⟩
  | _ => cases h

/-- While the task is alone with its counter, only its own draws move it. -/
theorem Alone.kept (halone : Alone j s l) (hfresh : Fresh s) (hm : Move loaded s l s')
    (hj : s.tasks[j]? = some task)
    (hown : nextEffect task.program = some (.fetchAdd task.ctx.operationCounter) →
      ∀ choose, l ≠ .perform j choose) :
    s'.counters task.ctx.operationCounter = s.counters task.ctx.operationCounter := by
  apply hm.counters_kept (hfresh.tasks task (List.mem_of_getElem? hj))
  intro hperformed
  obtain ⟨t, choose, other, rfl, ht, he⟩ := performed_eq_some hperformed
  by_cases htj : t = j
  · subst htj
    obtain rfl : task = other := Option.some.inj (hj.symm.trans ht)
    exact hown he choose rfl
  · exact halone t choose task other _ rfl htj hj ht he rfl

theorem Numbered.step (h : Numbered j s) (hfresh : Fresh s) (halone : Alone j s l)
    (hm : Move loaded s l s') : Numbered j s' := by
  intro task' hj' m hdraw
  obtain ⟨hsame, hidle⟩ | ⟨task, e, k, a, hj, hprogram, htrace, hanswered⟩ := hm.traceOf_cases j
  · rw [hsame] at hdraw
    cases hj : s.tasks[j]? with
    | none => simp [State.traceOf, hj, lastDraw] at hdraw
    | some task =>
      obtain ⟨task'', hj'', hkept⟩ := hm.grows.kept j task hj
      obtain rfl : task'' = task' := Option.some.inj (hj''.symm.trans hj')
      rw [hkept.ctx] at hdraw ⊢
      rw [halone.kept hfresh hm hj, h task hj m hdraw]
      rintro - choose hl
      rw [hidle choose hl] at hj
      cases hj
  · obtain ⟨task'', hj'', hkept⟩ := hm.grows.kept j task hj
    obtain rfl : task'' = task' := Option.some.inj (hj''.symm.trans hj')
    rw [hkept.ctx] at hdraw ⊢
    rw [htrace, lastDraw] at hdraw
    by_cases he : e = .fetchAdd task.ctx.operationCounter
    · subst he
      obtain ⟨rfl, choose, rfl⟩ := hanswered.fetchAdd
      obtain rfl : s.counters task.ctx.operationCounter = m := by
        simpa [Event.drawnFrom] using hdraw
      have hperformed : s.performed (.perform j choose) =
          some (.fetchAdd task.ctx.operationCounter) := by
        simp [State.performed, hj, hprogram, nextEffect]
      have hcounters := congrArg Prod.fst hm.counters_eq
      simp only [State.countersAfter, hperformed] at hcounters
      rw [hcounters, Function.update_self]
    · have hnone : Event.drawnFrom task.ctx.operationCounter (⟨e, a⟩ : Event V) = none := by
        cases e with
        | fetchAdd c =>
          have hne : c ≠ task.ctx.operationCounter := fun heq => he (heq ▸ rfl)
          simp [Event.drawnFrom, hne]
        | _ => rfl
      rw [hnone, Option.none_or] at hdraw
      rw [halone.kept hfresh hm hj, h task hj m hdraw]
      intro hnext
      rw [hprogram] at hnext
      exact absurd (Option.some.inj hnext) he

theorem numbered_of_reachableBy (h : (machine token loaded root).ReachableBy (Alone j) s) :
    Numbered j s := by
  refine h.invariant ?_ fun s l s' hr hs hl hstep =>
    hs.step (fresh_of_reachableBy hr) hl (move_of_step hstep)
  rintro _ ⟨-, mode, rfl⟩ task hj
  cases hj

/-! ## Children -/

/-- The index of the task as a child of the batch `j`, while it is not joined. -/
def Task.openFor (j : Nat) (task : Task V I) : Option Nat :=
  match task.origin with
  | .child batch index => if batch = j ∧ task.joined = false then some index else none
  | .call _ _ => none

def State.unjoined (s : State V I) (j : Nat) : List Nat := s.tasks.filterMap (·.openFor j)

section

variable {α β : Type} {f : α → Option β} {xs : List α} {i : Nat} {x y : α}

theorem filterMap_set_same (h : xs[i]? = some x) (hsame : f y = f x) :
    (xs.set i y).filterMap f = xs.filterMap f := by
  induction xs generalizing i with
  | nil => cases h
  | cons z xs ih =>
    cases i with
    | zero =>
      obtain rfl : z = x := Option.some.inj h
      rw [List.set_cons_zero, List.filterMap_cons, List.filterMap_cons, hsame]
    | succ i =>
      rw [List.set_cons_succ, List.filterMap_cons, List.filterMap_cons, ih h]

theorem filterMap_set_none {b : β} (h : xs[i]? = some x) (hx : f x = some b) (hy : f y = none) :
    (b :: (xs.set i y).filterMap f).Perm (xs.filterMap f) := by
  induction xs generalizing i with
  | nil => cases h
  | cons z xs ih =>
    cases i with
    | zero =>
      obtain rfl : z = x := Option.some.inj h
      rw [List.set_cons_zero, List.filterMap_cons_none hy, List.filterMap_cons_some hx]
    | succ i =>
      rw [List.set_cons_succ, List.filterMap_cons, List.filterMap_cons]
      cases f z with
      | none => exact ih h
      | some c => exact (List.Perm.swap c b _).trans ((ih h).cons c)

end

theorem Acts.unjoined {cl : Call.Label V} {r : State V I} (h : Acts loaded s t task cl r) (j : Nat) :
    r.unjoined j = s.unjoined j := by
  obtain ⟨hmem, v, -, rfl⟩ := h
  exact filterMap_set_same hmem rfl

theorem openFor_markJoined (j : Nat) (child : Task V I) :
    ({ child with joined := true } : Task V I).openFor j = none := by
  unfold Task.openFor
  split
  · exact if_neg fun h => Bool.noConfusion h.2
  · rfl

theorem Acts.unjoined_markJoined {cl : Call.Label V} {r : State V I} (h : Acts loaded s t task cl r)
    {i index : Nat} (hne : i ≠ t) (hi : s.tasks[i]? = some child)
    (hopen : child.openFor j = some index) :
    (index :: (r.markJoined i child).unjoined j).Perm (s.unjoined j) := by
  rw [← h.unjoined j]
  have hi' : r.tasks[i]? = some child := (h.others hne.symm).trans hi
  exact filterMap_set_none hi' hopen (openFor_markJoined j child)

theorem Acts.markJoined_subperm {cl : Call.Label V} {r : State V I} (h : Acts loaded s t task cl r)
    {i : Nat} (hne : i ≠ t) (hi : s.tasks[i]? = some child) (j : Nat) :
    ((r.markJoined i child).unjoined j).Subperm (s.unjoined j) := by
  have hi' : r.tasks[i]? = some child := (h.others hne.symm).trans hi
  cases hopen : child.openFor j with
  | some index =>
    exact List.Subperm.trans (List.sublist_cons_self ..).subperm
      (h.unjoined_markJoined hne hi hopen).subperm
  | none =>
    rw [← h.unjoined j]
    have hsame := filterMap_set_same hi' ((openFor_markJoined j child).trans hopen.symm)
    exact (List.Perm.of_eq hsame).subperm

/-- The other unjoined children are those that the step starts. -/
theorem Move.unjoined_subperm (hm : Move loaded s l s') (j : Nat) :
    (s'.unjoined j).Subperm (s.unjoined j ++ (started s l).filterMap (·.openFor j)) := by
  have hkept : ∀ {r : State V I}, (r.unjoined j).Subperm (s.unjoined j) →
      (r.unjoined j).Subperm (s.unjoined j ++ (started s l).filterMap (·.openFor j)) :=
    fun h => h.trans (List.sublist_append_left _ _).subperm
  cases hm with
  | manager _ _ | service _ | enter _ _ => exact hkept (.refl _)
  | @begin c name call ctx hctx =>
    have hstarted : started s (.begin c name call) = [.new ctx (.call name call) (call.run ctx name)] := by
      simp [started, hctx]
    rw [hstarted, State.unjoined, List.filterMap_append]
    exact .refl _
  | @perform t choose task e r he hr =>
    have hstarted : started s (.perform t choose) = task.spawned t e := by
      simp [started, hr.mem, he]
    have hafter : (r.after t task e).tasks = r.tasks ++ task.spawned t e := by
      cases e <;> first | rfl | exact (List.append_nil _).symm
    rw [hstarted, State.unjoined, hafter, List.filterMap_append, ← hr.unjoined j]
    exact .refl _
  | request hr | resume hr =>
    apply hkept
    rw [hr.unjoined]
  | join _ hne hi _ _ hr | panic _ hne hi _ _ hr => exact hkept (hr.markJoined_subperm hne hi j)

theorem openFor_spawned (task : Task V I) (t j : Nat) (e : Effect V) :
    (task.spawned t e).filterMap (·.openFor j) = [] ∨ t = j ∧ ∃ index stepId hashedId itemName,
      e = .spawn index stepId hashedId itemName ∧ (task.spawned t e).filterMap (·.openFor j) = [index] := by
  cases e with
  | spawn index stepId hashedId itemName =>
    simp only [Task.spawned]
    cases task.batch with
    | none => exact Or.inl rfl
    | some batch =>
      by_cases htj : t = j
      · refine Or.inr ⟨htj, index, stepId, hashedId, itemName, rfl, ?_⟩
        simp [Task.openFor, Task.new, htj]
      · left
        simp [Task.openFor, Task.new, htj]
  | _ => exact Or.inl rfl

/-- A step starts a child of the batch `j` only when the batch spawns one. -/
theorem openFor_started (s : State V I) (l : Label V I) (j : Nat) :
    (started s l).filterMap (·.openFor j) = [] ∨ ∃ choose task index stepId hashedId itemName,
      l = .perform j choose ∧ s.tasks[j]? = some task ∧
      nextEffect task.program = some (.spawn index stepId hashedId itemName) ∧
      (started s l).filterMap (·.openFor j) = [index] := by
  cases l with
  | begin c name call =>
    left
    cases hctx : s.contexts[c]? <;> simp [started, hctx, Task.openFor, Task.new]
  | perform t choose =>
    cases htask : s.tasks[t]? with
    | none => simp [started, htask]
    | some task =>
      cases he : nextEffect task.program with
      | none => simp [started, htask, he]
      | some e =>
        have hstarted : started s (.perform t choose) = task.spawned t e := by
          simp [started, htask, he]
        rw [hstarted]
        rcases openFor_spawned task t j e with hnone | ⟨rfl, index, stepId, hashedId, itemName, rfl, hsome⟩
        · exact Or.inl hnone
        · exact Or.inr ⟨choose, task, index, stepId, hashedId, itemName, rfl, htask, he, hsome⟩
  | _ => exact Or.inl rfl

theorem Move.unjoined_join {i index : Nat} (hm : Move loaded s (.join j i) s')
    (hi : s.tasks[i]? = some child) (hopen : child.openFor j = some index) :
    (index :: s'.unjoined j).Perm (s.unjoined j) := by
  cases hm with
  | join _ hne hi' _ _ hr =>
    obtain rfl := Option.some.inj (hi.symm.trans hi')
    exact hr.unjoined_markJoined hne hi hopen

theorem started_join (p : Batch.Progress V) (index : Nat) (r : DurableResult V) :
    (p.after ⟨.joinNext, .ok (index, r)⟩).started = p.started.erase index := by
  cases r <;> rfl

/-- The children that a batch has not joined are those it knows to be started. -/
def Matched (s : State V I) : Prop :=
  ∀ j, (s.unjoined j).Subperm (Batch.progress (s.traceOf j)).started

theorem Matched.mem (h : Matched s) {i index : Nat} {r : DurableResult V} (hi : s.tasks[i]? = some child)
    (hopen : child.joined = false) (hanswer : joinAnswer j child = some (index, r)) :
    child.openFor j = some index ∧ index ∈ (Batch.progress (s.traceOf j)).started := by
  have hindex : child.openFor j = some index := by
    unfold joinAnswer at hanswer
    split at hanswer
    · rename_i batch index' r' horigin hprogram
      simp only [Option.ite_none_right_eq_some] at hanswer
      obtain ⟨rfl, hanswer⟩ := hanswer
      have heq : index' = index := by
        split at hanswer <;> simp_all
      simp [Task.openFor, horigin, hopen, heq]
    · cases hanswer
  exact ⟨hindex, (h j).subset (List.mem_filterMap.mpr ⟨child, List.mem_of_getElem? hi, hindex⟩)⟩

theorem Matched.step (h : Matched s) (hm : Move loaded s l s') : Matched s' := by
  intro j
  have hborn := hm.unjoined_subperm j
  have hquiet : (started s l).filterMap (·.openFor j) = [] →
      (s'.unjoined j).Subperm (Batch.progress (s.traceOf j)).started := by
    intro hnone
    rw [hnone, List.append_nil] at hborn
    exact hborn.trans (h j)
  obtain ⟨hsame, hidle⟩ | ⟨task, e, k, a, hj, hprogram, htrace, hanswered⟩ := hm.traceOf_cases j
  · rw [hsame]
    obtain hnone | ⟨choose, task, _, _, _, _, hl, hj, -, -⟩ := openFor_started s l j
    · exact hquiet hnone
    · rw [hidle choose hl] at hj
      cases hj
  · rw [htrace, Batch.progress]
    rcases openFor_started s l j with hnone | ⟨choose, task', index, stepId, hashedId, itemName, rfl, hj',
        he, hsome⟩
    · cases e with
      | joinNext =>
        cases a with
        | error message => exact hquiet hnone
        | ok result =>
          obtain ⟨index, r⟩ := result
          obtain ⟨i, child, rfl, hi, hopen, hanswer⟩ := hanswered.joinNext
          rw [started_join]
          have hleft := (hm.unjoined_join hi (h.mem hi hopen hanswer).1).subperm.trans (h j)
          simpa using hleft.erase index
      | spawn index _ _ _ =>
        exact (hquiet hnone).trans (List.sublist_append_left _ [index]).subperm
      | _ => exact hquiet hnone
    · obtain rfl : task = task' := Option.some.inj (hj.symm.trans hj')
      rw [hprogram] at he
      obtain rfl := Option.some.inj he
      rw [hsome] at hborn
      exact hborn.trans ((List.subperm_append_right [index]).mpr (h j))

theorem matched_of_reachableBy {allow : State V I → Label V I → Prop}
    (h : (machine token loaded root).ReachableBy allow s) : Matched s := by
  refine h.invariant ?_ fun s l s' _ hs _ hstep => hs.step (move_of_step hstep)
  rintro _ ⟨-, mode, rfl⟩ j
  exact .refl _

/-! ## What the task sees of them -/

/-- The answers that a task gets at once go on from what it has drawn and spawned. -/
def Steadily (loaded : Table) (c : Nat) (v : Call.State V (DurableResult (Output V)))
    (l : Call.Label V) : Prop :=
  ∀ choose e k a, l = .perform choose → v.program = .act e k →
    instant loaded v.mode choose e = some a → Steady c v.trace e a

theorem look_trace (s : State V I) (j : Nat) (p : Act V (DurableResult (Output V))) :
    (s.look j p).trace = s.traceOf j := by
  unfold State.look State.traceOf
  cases s.tasks[j]? <;> rfl

theorem steadily_of_seen {c : Nat}
    (hnumbered : ∀ m, lastDraw c (s.traceOf j) = some m → s.counters c = m + 1) (hmatched : Matched s)
    {p : Act V (DurableResult (Output V))} {cl : Call.Label V} (hseen : Seen s j l cl) :
    Steadily loaded c (s.look j p) cl := by
  rintro choose e k a rfl hprogram ha
  rw [look_trace]
  cases e with
  | fetchAdd c' =>
    rintro rfl m hm
    cases hseen with
    | perform choose => exact (Option.some.inj ha).symm.trans (hnumbered m hm)
    | join _ _ _ | panic _ _ => cases ha
  | joinNext =>
    cases a with
    | error message => trivial
    | ok result =>
      cases hseen with
      | perform choose => cases ha
      | panic _ _ => cases ha
      | join hi hopen hanswer =>
        obtain rfl := Except.ok.inj (Option.some.inj ha)
        exact (hmatched.mem hi hopen hanswer).2
  | _ => trivial

theorem view_steadily (h : (machine token loaded root).ReachableBy (Alone j) s)
    (htask : s.tasks[j]? = some task) : (Call.machine token loaded task.start).ReachableBy
      (Steadily loaded task.ctx.operationCounter) (s.view task) := by
  refine view_reachableBy (fun s l cl hr hsame hseen => ?_) h.along htask
  refine steadily_of_seen (fun m hm => ?_) (matched_of_reachableBy hr.1) hseen
  cases hj : s.tasks[j]? with
  | none => simp [State.traceOf, hj, lastDraw] at hm
  | some task' =>
    rw [(hsame task' hj).ctx] at hm ⊢
    exact numbered_of_reachableBy hr.1 task' hj m hm

/-- The effects that are answered at once are answered so. -/
def Instantly (loaded : Table) (P : List (Event V) → (e : Effect V) → Answer e → Prop)
    (v : Call.State V (DurableResult (Output V))) (l : Call.Label V) : Prop :=
  ∀ choose e k a, l = .perform choose → v.program = .act e k →
    instant loaded v.mode choose e = some a → P v.trace e a

theorem respects_instantly {P : List (Event V) → (e : Effect V) → Answer e → Prop}
    (hresume : ∀ trace m n e a, outcome m n e = some a → P trace e a) :
    Respects loaded (Instantly loaded P) fun trace e a => Answers loaded e a ∧ P trace e a := by
  intro v l v' hl hm e a htrace hans
  refine ⟨hans, ?_⟩
  cases hm with
  | manager _ | setMode | service _ | request _ _ _ _ =>
    exact absurd (congrArg List.length htrace) (Nat.ne_of_lt (Nat.lt_succ_self _))
  | perform _ hprogram ha =>
    rw [Call.State.answer_trace, Call.State.touch_trace] at htrace
    obtain ⟨rfl, hheq⟩ := Sigma.mk.inj (List.cons.inj htrace).1
    obtain rfl := eq_of_heq hheq
    exact hl _ _ _ _ rfl hprogram ha
  | resume _ _ ha =>
    obtain ⟨rfl, hheq⟩ := Sigma.mk.inj (List.cons.inj htrace).1
    obtain rfl := eq_of_heq hheq
    exact hresume _ _ _ _ _ ha

theorem respects_steadily (loaded : Table) (c : Nat) :
    Respects loaded (Steadily loaded c : Call.State V (DurableResult (Output V)) → Call.Label V → Prop)
      fun trace e a => Answers loaded e a ∧ Steady c trace e a := by
  apply respects_instantly
  intro trace m n e a ha
  cases e with
  | fetchAdd _ | joinNext => cases ha
  | _ => trivial

end LambdaDurable.Tasks
