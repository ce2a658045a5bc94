import LambdaDurable.Context.Counters

/-!
# A task is where its trace has brought it

What a program still has to do is determined by the answers it has been given. The trace of a
task can be compared, so a run that is evaluated says where its tasks are.
-/

namespace LambdaDurable

open Effects

variable {V I α : Type}

deriving instance DecidableEq for Mark
deriving instance DecidableEq for Effect

instance [DecidableEq V] : (e : Effect V) → DecidableEq (Answer e)
  | .newCounter | .fetchAdd _ => inferInstanceAs (DecidableEq Nat)
  | .getStepData _ => inferInstanceAs (DecidableEq (Option Operation))
  | .getMode => inferInstanceAs (DecidableEq ExecutionMode)
  | .checkpoint _ _ | .checkpointQueued _ _ | .forceCheckpoint =>
    inferInstanceAs (DecidableEq (Except DurableError Unit))
  | .pending | .panic _ => inferInstanceAs (DecidableEq Empty)
  | .stepFn _ _ => inferInstanceAs (DecidableEq (Except BoxError V))
  | .submitter _ _ => inferInstanceAs (DecidableEq (Except BoxError Unit))
  | .shouldRetry _ _ => inferInstanceAs (DecidableEq RetryDecision)
  | .checkFn _ _ | .contextFn _ _ => inferInstanceAs (DecidableEq (Except DurableError V))
  | .waitStrategy _ _ => inferInstanceAs (DecidableEq WaitConditionDecision)
  | .joinNext => inferInstanceAs (DecidableEq (Except String (Nat × Except DurableError V)))
  | .setMode _ | .markAwaited _ | .terminate _ | .spawn _ _ _ _ | .abortAll | .mark _ =>
    inferInstanceAs (DecidableEq Unit)

/-- Answers of any kind are given. -/
def freely : Monitor (Effect V) Answer (List (Event V)) :=
  Call.traced (fun _ _ _ => True) fun _ _ => True

/-- `q` is what is left of `p` after the answers of the trace. -/
def Follows (p : Act V α) (trace : List (Event V)) (q : Act V α) : Prop :=
  Prog.Exec freely [] p trace q

variable {p q q' : Act V α} {trace : List (Event V)}

theorem Follows.answered {e : Effect V} {k : Answer e → Act V α} (h : Follows p trace (.act e k))
    (a : Answer e) : Follows p (⟨e, a⟩ :: trace) (k a) :=
  .tail h (@Prog.Step.act _ _ _ _ freely trace e k a trivial)

theorem follows_cases (h : Follows p trace q) :
    trace = [] ∧ q = p ∨ ∃ (e : Effect V) (k : Answer e → Act V α) (a : Answer e)
      (earlier : List (Event V)), Follows p earlier (.act e k) ∧ trace = ⟨e, a⟩ :: earlier ∧ q = k a := by
  cases h with
  | refl => exact Or.inl ⟨rfl, rfl⟩
  | tail h hs =>
    cases hs with
    | act _ => exact Or.inr ⟨_, _, _, _, h, rfl, rfl⟩

/-- Nothing but the answers decides what is left. -/
theorem Follows.unique (h : Follows p trace q) (h' : Follows p trace q') : q = q' := by
  induction trace generalizing q q' with
  | nil =>
    obtain ⟨-, rfl⟩ | ⟨_, _, _, _, -, htrace, -⟩ := follows_cases h
    · obtain ⟨-, rfl⟩ | ⟨_, _, _, _, -, htrace, -⟩ := follows_cases h'
      · rfl
      · cases htrace
    · cases htrace
  | cons event trace ih =>
    obtain ⟨htrace, -⟩ | ⟨e, k, a, earlier, hleft, htrace, rfl⟩ := follows_cases h
    · cases htrace
    obtain ⟨htrace', -⟩ | ⟨e', k', a', earlier', hleft', htrace', rfl⟩ := follows_cases h'
    · cases htrace'
    cases htrace
    cases htrace'
    obtain ⟨-, hk⟩ := Prog.act.inj (ih hleft hleft')
    rw [eq_of_heq hk]

namespace Tasks

variable {token : String} {loaded : Table} {root : ExecutionContext} {s s' : State V I}
  {l : Label V I} {task : Task V I}

/-- Every task follows its trace from its start. -/
def Following (s : State V I) : Prop :=
  ∀ task ∈ s.tasks, Follows task.start task.trace task.program

theorem Following.step (h : Following s) (hm : Move loaded s l s') : Following s' := by
  intro task' hmem
  obtain ⟨j, hj'⟩ := List.getElem?_of_mem hmem
  cases hj : s.tasks[j]? with
  | none =>
    have hnew := (hm.grows.new j (List.getElem?_eq_none_iff.mp hj)).symm.trans hj'
    rcases mem_started (List.mem_of_getElem? hnew) with ⟨_, _, _, _, _, _, rfl⟩ | ⟨_, _, _, _, _, hspawned⟩
    · exact .refl _ _
    · obtain ⟨_, _, _, _, _, _, _, _, _, rfl⟩ := mem_spawned hspawned
      exact .refl _ _
  | some task =>
    have hbefore := h task (List.mem_of_getElem? hj)
    obtain ⟨kept, hkept, hsame⟩ := hm.grows.kept j task hj
    obtain rfl : kept = task' := Option.some.inj (hkept.symm.trans hj')
    obtain ⟨moved, hmoved, hadvances⟩ := hm.advances hj
    obtain rfl : moved = kept := Option.some.inj (hmoved.symm.trans hj')
    rw [hsame.start]
    cases hadvances with
    | idle hprogram htrace _ =>
      rw [hprogram, htrace]
      exact hbefore
    | answered hprogram hleft htrace _ =>
      rw [hleft, htrace]
      rw [hprogram] at hbefore
      exact hbefore.answered _

theorem following_of_reachableBy {allow : State V I → Label V I → Prop}
    (h : (machine token loaded root).ReachableBy allow s) : Following s := by
  refine h.invariant ?_ fun s l s' _ hs _ hstep => hs.step (move_of_step hstep)
  rintro _ ⟨-, mode, rfl⟩ task htask
  cases htask

end Tasks

end LambdaDurable
