import LambdaDurable.Checkpoint.Descendants
import LambdaDurable.Context.Parents

/-!
# Contexts that finish before what runs in them

A task may outlive the context it runs in: it was spawned with a handle of the context, or it
is a child that its batch has aborted. The tree of operations is that of their IDs; what a task
does has its place there next to the task's own operation.
-/

namespace LambdaDurable.Tasks

open Effects CheckpointManager

variable {V I : Type}

def Below (tree : String → Option String) : String → String → Prop :=
  Relation.TransGen fun x p => tree x = some p

/-- The operation below which a task makes contexts. -/
def Task.place (task : Task V I) : Option String :=
  match task.batch with
  | some (_, _, hashedId) => some hashedId
  | none => task.ctx.currentParentId

/-- The parent is that of the task's own operation, or this operation. -/
def Task.near (tree : String → Option String) (task : Task V I) (parent : Option String) : Bool :=
  parent == task.ctx.currentParentId ||
    parent.any fun p => tree p == task.ctx.currentParentId

def Task.sits (tree : String → Option String) (task : Task V I) : Effect V → Bool
  | .checkpoint _ u | .checkpointQueued _ u => tree u.id == u.parentId && task.near tree u.parentId
  | .contextFn hashedId _ => tree hashedId == task.place && task.near tree task.place
  | .spawn _ _ _ _ => task.near tree task.place
  | _ => true

/-- What the tasks are about to do has its place in the tree. -/
def fits (tree : String → Option String) (s : State V I) : Bool :=
  s.tasks.all fun task => (nextEffect task.program).all (task.sits tree)

/-- A call that passes the guard has nothing finished above it, and nothing is pushed above a
call that has passed it and has not pushed. -/
def GuardedBelow (tree : String → Option String) (s : State V I) (l : Label V I) : Prop :=
  ∀ m, l = .manager m → Guarded (Below tree) s.manager m

theorem nothing_follows {token : String} {loaded : Table} {root : ExecutionContext}
    {tree : String → Option String} {s : State V I}
    (h : (machine token loaded root).ReachableBy (GuardedBelow tree) s) :
    NothingFollows (Below tree) (sentUpdates s.manager.log) := by
  refine nothingFollows_of_guarded
    (manager_reachableBy (fun _ _ hl => hl _ rfl) (fun _ m hm => ⟨?_, ?_⟩) h)
  · rintro c k rfl
    cases hm
  · rintro c k rfl
    cases hm

/-! ## Runs with few calls -/

section

variable {token : String} {loaded : Table} {root : ExecutionContext} {s : State V I} {l : Label V I}
  {bound : Nat}

def numbered (bound : Nat) : Label V I → Bool
  | .request _ n => n < bound
  | _ => true

theorem callers_bounded {allow : State V I → Label V I → Prop}
    (hallow : ∀ s l, allow s l → numbered bound l = true)
    (h : (machine token loaded root).ReachableBy allow s) {c : Nat} {k : Caller}
    (hk : s.manager.callers c = some k) : c < bound := by
  refine h.invariant (I := fun s => ∀ c k, s.manager.callers c = some k → c < bound) ?_ ?_ c k hk
  · rintro _ ⟨-, mode, rfl⟩ c k hk
    cases hk
  · intro s l s' _ hs hl hstep c k' hk'
    obtain hsame | ⟨m, hm, hcases⟩ := (move_of_step hstep).manager_cases
    · exact hs c k' (hsame ▸ hk')
    · rcases (CheckpointManager.move_of_step hm).callers_cases hk' with
        ⟨k, hk, -⟩ | ⟨-, kind, stepId, update, rfl, -⟩
      · exact hs c k hk
      · obtain ⟨hquiet, -⟩ | ⟨t, n, task, e, _, rfl, -, -, hrequest⟩ := hcases
        · cases hquiet
        · have hn := hallow _ _ hl
          cases e <;> first | (cases hrequest; simpa [numbered] using hn) | cases hrequest

/-- `above` lists what is above an operation. -/
def guarded (above : String → List String) (bound : Nat) (s : State V I) : Label V I → Bool
  | .manager (.checkAncestor c) => (s.manager.callers c).all fun k =>
      (above k.update.id).all fun a =>
        s.manager.queue.all (·.update.id != a) && (List.range bound).all fun d =>
          (s.manager.callers d).all fun j =>
            !(j.phase.hasPushed && j.update.action.isTerminal && j.update.id == a)
  | .manager (.push c) => (s.manager.callers c).all fun k => (List.range bound).all fun d =>
      (s.manager.callers d).all fun j =>
        d == c || !j.phase.passed || !(above j.update.id).contains k.update.id
  | _ => true

theorem guarded_sound {tree : String → Option String} {above : String → List String}
    (habove : ∀ x a, Below tree x a → a ∈ above x)
    (hbound : ∀ c k, s.manager.callers c = some k → c < bound) (h : guarded above bound s l = true) :
    GuardedBelow tree s l := by
  rintro m rfl
  constructor
  · rintro c k rfl hk -
    simp only [guarded, hk, Option.all_some, List.all_eq_true, Bool.and_eq_true, List.mem_range,
      bne_iff_ne] at h
    constructor
    · rintro a ⟨d, j, hj, hpushed, hterminal, hid⟩ hbelow
      have hfree := (h a (habove _ _ hbelow)).2 d (hbound d j hj)
      simp [hj, hpushed, hterminal, hid] at hfree
    · intro e he hbelow
      exact (h _ (habove _ _ hbelow)).1 e he rfl
  · rintro c k rfl hk d j hj hpassed hdc hbelow
    simp only [guarded, hk, Option.all_some, List.all_eq_true, List.mem_range] at h
    have hfree := h d (hbound d j hj)
    simp [hj, hdc, hpassed, habove _ _ hbelow] at hfree

end

def oneDeep : String → Option String
  | "a_0:b_0" => some "a_0"
  | _ => none

theorem oneDeep_eq_some {x p : String} (h : oneDeep x = some p) : x = "a_0:b_0" ∧ p = "a_0" := by
  unfold oneDeep at h
  split at h
  · exact ⟨rfl, (Option.some.inj h).symm⟩
  · cases h

theorem above_oneDeep {x a : String} (h : Below oneDeep x a) : a ∈ (oneDeep x).toList := by
  induction h with
  | single h => simp [h]
  | tail _ h ih =>
    obtain ⟨rfl, rfl⟩ := oneDeep_eq_some h
    obtain ⟨-, hb⟩ := oneDeep_eq_some (Option.mem_toList.mp ih)
    exact absurd hb (by decide)

/-- `run_in_child_context`, up to its closure. -/
def opened (t c n w : Nat) (name : String) : List (Label Nat Nat) :=
  [.begin c (some name) (.runInChildContext { codec := .nat }), quick t, quick t, quick t] ++
    asked t n w ++ served t n w ++ [quick t, .enter t]

/-- The closure returns. -/
def returns (t v : Nat) : Label Nat Nat :=
  .perform t fun
    | .contextFn _ _ => some (.ok v)
    | _ => none

/-- A context b in a context a; b and then a end, and the handler goes on with a step. -/
def endedRun : List (Label Nat Nat) :=
  opened 0 0 0 0 "a" ++ opened 1 1 1 0 "b" ++ [returns 1 5] ++ asked 1 2 0 ++ served 1 2 0 ++
    [returns 0 7] ++ asked 0 3 0 ++ served 0 3 0 ++
    [.begin 0 (some "x") (.step { codec := .nat }), quick 2, quick 2, quick 2] ++ asked 2 4 0 ++
    [.takeBatch 0, .readToken (.worker 0), .send (.worker 0)].map .manager

theorem nothing_follows_endedRun : ∃ s : State Nat Nat,
    (sentUpdates s.manager.log).map (fun u => (u.id, u.action)) =
      [("a_0", .start), ("a_0:b_0", .start), ("a_0:b_0", .succeed), ("a_0", .succeed),
        ("x_1", .start)] ∧
      NothingFollows (Below oneDeep) (sentUpdates s.manager.log) := by
  have hend : ((machine "t0" (fun _ => none) rootContext).checkedRun
      (fun s l => numbered 5 l && guarded (fun x => (oneDeep x).toList) 5 s l)
      (.new "t0" (fun _ => none) .execution rootContext) endedRun).map
      (fun s => (sentUpdates s.manager.log).map fun u => (u.id, u.action)) =
      some [("a_0", .start), ("a_0:b_0", .start), ("a_0:b_0", .succeed), ("a_0", .succeed),
        ("x_1", .start)] := by
    decide +kernel
  obtain ⟨s, hrun, hs⟩ := Option.map_eq_some_iff.mp hend
  have hreach : (machine "t0" (fun _ => none) rootContext).ReachableBy
      (fun s l => GuardedBelow oneDeep s l ∧ numbered 5 l = true) s := by
    refine Transition.Machine.checkedRun_reachableBy (fun s l hr hl => ?_) endedRun
      (.init ⟨rfl, _, rfl⟩) hrun
    obtain ⟨hnumbered, hguarded⟩ := Bool.and_eq_true_iff.mp hl
    have hbound : ∀ c k, s.manager.callers c = some k → c < 5 := fun c k hk =>
      callers_bounded (fun _ _ hl => hl.2) hr hk
    exact ⟨guarded_sound (fun _ _ => above_oneDeep) hbound hguarded, hnumbered⟩
  exact ⟨s, hs, @nothing_follows Nat Nat "t0" (fun _ => none) rootContext oneDeep s
    (hreach.mono fun _ _ hl => hl.1)⟩

/-! ## An operation whose context's parent has finished -/

def twoDeep : String → Option String
  | "a_0:b_0" => some "a_0"
  | "a_0:b_0:x_0" => some "a_0:b_0"
  | _ => none

def finishedContext : Operation := { id := "a_0", operationType := .context, status := .succeeded }

/-- The closure of a spawns one that opens b with its handle, and returns; the response to the
SUCCEED of a is merged before b begins its step x. -/
def orphanRun : List (Label Nat Nat) :=
  opened 0 0 0 0 "a" ++ opened 1 1 1 0 "b" ++ [returns 0 7] ++ asked 0 2 0 ++
    [.takeBatch 0, .readToken (.worker 0), .send (.worker 0),
      .respond (.worker 0) (.ok { newExecutionState := some [finishedContext] }),
      .writeToken (.worker 0), .merge (.worker 0), .finishBatch 0, .notify 0, .notify 0,
      .checkRetry 0].map .manager ++
    [.begin 2 (some "x") (.step { codec := .nat }), quick 2, quick 2, quick 2] ++ asked 2 3 0 ++
    [.takeBatch 0, .readToken (.worker 0), .send (.worker 0)].map .manager

theorem orphan_follows : ¬ ∀ (tree : String → Option String) (s : State Nat Nat),
    (machine "t0" (fun _ => none) rootContext).ReachableBy (fun s _ => fits tree s = true) s →
      NothingFollows (Below tree) (sentUpdates s.manager.log) := by
  intro h
  have hend : ((machine "t0" (fun _ => none) rootContext).checkedRun (fun s _ => fits twoDeep s)
      (.new "t0" (fun _ => none) .execution rootContext) orphanRun).map
      (fun s => (sentUpdates s.manager.log).map fun u => (u.id, u.action)) =
      some [("a_0", .start), ("a_0:b_0", .start), ("a_0", .succeed), ("a_0:b_0:x_0", .start)] := by
    decide +kernel
  obtain ⟨s, hrun, hs⟩ := Option.map_eq_some_iff.mp hend
  have hnothing := h twoDeep s (Transition.Machine.checkedRun_reachableBy (fun _ _ _ hl => hl)
    orphanRun (.init ⟨rfl, _, rfl⟩) hrun)
  have hpairs : ((sentUpdates s.manager.log).map fun u => (u.id, u.action)).Pairwise
      fun u v => u.2.isTerminal = true → ¬ Below twoDeep v.1 u.1 := List.pairwise_map.mpr hnothing
  rw [hs] at hpairs
  have hbelow : Below twoDeep "a_0:b_0:x_0" "a_0" :=
    (Relation.TransGen.single (by rfl)).tail (b := "a_0:b_0") (by rfl)
  simp only [List.pairwise_cons, List.mem_cons, List.not_mem_nil, or_false, forall_eq] at hpairs
  exact hpairs.2.2.1 rfl hbelow

end LambdaDurable.Tasks
