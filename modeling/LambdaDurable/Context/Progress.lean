import LambdaDurable.Context.Pending
import LambdaDurable.Context.Tame

/-!
# The IDs a batch draws

A batch draws its own number and then one for each child, in the order of the items, whether
it spawns the children or goes through their records. What it has spawned and joined can be
read off its trace: its counts are sums over the children it has drawn a number for.
-/

namespace LambdaDurable

open Effects Call

variable {V T S : Type}

/-- The number that the event draws from the counter. -/
def Event.drawnFrom (c : Nat) : Event V → Option Nat
  | ⟨.fetchAdd c', n⟩ => if c' = c then some n else none
  | _ => none

/-- The number drawn last from the counter. -/
def lastDraw (c : Nat) : List (Event V) → Option Nat
  | [] => none
  | event :: trace => (event.drawnFrom c).or (lastDraw c trace)

namespace Batch

def Progress.after (p : Progress V) : Event V → Progress V
  | ⟨.spawn index _ _ _, _⟩ => { p with started := p.started ++ [index] }
  | ⟨.joinNext, .ok (index, r)⟩ => p.join index r
  | _ => p

/-- The children spawned and joined. -/
def progress : List (Event V) → Progress V
  | [] => {}
  | event :: trace => (progress trace).after event

def Progress.indices (p : Progress V) : List Nat :=
  p.successes.map (·.1) ++ p.failures.map (·.1) ++ p.started

theorem length_indices (p : Progress V) : p.indices.length = p.completedCount + p.started.length := by
  simp [Progress.indices, Progress.completedCount, Nat.add_assoc]

theorem indices_join (p : Progress V) {index : Nat} (h : index ∈ p.started) (r : DurableResult V) :
    (p.join index r).indices.Perm p.indices := by
  have herase := List.perm_cons_erase h
  rw [List.perm_iff_count]
  intro i
  have hcount := herase.count_eq i
  rw [List.count_cons] at hcount
  cases r with
  | ok v =>
    simp only [Progress.indices, Progress.join, List.map_append, List.map_cons, List.map_nil,
      List.count_append, List.count_cons, List.count_nil]
    omega
  | error e =>
    simp only [Progress.indices, Progress.join, List.map_append, List.map_cons, List.map_nil,
      List.count_append, List.count_cons, List.count_nil]
    omega

end Batch

/-- The context's counter is drawn from by nobody else, and a child that is joined was spawned
and not joined before. -/
def Steady (c : Nat) (trace : List (Event V)) : (e : Effect V) → Answer e → Prop
  | .fetchAdd c', n => c' = c → ∀ m, lastDraw c trace = some m → n = m + 1
  | .joinNext, .ok (index, _) => index ∈ (Batch.progress trace).started
  | _, _ => True

/-- The child with this index, by its name and its IDs. -/
structure IsChild (ctx : ExecutionContext) (itemNames : List String) (n index : Nat)
    (itemName stepId hashedId : String) : Prop where
  item : itemNames[index]? = some itemName
  step : stepId = ctx.operationId (some itemName) (n + 1 + index)
  hashed : hashedId = ctx.hashId stepId

/-- The operations a batch may name: itself and its children. -/
def Named (ctx : ExecutionContext) (name : Option String) (itemNames : List String)
    (trace : List (Event V)) : Effect V → Prop
  | .spawn index stepId hashedId itemName =>
    ∃ n, drawn trace = some n ∧ IsChild ctx itemNames n index itemName stepId hashedId
  | .getStepData hashedId | .contextFn hashedId _ =>
    ∃ n, drawn trace = some n ∧ (hashedId = callId ctx name n ∨
      ∃ index itemName stepId, IsChild ctx itemNames n index itemName stepId hashedId)
  | _ => True

def Counts (loaded : Table) (ctx : ExecutionContext) (name : Option String) (itemNames : List String)
    (post : List (Event V) → S → Prop) (p : Act V S) (trace : List (Event V)) : Prop :=
  p.Meets (traced (fun trace e a => Answers loaded e a ∧ Steady ctx.operationCounter trace e a)
    (Named ctx name itemNames)) post trace

/-- The batch has drawn `n` for itself and the numbers of the first `k` children. -/
structure Counted (ctx : ExecutionContext) (n k : Nat) (trace : List (Event V)) : Prop where
  own : drawn trace = some n
  last : lastDraw ctx.operationCounter trace = some (n + k)

/-- It has not reported a result. -/
structure Unreported (ctx : ExecutionContext) (n k : Nat) (trace : List (Event V)) : Prop
    extends Counted ctx n k trace where
  unsettled : ∀ stepId u a, ⟨.checkpoint stepId u, a⟩ ∈ trace → u.action ≠ .succeed

/-- It has spawned those children; in replay there was a reason to. -/
structure Looped (reason : Prop) (ctx : ExecutionContext) (n k : Nat) (trace : List (Event V)) : Prop
    extends Unreported ctx n k trace where
  indices : (Batch.progress trace).indices.Perm (List.range k)
  mode : ⟨.getMode, .replay⟩ ∈ trace → reason

/-- The result of the children that were spawned is in the SUCCEED update. -/
structure Executed (spec : BatchSpec) (ctx : ExecutionContext) (name : Option String)
    (cfg : BatchConfig V) (totalItems n k : Nat) (trace : List (Event V)) (u : OperationUpdate)
    (r : DurableResult (BatchResult V)) : Prop extends Counted ctx n k trace where
  indices : (Batch.progress trace).indices.Perm (List.range k)
  bound : k ≤ totalItems
  result : r = .ok ((Batch.progress trace).result cfg.completionConfig totalItems)
  update : ∃ payload, cfg.batchSerdes.serialize
      (some ((Batch.progress trace).result cfg.completionConfig totalItems))
      (ctx.site (callId ctx name n) name).context = .ok (some payload) ∧
    u = Batch.succeedUpdate spec (callId ctx name n) payload (spec.summary k
      (Batch.progress trace).successes.length (Batch.progress trace).failures.length
      (Batch.progress trace).started.length
      ((Batch.progress trace).result cfg.completionConfig totalItems).completionReason)

/-- A batch that has reported its result has executed; one that has not, and was in replay, had
no reason to. -/
structure Concludes (reason : Prop) (spec : BatchSpec) (ctx : ExecutionContext) (name : Option String)
    (cfg : BatchConfig V) (totalItems n : Nat) (trace : List (Event V))
    (r : DurableResult (BatchResult V)) : Prop where
  own : drawn trace = some n
  executed : ∀ stepId u a, ⟨.checkpoint stepId u, a⟩ ∈ trace → u.action = .succeed →
    ∃ k, Executed spec ctx name cfg totalItems n k trace u r
  mode : ⟨.getMode, .replay⟩ ∈ trace → reason

section

variable {loaded : Table} {ctx : ExecutionContext} {name : Option String} {itemNames : List String}
  {trace : List (Event V)} {n k : Nat}

theorem Counted.cons (h : Counted ctx n k trace) (event : Event V)
    (hdraw : event.drawnFrom ctx.operationCounter = none) : Counted ctx n k (event :: trace) where
  own := by simp [drawn, h.own]
  last := by simp [lastDraw, hdraw, h.last]

theorem Counted.draw (h : Counted ctx n k trace) {m : Nat}
    (hm : Steady ctx.operationCounter trace (.fetchAdd ctx.operationCounter) m) :
    Counted ctx n (k + 1) (⟨.fetchAdd ctx.operationCounter, m⟩ :: trace) := by
  have hnext : m = n + k + 1 := hm rfl _ h.last
  constructor
  · simp [drawn, h.own]
  · simp [lastDraw, Event.drawnFrom, hnext, Nat.add_assoc]

theorem Unreported.cons (h : Unreported ctx n k trace) (event : Event V)
    (hdraw : event.drawnFrom ctx.operationCounter = none)
    (hunsettled : ∀ stepId u a, event = ⟨.checkpoint stepId u, a⟩ → u.action ≠ .succeed) :
    Unreported ctx n k (event :: trace) where
  toCounted := h.toCounted.cons event hdraw
  unsettled stepId u a hmem := by
    obtain heq | hmem := List.mem_cons.mp hmem
    · exact hunsettled stepId u a heq.symm
    · exact h.unsettled stepId u a hmem

theorem Unreported.draw (h : Unreported ctx n k trace) {m : Nat}
    (hm : Steady ctx.operationCounter trace (.fetchAdd ctx.operationCounter) m) :
    Unreported ctx n (k + 1) (⟨.fetchAdd ctx.operationCounter, m⟩ :: trace) where
  toCounted := h.toCounted.draw hm
  unsettled stepId u a hmem := by
    obtain heq | hmem := List.mem_cons.mp hmem
    · cases heq
    · exact h.unsettled stepId u a hmem

variable {reason : Prop}

theorem Looped.cons (h : Looped reason ctx n k trace) (event : Event V)
    (hdraw : event.drawnFrom ctx.operationCounter = none)
    (hprogress : ∀ p : Batch.Progress V, p.after event = p)
    (hunsettled : ∀ stepId u a, event = ⟨.checkpoint stepId u, a⟩ → u.action ≠ .succeed)
    (hmode : event = ⟨.getMode, .replay⟩ → reason) : Looped reason ctx n k (event :: trace) where
  toUnreported := h.toUnreported.cons event hdraw hunsettled
  indices := by
    rw [Batch.progress, hprogress]
    exact h.indices
  mode hmem := by
    obtain heq | hmem := List.mem_cons.mp hmem
    · exact hmode heq.symm
    · exact h.mode hmem

theorem Looped.spawn (h : Looped reason ctx n k trace) {m : Nat}
    (hm : Steady ctx.operationCounter trace (.fetchAdd ctx.operationCounter) m)
    (stepId hashedId itemName : String) : Looped reason ctx n (k + 1)
      (⟨.spawn k stepId hashedId itemName, ()⟩ :: ⟨.fetchAdd ctx.operationCounter, m⟩ :: trace) where
  toUnreported := (h.toUnreported.draw hm).cons _ rfl fun _ _ _ heq => by cases heq
  indices := by
    rw [List.range_succ]
    simp only [Batch.progress, Batch.Progress.after, Batch.Progress.indices]
    rw [← List.append_assoc]
    exact h.indices.append_right _
  mode hmem := by
    simp only [List.mem_cons, Sigma.mk.injEq, reduceCtorEq, false_and, false_or] at hmem
    exact h.mode hmem

theorem Looped.join (h : Looped reason ctx n k trace) {index : Nat} {r : DurableResult V}
    (hindex : index ∈ (Batch.progress trace).started) :
    Looped reason ctx n k (⟨.joinNext, .ok (index, r)⟩ :: trace) where
  toUnreported := h.toUnreported.cons _ rfl fun _ _ _ heq => by cases heq
  indices := (Batch.indices_join _ hindex r).trans h.indices
  mode hmem := by
    simp only [List.mem_cons, Sigma.mk.injEq, reduceCtorEq, false_and, false_or] at hmem
    exact h.mode hmem

theorem drop_zipIdx {k index : Nat} {itemName : String} {rest : List (String × Nat)}
    (h : itemNames.zipIdx.drop k = (itemName, index) :: rest) :
    index = k ∧ itemNames[k]? = some itemName ∧ rest = itemNames.zipIdx.drop (k + 1) := by
  have hhead : itemNames.zipIdx[k]? = some (itemName, index) := by
    rw [← List.head?_drop, h]
    rfl
  have htail : rest = itemNames.zipIdx.drop (k + 1) := by
    rw [← List.drop_drop, h]
    rfl
  rw [List.getElem?_zipIdx] at hhead
  obtain ⟨item, hitem, heq⟩ := Option.map_eq_some_iff.mp hhead
  simp only [Nat.zero_add, Prod.mk.injEq] at heq
  obtain ⟨rfl, rfl⟩ := heq
  exact ⟨rfl, hitem, htail⟩

/-! ## Execution -/

variable {spec : BatchSpec} {cfg : BatchConfig V} {totalItems : Nat}

theorem counts_spawnChildren (h : Looped reason ctx n k trace) (hk : k ≤ itemNames.length) :
    Counts loaded ctx name itemNames
      (fun trace' out => ∃ k', Looped reason ctx n k' trace' ∧ k' ≤ itemNames.length ∧
        out = (itemNames.zipIdx.drop k', Batch.progress trace'))
      (Batch.spawnChildren ctx cfg totalItems (Batch.progress trace) (itemNames.zipIdx.drop k))
      trace := by
  generalize hchildren : itemNames.zipIdx.drop k = children
  induction children generalizing k trace with
  | nil => exact ⟨k, h, hk, by rw [hchildren]⟩
  | cons child rest ih =>
    obtain ⟨itemName, index⟩ := child
    obtain ⟨rfl, hitem, rfl⟩ := drop_zipIdx hchildren
    unfold Batch.spawnChildren
    split
    · rw [nextOperationId_bind]
      refine ⟨trivial, fun m hm => ?_⟩
      have hnext : m = n + index + 1 := hm.2 rfl _ h.last
      have hchild : IsChild ctx itemNames n index itemName (ctx.operationId (some itemName) m)
          (ctx.hashId (ctx.operationId (some itemName) m)) := by
        refine ⟨hitem, ?_, rfl⟩
        rw [hnext, show n + index + 1 = n + 1 + index by omega]
      refine ⟨⟨n, (h.toCounted.draw hm.2).own, hchild⟩, fun _ _ => ?_⟩
      have hlt : index < itemNames.length := (List.getElem?_eq_some_iff.mp hitem).1
      exact ih (h.spawn hm.2 _ _ itemName) (by omega) rfl
    · exact ⟨index, h, hk, by rw [hchildren]⟩

/-- Nothing is drawn, spawned or joined in a part that keeps to itself and does not succeed. -/
theorem counts_quiet {post : List (Event V) → T → Prop} {e : Effect V} {f : Answer e → Act V T}
    (h : Looped reason ctx n k trace) (hnamed : Named ctx name itemNames trace e)
    (hdraw : ∀ a, Event.drawnFrom ctx.operationCounter (⟨e, a⟩ : Event V) = none)
    (hprogress : ∀ a (p : Batch.Progress V), p.after ⟨e, a⟩ = p)
    (hunsettled : ∀ stepId u, e = .checkpoint stepId u → u.action ≠ .succeed)
    (hmode : ∀ a, (⟨e, a⟩ : Event V) = ⟨.getMode, .replay⟩ → reason)
    (hf : ∀ a, Answers loaded e a → Looped reason ctx n k (⟨e, a⟩ :: trace) →
      Counts loaded ctx name itemNames post (f a) (⟨e, a⟩ :: trace)) :
    Counts loaded ctx name itemNames post (.act e f) trace := by
  refine ⟨hnamed, fun a ha => hf a ha.1 (h.cons _ (hdraw a) (hprogress a) ?_ (hmode a))⟩
  rintro stepId u a' heq
  exact hunsettled stepId u (congrArg Sigma.fst heq)

theorem counts_complete {stepId : String} (h : Looped reason ctx n k trace) (hk : k ≤ totalItems) :
    Counts loaded ctx name itemNames
      (fun trace' r => Concludes reason spec ctx name cfg totalItems n trace' r)
      (Batch.complete spec ctx name cfg stepId (callId ctx name n) totalItems (Batch.progress trace))
      trace := by
  have hcount : (Batch.progress trace).completedCount + (Batch.progress trace).started.length = k := by
    rw [← Batch.length_indices, h.indices.length_eq, List.length_range]
  simp only [Batch.complete, safeSerializeRequiredWithSerdes]
  split
  · rename_i payload hpayload
    rw [Prog.ret_bind, checkpoint_of_build (Batch.succeedUpdate_buildable ..), Prog.act_andThen]
    refine ⟨trivial, fun r hr => ?_⟩
    obtain rfl : r = .ok () := hr.1
    have hreported := fun u => h.toCounted.cons ⟨.checkpoint stepId u, .ok ()⟩ rfl
    refine ⟨(hreported _).own, fun stepId' u a hmem haction => ?_, fun hmem => ?_⟩
    · obtain heq | hmem := List.mem_cons.mp hmem
      · cases heq
        refine ⟨k, hreported _, h.indices, hk, rfl, payload, hpayload, ?_⟩
        rw [← hcount]
        rfl
      · exact absurd haction (h.unsettled stepId' u a hmem)
    · obtain heq | hmem := List.mem_cons.mp hmem
      · cases heq
      · exact h.mode hmem
  · rw [terminateForSerdesFailure, suspend_bind]
    exact ⟨trivial, fun _ _ => ⟨trivial, fun a => a.elim⟩⟩
  · rw [terminateForSerdesFailure, suspend_bind]
    exact ⟨trivial, fun _ _ => ⟨trivial, fun a => a.elim⟩⟩

theorem Looped.concludes (h : Looped reason ctx n k trace) (r : DurableResult (BatchResult V)) :
    Concludes reason spec ctx name cfg totalItems n trace r :=
  ⟨h.own, fun stepId u a hmem haction => absurd haction (h.unsettled stepId u a hmem), h.mode⟩

theorem counts_runLoop {stepId : String}
    {afterLoop : Batch.Progress V → Act V (DurableResult (BatchResult V))}
    (hafter : ∀ k trace, Looped reason ctx n k trace → k ≤ itemNames.length →
      Counts loaded ctx name itemNames
        (fun trace' r => Concludes reason spec ctx name cfg itemNames.length n trace' r)
        (afterLoop (Batch.progress trace)) trace)
    (turns : Nat) (h : Looped reason ctx n k trace) (hk : k ≤ itemNames.length) :
    Counts loaded ctx name itemNames
      (fun trace' r => Concludes reason spec ctx name cfg itemNames.length n trace' r)
      (Batch.runLoop spec ctx name cfg stepId (callId ctx name n) itemNames.length afterLoop turns
        (itemNames.zipIdx.drop k) (Batch.progress trace)) trace := by
  induction turns generalizing k trace with
  | zero => exact ⟨trivial, fun a => a.elim⟩
  | succ turns ih =>
    refine Prog.Meets.bind (counts_spawnChildren h hk) fun out trace' hout => ?_
    obtain ⟨k', h, hk, rfl⟩ := hout
    dsimp only
    split
    · exact hafter k' trace' h hk
    · refine ⟨trivial, fun joined hjoined => ?_⟩
      cases joined with
      | error message =>
        have hfailed : Looped reason ctx n k' (⟨.joinNext, .error message⟩ :: trace') :=
          h.cons _ rfl (fun _ => rfl) (fun _ _ _ heq => by cases heq) fun heq => by cases heq
        exact hfailed.concludes _
      | ok result =>
        obtain ⟨index, r⟩ := result
        have h := h.join (r := r) hjoined.2
        simp only [Batch.joined]
        split
        · split
          · exact counts_complete h hk
          · exact counts_quiet h trivial (fun _ => rfl) (fun _ _ => rfl) (fun _ _ heq => by cases heq)
              (fun _ heq => by cases heq) fun _ _ h => counts_complete h hk
        · exact ih h hk

end

end LambdaDurable
