import LambdaDurable.Context.Logging

/-!
# The records an invocation starts from

The first page comes with the invocation, each further one from a call of the service with the
marker of the page before it. What the service answers is any function of the calls so far.
-/

namespace LambdaDurable

/-- A `HashMap<String, Operation>` whose keys are the IDs of its values. -/
structure StepData where
  operations : List Operation := []
  nodup : (operations.map (·.id)).Nodup := by simp

namespace StepData

def insert (d : StepData) (op : Operation) : StepData where
  operations := op :: d.operations.filter fun other => other.id ≠ op.id
  nodup := by
    rw [List.map_cons, List.nodup_cons]
    constructor
    · simp
    · exact (List.filter_sublist.map _).nodup d.nodup

def insertAll (d : StepData) (ops : List Operation) : StepData := ops.foldl insert d

def get (d : StepData) : Table := fun id => d.operations.find? (·.id = id)

def len (d : StepData) : Nat := d.operations.length

theorem get_insert (d : StepData) (op : Operation) : (d.insert op).get = d.get.insert op := by
  funext id
  rw [Table.insert_apply]
  by_cases hid : op.id = id
  · simp [get, insert, hid]
  · have hfilter : ∀ other : Operation, other.id = id → other.id ≠ op.id := by grind
    simp only [get, insert, List.find?_cons, hid, decide_false, if_neg (Ne.symm hid),
      List.find?_filter]
    congr 1
    funext other
    by_cases hother : other.id = id
    · simp [hother, Ne.symm hid]
    · simp [hother]

theorem get_insertAll (d : StepData) (ops : List Operation) :
    (d.insertAll ops).get = d.get.insertAll ops := by
  induction ops generalizing d with
  | nil => rfl
  | cons op ops ih => exact (ih (d.insert op)).trans (congrArg (·.insertAll ops) (get_insert d op))

theorem insertAll_append (d : StepData) (ops ops' : List Operation) :
    d.insertAll (ops ++ ops') = (d.insertAll ops).insertAll ops' := List.foldl_append

theorem get_isSome_iff {d : StepData} {id : String} :
    (d.get id).isSome ↔ id ∈ d.operations.map (·.id) := by
  simp [get]

/-- The length of the table is the number of IDs that have a record. -/
theorem one_lt_len_iff {d : StepData} :
    1 < d.len ↔ ∃ i j, i ≠ j ∧ (d.get i).isSome ∧ (d.get j).isSome := by
  have hcard := List.toFinset_card_of_nodup d.nodup
  rw [List.length_map] at hcard
  rw [len, ← hcard, Finset.one_lt_card]
  simp only [List.mem_toFinset, get_isSome_iff]
  constructor
  · rintro ⟨i, hi, j, hj, hne⟩
    exact ⟨i, j, hne, hi, hj⟩
  · rintro ⟨i, j, hne, hi, hj⟩
    exact ⟨i, hi, j, hj, hne⟩

end StepData

/-- Of several records of an operation the last one stays. -/
theorem Table.insertAll_eq_find? (t : Table) (ops : List Operation) (id : String) :
    t.insertAll ops id = (ops.reverse.find? (·.id = id)).or (t id) := by
  induction ops generalizing t with
  | nil => rfl
  | cons op ops ih =>
    have hstep : t.insertAll (op :: ops) = (t.insert op).insertAll ops := rfl
    rw [hstep, ih, Table.insert_apply, List.reverse_cons, List.find?_append, Option.or_assoc]
    by_cases hid : op.id = id
    · simp [hid]
    · simp [hid, Ne.symm hid]

/-- `InitialExecutionState` and `GetStateResponse` -/
structure StatePage where
  operations : List Operation
  nextMarker : Option String := none

structure GetStateRequest where
  durableExecutionArn : String
  checkpointToken : String
  marker : String
  maxItems : Nat
  deriving DecidableEq

structure DurableExecutionInvocationInput where
  durableExecutionArn : String
  checkpointToken : String
  initialExecutionState : StatePage

/-- `get_durable_execution_state` answers the last of the requests. -/
abbrev GetState := List GetStateRequest → Except DurableError StatePage

def getStateMaxItems : Nat := 1000

def getStateMaxPages : Nat := 1000

/-- What all contexts of an invocation share when it starts. -/
structure SharedState where
  stepData : StepData
  mode : ExecutionMode
  checkpointManager : CheckpointManager.State

namespace ExecutionContext

/-- The loop variables of `new`, and the requests so far. -/
structure Paging where
  stepData : StepData := {}
  nextMarker : Option String
  pages : Nat := 0
  requests : List GetStateRequest := []

def nonEmpty (marker : Option String) : Option String := marker.filter (!·.isEmpty)

def exceededPages : DurableError :=
  .invalidConfiguration "Exceeded max durable execution state pages while paging operations"

variable (service : GetState) (input : DurableExecutionInvocationInput)

def request (marker : String) : GetStateRequest where
  durableExecutionArn := input.durableExecutionArn
  checkpointToken := input.checkpointToken
  marker := marker
  maxItems := getStateMaxItems

def fetchPages (s : Paging) : Except DurableError StepData × List GetStateRequest :=
  match s.nextMarker with
  | none => (.ok s.stepData, s.requests)
  | some marker =>
    if s.pages + 1 > getStateMaxPages then (.error exceededPages, s.requests)
    else
      match service (s.requests ++ [request input marker]) with
      | .error e => (.error e, s.requests ++ [request input marker])
      | .ok response =>
        fetchPages { stepData := s.stepData.insertAll response.operations
                     nextMarker := nonEmpty response.nextMarker
                     pages := s.pages + 1
                     requests := s.requests ++ [request input marker] }
termination_by getStateMaxPages - s.pages

/-- The rest of `new`, with the table cloned for the checkpoint manager. -/
def share (stepData : StepData) : SharedState where
  stepData := stepData
  mode := if stepData.len > 1 then .replay else .execution
  checkpointManager := .new input.checkpointToken stepData.get

def firstPaging : Paging where
  stepData := ({} : StepData).insertAll input.initialExecutionState.operations
  nextMarker := nonEmpty input.initialExecutionState.nextMarker

def new : Except DurableError SharedState × List GetStateRequest :=
  (fetchPages service input (firstPaging input)).map (·.map (share input)) id

/-! ## What is fetched -/

/-- The request for what the service still has after the first page and `pages`. -/
def remaining (pages : List StatePage) : Option GetStateRequest :=
  (nonEmpty (pages.getLastD input.initialExecutionState).nextMarker).map (request input)

/-- The service has answered `requests` with `pages`, each asked for by the page before it. -/
inductive Fetched : List GetStateRequest → List StatePage → Prop
  | start : Fetched [] []
  | fetch {requests : List GetStateRequest} {pages : List StatePage} {next : GetStateRequest}
      {page : StatePage} (h : Fetched requests pages) (hnext : remaining input pages = some next)
      (hpage : service (requests ++ [next]) = .ok page) : Fetched (requests ++ [next]) (pages ++ [page])

/-- The records of the first page and of `pages`, in order. -/
def records (pages : List StatePage) : List Operation :=
  input.initialExecutionState.operations ++ pages.flatMap (·.operations)

/-- How `new` ends, and the requests it has made by then. -/
inductive Ended : Except DurableError SharedState → List GetStateRequest → Prop
  -- no marker is left
  | loaded {requests : List GetStateRequest} {pages : List StatePage} {shared : SharedState}
      (h : Fetched service input requests pages) (hbound : pages.length ≤ getStateMaxPages)
      (hlast : remaining input pages = none)
      (htable : ∀ id, shared.stepData.get id = (records input pages).reverse.find? (·.id = id))
      (hcopy : shared.checkpointManager.stepData = shared.stepData.get)
      (hmode : shared.mode = .replay ↔ ∃ i j, i ≠ j ∧ (shared.stepData.get i).isSome ∧
        (shared.stepData.get j).isSome) : Ended (.ok shared) requests
  -- a marker is left after as many calls as are allowed
  | exceeded {requests : List GetStateRequest} {pages : List StatePage} {next : GetStateRequest}
      (h : Fetched service input requests pages) (hbound : pages.length = getStateMaxPages)
      (hnext : remaining input pages = some next) : Ended (.error exceededPages) requests
  -- a call fails
  | failed {requests : List GetStateRequest} {pages : List StatePage} {next : GetStateRequest}
      {e : DurableError} (h : Fetched service input requests pages)
      (hbound : pages.length < getStateMaxPages) (hnext : remaining input pages = some next)
      (herror : service (requests ++ [next]) = .error e) : Ended (.error e) (requests ++ [next])

variable {service : GetState} {input : DurableExecutionInvocationInput}

theorem Fetched.length_eq {requests : List GetStateRequest} {pages : List StatePage}
    (h : Fetched service input requests pages) : requests.length = pages.length := by
  induction h with
  | start => rfl
  | fetch _ _ _ ih => simp [ih]

theorem Ended.length_le {result : Except DurableError SharedState}
    {requests : List GetStateRequest} (h : Ended service input result requests) :
    requests.length ≤ getStateMaxPages := by
  cases h with
  | loaded h hbound => exact h.length_eq.trans_le hbound
  | exceeded h hbound => exact (h.length_eq.trans hbound).le
  | failed h hbound =>
    rw [List.length_append, h.length_eq]
    exact hbound

/-- The loop variables after `pages`. -/
structure Reached (service : GetState) (input : DurableExecutionInvocationInput) (s : Paging)
    (pages : List StatePage) : Prop where
  fetched : Fetched service input s.requests pages
  pages_eq : s.pages = pages.length
  bound : pages.length ≤ getStateMaxPages
  next : s.nextMarker.map (request input) = remaining input pages
  stepData : s.stepData = ({} : StepData).insertAll (records input pages)

theorem reached_first : Reached service input (firstPaging input) [] where
  fetched := .start
  pages_eq := rfl
  bound := Nat.zero_le _
  next := rfl
  stepData := by simp [firstPaging, records]

theorem Reached.fetch {s : Paging} {pages : List StatePage} {marker : String} {page : StatePage}
    (h : Reached service input s pages) (hmarker : s.nextMarker = some marker)
    (hpages : ¬ s.pages + 1 > getStateMaxPages)
    (hpage : service (s.requests ++ [request input marker]) = .ok page) :
    Reached service input { stepData := s.stepData.insertAll page.operations
                            nextMarker := nonEmpty page.nextMarker
                            pages := s.pages + 1
                            requests := s.requests ++ [request input marker] }
      (pages ++ [page]) where
  fetched := by
    have hnext := h.next
    rw [hmarker, Option.map_some] at hnext
    exact h.fetched.fetch hnext.symm hpage
  pages_eq := by simp [h.pages_eq]
  bound := by
    rw [h.pages_eq] at hpages
    simpa using hpages
  next := by simp [remaining]
  stepData := by
    rw [h.stepData, ← StepData.insertAll_append]
    simp [records]

theorem get_insertAll_empty (ops : List Operation) (id : String) :
    (({} : StepData).insertAll ops).get id = ops.reverse.find? (·.id = id) := by
  rw [StepData.get_insertAll, Table.insertAll_eq_find?]
  exact Option.or_none

theorem share_mode {d : StepData} : (share input d).mode = .replay ↔
    ∃ i j, i ≠ j ∧ (d.get i).isSome ∧ (d.get j).isSome := by
  rw [← StepData.one_lt_len_iff, share]
  split <;> simp_all

theorem fetchPages_ends {s : Paging} {pages : List StatePage} (h : Reached service input s pages) :
    Ended service input ((fetchPages service input s).1.map (share input))
      (fetchPages service input s).2 := by
  fun_induction fetchPages service input s generalizing pages with
  | case1 s hmarker =>
    have hnext := h.next
    rw [hmarker, Option.map_none] at hnext
    refine .loaded h.fetched h.bound hnext.symm (fun id => ?_) rfl share_mode
    rw [← get_insertAll_empty, ← h.stepData]
    rfl
  | case2 s marker hmarker hpages =>
    have hnext := h.next
    rw [hmarker, Option.map_some] at hnext
    have hbound := h.bound
    rw [h.pages_eq] at hpages
    exact .exceeded h.fetched (by omega) hnext.symm
  | case3 s marker hmarker hpages e herror =>
    have hnext := h.next
    rw [hmarker, Option.map_some] at hnext
    rw [h.pages_eq] at hpages
    exact .failed h.fetched (by omega) hnext.symm herror
  | case4 s marker hmarker hpages page hpage ih => exact ih (h.fetch hmarker hpages hpage)

theorem len_insertAll (ops : List Operation) :
    (({} : StepData).insertAll ops).len = (ops.map (·.id)).dedup.length := by
  have hids : ((({} : StepData).insertAll ops).operations.map (·.id)).toFinset =
      (ops.map (·.id)).toFinset := by
    ext id
    rw [List.mem_toFinset, List.mem_toFinset, ← StepData.get_isSome_iff, get_insertAll_empty]
    simp
  rw [StepData.len, ← List.card_toFinset, ← hids, List.toFinset_card_of_nodup (StepData.nodup _),
    List.length_map]

/-- The run of an invocation that has read `pages` starts from their records. -/
theorem share_records (pages : List StatePage) {i : Logging.Input}
    (hoperations : i.operations = records input pages) (htoken : i.token = input.checkpointToken) :
    share input (({} : StepData).insertAll (records input pages)) =
      { stepData := ({} : StepData).insertAll (records input pages)
        mode := i.mode
        checkpointManager := .new i.token i.stepData } := by
  rw [share, Logging.Input.mode, Logging.Input.size, Logging.Input.stepData, hoperations, htoken,
    len_insertAll, StepData.get_insertAll]
  rfl

/-- Paging ends after at most `getStateMaxPages` calls, with the last record of every operation
or with an error. -/
theorem new_ended (service : GetState) (input : DurableExecutionInvocationInput) :
    Ended service input (new service input).1 (new service input).2 ∧
      (new service input).2.length ≤ getStateMaxPages :=
  have h : Ended service input (new service input).1 (new service input).2 :=
    fetchPages_ends reached_first
  ⟨h, h.length_le⟩

end ExecutionContext

end LambdaDurable
