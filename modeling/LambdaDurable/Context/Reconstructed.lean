import LambdaDurable.Context.Await
import LambdaDurable.Context.Ending

/-!
# A batch put together from the records of its children

Nobody else draws from the counter of the batch, so the replay looks up the records of the
children that were started, and each item is what the record of its child says.
-/

namespace LambdaDurable

open Effects Call Tasks

variable {V I T : Type}

namespace Batch

/-- The item of the child with this index, from the record of its ID. -/
def RestoredItem (loaded : Table) (ctx : ExecutionContext) (codec : Codec V) (n : Nat)
    (trace : List (Event V)) (child : String × Nat) (item : BatchItem V) : Prop :=
  Restored loaded ctx codec trace (ctx.operationId (some child.1) (n + 1 + child.2)) child.2 item

/-- The number drawn is `n`, and the flag is read as replay. -/
structure Replays (n : Nat) (trace : List (Event V)) : Prop where
  number : DrawsOnly n trace
  mode : ∀ mode, ⟨.getMode, mode⟩ ∈ trace → mode = .replay

theorem Replays.earlier {n : Nat} (event : Event V) (trace : List (Event V))
    (h : Replays n (event :: trace)) : Replays n trace where
  number := h.number.earlier
  mode mode hmem := h.mode mode (List.mem_cons_of_mem _ hmem)

section

variable {loaded : Table} {spec : BatchSpec} {ctx : ExecutionContext} {name : Option String}
  {cfg : BatchConfig V} {itemNames : List String} {trace trace' : List (Event V)} {n k : Nat}
  {good : Prop} {children done : List (String × Nat)} {p : Progress V}

theorem RestoredItem.later {codec : Codec V} {child : String × Nat} {item : BatchItem V}
    (h : RestoredItem loaded ctx codec n trace child item) (hsub : trace ⊆ trace') :
    RestoredItem loaded ctx codec n trace' child item := by
  cases h with
  | value hop hstatus hplain hvalue => exact .value hop hstatus hplain hvalue
  | rerun hop hstatus hreplay hmem => exact .rerun hop hstatus hreplay (hsub hmem)
  | failed hop hstatus => exact .failed hop hstatus
  | started hop hsucceeded hfailed => exact .started hop hsucceeded hfailed

theorem RestoredItem.index_eq {codec : Codec V} (child : String × Nat) (item : BatchItem V)
    (h : RestoredItem loaded ctx codec n trace child item) : item.index = child.2 :=
  Restored.index_eq h

end

end Batch

end LambdaDurable
