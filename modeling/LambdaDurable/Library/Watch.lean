import Mathlib.Data.Option.Basic

/-!
# Watch channels

One value with a version that every send increases. A receiver keeps the version it has seen
last, and a clone of it starts from there, however much later it is made.
-/

namespace Watch

universe u

structure Channel (α : Type u) where
  value : α
  version : Nat := 0

structure Receiver where
  seen : Nat := 0
  deriving DecidableEq, Repr

variable {α : Type u}

namespace Channel

def send (c : Channel α) (a : α) : Channel α := { value := a, version := c.version + 1 }

/-- `changed` returns at a version that the receiver has not seen, and marks it as seen. -/
def changed (c : Channel α) (r : Receiver) : Option Receiver :=
  if r.seen = c.version then none else some { seen := c.version }

theorem changed_eq_some_iff {c : Channel α} {r r' : Receiver} :
    c.changed r = some r' ↔ r.seen ≠ c.version ∧ r'.seen = c.version := by
  obtain ⟨seen⟩ := r'
  simp only [changed, Option.ite_none_left_eq_some, Option.some.injEq, Receiver.mk.injEq]
  constructor <;> rintro ⟨hne, h⟩ <;> exact ⟨hne, h.symm⟩

/-- No receiver misses a send. -/
theorem changed_send {c : Channel α} {r : Receiver} (h : r.seen ≤ c.version) (a : α) :
    (c.send a).changed r = some { seen := c.version + 1 } := by
  apply if_neg
  simp only [send]
  omega

end Channel

end Watch
