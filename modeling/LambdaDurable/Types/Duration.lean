import Mathlib.Data.UInt

/-! # Durations of waits and retry delays -/

namespace LambdaDurable

structure Duration where
  days : UInt32 := 0
  hours : UInt32 := 0
  minutes : UInt32 := 0
  seconds : UInt32 := 0
  deriving DecidableEq, Repr

namespace Duration

def zero : Duration := {}

def ofSeconds (s : UInt32) : Duration := { seconds := s }

def toSeconds (d : Duration) : Nat :=
  d.seconds.toNat + d.minutes.toNat * 60 + d.hours.toNat * 3600 + d.days.toNat * 86400

def i32Max : Nat := 2147483647

/-- The saturated value of `to_seconds`, as the signed number the service takes. -/
def toSecondsI32Saturating (d : Duration) : Int :=
  if d.toSeconds > i32Max then i32Max else d.toSeconds

theorem toSecondsI32Saturating_nonneg (d : Duration) : 0 ≤ d.toSecondsI32Saturating := by
  unfold toSecondsI32Saturating
  split <;> exact Int.natCast_nonneg _

def isZero (d : Duration) : Bool :=
  d.days == 0 && d.hours == 0 && d.minutes == 0 && d.seconds == 0

def plural (n : UInt32) : String := if n = 1 then "" else "s"

def display (d : Duration) : String :=
  let parts := if d.days > 0 then [s!"{d.days} day{plural d.days}"] else []
  let parts := if d.hours > 0 then parts ++ [s!"{d.hours} hour{plural d.hours}"] else parts
  let parts := if d.minutes > 0 then parts ++ [s!"{d.minutes} minute{plural d.minutes}"] else parts
  let parts := if d.seconds > 0 ∨ parts.isEmpty then parts ++ [s!"{d.seconds} second{plural d.seconds}"]
    else parts
  ", ".intercalate parts

end Duration

end LambdaDurable
