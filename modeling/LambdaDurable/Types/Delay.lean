import LambdaDurable.Types.Operation
import Mathlib.Data.List.ReduceOption

/-! # Sums of durations and the delays of updates -/

namespace LambdaDurable

namespace Duration

/-- `to_seconds` in the machine's own 64-bit arithmetic. -/
def toSecondsU64 (d : Duration) : UInt64 :=
  d.seconds.toUInt64 + d.minutes.toUInt64 * 60 + d.hours.toUInt64 * 3600 + d.days.toUInt64 * 86400

theorem toSeconds_lt (d : Duration) : d.toSeconds < 2 ^ 49 := by
  have hdays := d.days.toNat_lt
  have hhours := d.hours.toNat_lt
  have hminutes := d.minutes.toNat_lt
  have hseconds := d.seconds.toNat_lt
  simp only [toSeconds]
  omega

theorem toSecondsU64_toNat (d : Duration) : d.toSecondsU64.toNat = d.toSeconds := by
  have hdays := d.days.toNat_lt
  have hhours := d.hours.toNat_lt
  have hminutes := d.minutes.toNat_lt
  have hseconds := d.seconds.toNat_lt
  simp only [toSecondsU64, toSeconds, UInt64.toNat_add, UInt64.toNat_mul, UInt32.toNat_toUInt64,
    UInt64.reduceToNat]
  omega

/-- `u64::saturating_add` -/
def saturatingAdd (x y : UInt64) : UInt64 :=
  if x.toNat + y.toNat < UInt64.size then x + y else 18446744073709551615

/-- `u32::MAX as u64 * 86_400 + 23 * 3_600 + 59 * 60 + 59` -/
def maxTotalSeconds : UInt64 := 4294967295 * 86400 + 23 * 3600 + 59 * 60 + 59

/-- The fields `Add` computes from its total; `as u32` keeps the low 32 bits. -/
def ofTotalSeconds (total : UInt64) : Duration where
  days := (total / 86400).toUInt32
  hours := (total % 86400 / 3600).toUInt32
  minutes := (total % 3600 / 60).toUInt32
  seconds := (total % 60).toUInt32

def totalSeconds (a b : Duration) : UInt64 :=
  min (saturatingAdd a.toSecondsU64 b.toSecondsU64) maxTotalSeconds

instance : Add Duration := ⟨fun a b => ofTotalSeconds (totalSeconds a b)⟩

theorem add_eq (a b : Duration) : a + b = ofTotalSeconds (totalSeconds a b) := rfl

theorem saturatingAdd_toNat {x y : UInt64} (h : x.toNat + y.toNat < UInt64.size) :
    (saturatingAdd x y).toNat = x.toNat + y.toNat := by
  rw [saturatingAdd, if_pos h, UInt64.toNat_add]
  exact Nat.mod_eq_of_lt h

theorem maxTotalSeconds_toNat : maxTotalSeconds.toNat = 371085174374399 := by decide

theorem totalSeconds_toNat (a b : Duration) :
    (totalSeconds a b).toNat = min (a.toSeconds + b.toSeconds) maxTotalSeconds.toNat := by
  have ha := a.toSeconds_lt
  have hb := b.toSeconds_lt
  have hsum : (saturatingAdd a.toSecondsU64 b.toSecondsU64).toNat = a.toSeconds + b.toSeconds := by
    rw [saturatingAdd_toNat, toSecondsU64_toNat, toSecondsU64_toNat]
    rw [toSecondsU64_toNat, toSecondsU64_toNat, UInt64.size]
    omega
  rw [totalSeconds, ← hsum, Nat.min_def, ← apply_ite UInt64.toNat]
  rfl

theorem totalSeconds_le (a b : Duration) : (totalSeconds a b).toNat ≤ maxTotalSeconds.toNat := by
  rw [totalSeconds_toNat]
  exact min_le_right _ _

/-- What each field of a duration within the bound is: no division is narrowed. -/
theorem ofTotalSeconds_fields {total : UInt64} (h : total.toNat ≤ maxTotalSeconds.toNat) :
    (ofTotalSeconds total).days.toNat = total.toNat / 86400 ∧
      (ofTotalSeconds total).hours.toNat = total.toNat % 86400 / 3600 ∧
      (ofTotalSeconds total).minutes.toNat = total.toNat % 3600 / 60 ∧
      (ofTotalSeconds total).seconds.toNat = total.toNat % 60 := by
  rw [maxTotalSeconds_toNat] at h
  simp only [ofTotalSeconds, UInt64.toNat_toUInt32, UInt64.toNat_div, UInt64.toNat_mod,
    UInt64.reduceToNat]
  omega

theorem ofTotalSeconds_toSeconds {total : UInt64} (h : total.toNat ≤ maxTotalSeconds.toNat) :
    (ofTotalSeconds total).toSeconds = total.toNat := by
  obtain ⟨hdays, hhours, hminutes, hseconds⟩ := ofTotalSeconds_fields h
  rw [toSeconds, hdays, hhours, hminutes, hseconds]
  omega

theorem add_toSeconds (a b : Duration) :
    (a + b).toSeconds = min (a.toSeconds + b.toSeconds) maxTotalSeconds.toNat := by
  rw [add_eq, ofTotalSeconds_toSeconds (totalSeconds_le a b), totalSeconds_toNat]

structure Normalized (d : Duration) : Prop where
  hours : d.hours < 24
  minutes : d.minutes < 60
  seconds : d.seconds < 60

theorem add_normalized (a b : Duration) : (a + b).Normalized := by
  obtain ⟨-, hhours, hminutes, hseconds⟩ := ofTotalSeconds_fields (totalSeconds_le a b)
  rw [← add_eq] at hhours hminutes hseconds
  constructor <;> rw [UInt32.lt_iff_toNat_lt]
  · exact hhours ▸ by simp only [UInt32.reduceToNat]; omega
  · exact hminutes ▸ by simp only [UInt32.reduceToNat]; omega
  · exact hseconds ▸ by simp only [UInt32.reduceToNat]; omega

theorem add_comm (a b : Duration) : a + b = b + a := by
  have htotal : totalSeconds a b = totalSeconds b a := by
    apply UInt64.toNat_inj.mp
    rw [totalSeconds_toNat, totalSeconds_toNat, Nat.add_comm]
  rw [add_eq, add_eq, htotal]

theorem add_assoc (a b c : Duration) : a + b + c = a + (b + c) := by
  have htotal : totalSeconds (a + b) c = totalSeconds a (b + c) := by
    apply UInt64.toNat_inj.mp
    rw [totalSeconds_toNat, totalSeconds_toNat, add_toSeconds, add_toSeconds]
    omega
  rw [add_eq, htotal, ← add_eq]

theorem toSecondsI32Saturating_eq (d : Duration) :
    d.toSecondsI32Saturating = (min d.toSeconds i32Max : Nat) := by
  simp only [toSecondsI32Saturating, min_def]
  split <;> split <;> omega

theorem toSecondsI32Saturating_le_of_le {a b : Duration} (h : a.toSeconds ≤ b.toSeconds) :
    a.toSecondsI32Saturating ≤ b.toSecondsI32Saturating := by
  rw [toSecondsI32Saturating_eq, toSecondsI32Saturating_eq, Int.ofNat_le]
  exact min_le_min_right _ h

end Duration

namespace OperationUpdate

/-- Every delay in the options of an update. -/
def delays (u : OperationUpdate) : List Int :=
  [u.stepOptions.bind (·.nextAttemptDelaySeconds), u.waitOptions.bind (·.waitSeconds),
    u.callbackOptions.bind (·.timeoutSeconds),
    u.callbackOptions.bind (·.heartbeatTimeoutSeconds)].reduceOption

/-- With no negative delay only the function's name can be refused. -/
theorem build_of_delays {u : OperationUpdate} (h : ∀ secs ∈ u.delays, 0 ≤ secs) :
    u.build = if u.chainedInvokeOptions.any fun o => blank o.functionName then
      .error "function_name must not be empty" else .ok u := by
  have hnone : ∀ secs : Option Int, (∀ n ∈ secs, n ∈ u.delays) → secs.any (· < 0) = false := by
    intro secs hmem
    cases secs with
    | none => rfl
    | some n => simpa using h n (hmem n rfl)
  have hdelay : ∀ secs ∈ [u.stepOptions.bind (·.nextAttemptDelaySeconds),
      u.waitOptions.bind (·.waitSeconds), u.callbackOptions.bind (·.timeoutSeconds),
      u.callbackOptions.bind (·.heartbeatTimeoutSeconds)], secs.any (· < 0) = false := by
    intro secs hmem
    apply hnone
    rintro n rfl
    exact List.reduceOption_mem_iff.mpr hmem
  rw [build, hdelay _ (by simp), hdelay _ (by simp), hdelay _ (by simp), hdelay _ (by simp)]
  simp

end OperationUpdate

namespace Duration

/-- Sums saturate exactly, and the delay of an update is exact up to the service's bound. -/
theorem add_saturates (a b c : Duration) :
    (a.toSecondsU64.toNat = a.toSeconds ∧ a.toSeconds + b.toSeconds < UInt64.size) ∧
      (a + b).toSeconds = min (a.toSeconds + b.toSeconds) maxTotalSeconds.toNat ∧
      ((a + b).days.toNat = (totalSeconds a b).toNat / 86400 ∧
        (a + b).hours.toNat = (totalSeconds a b).toNat % 86400 / 3600 ∧
        (a + b).minutes.toNat = (totalSeconds a b).toNat % 3600 / 60 ∧
        (a + b).seconds.toNat = (totalSeconds a b).toNat % 60) ∧
      (a + b).Normalized ∧ a + b = b + a ∧ a + b + c = a + (b + c) ∧
      a.toSecondsI32Saturating = (min a.toSeconds i32Max : Nat) ∧
      (a.toSeconds ≤ b.toSeconds → a.toSecondsI32Saturating ≤ b.toSecondsI32Saturating) ∧
      0 ≤ a.toSecondsI32Saturating ∧
      ∀ u : OperationUpdate, (∀ secs ∈ u.delays, ∃ d : Duration, secs = d.toSecondsI32Saturating) →
        u.build = if u.chainedInvokeOptions.any fun o => blank o.functionName then
          .error "function_name must not be empty" else .ok u := by
  have ha := a.toSeconds_lt
  have hb := b.toSeconds_lt
  have hsize : UInt64.size = 18446744073709551616 := rfl
  have hwide : a.toSeconds + b.toSeconds < UInt64.size := by omega
  refine ⟨⟨a.toSecondsU64_toNat, hwide⟩, add_toSeconds a b, ?_, add_normalized a b, add_comm a b,
    add_assoc a b c, a.toSecondsI32Saturating_eq, toSecondsI32Saturating_le_of_le,
    a.toSecondsI32Saturating_nonneg, ?_⟩
  · exact ofTotalSeconds_fields (totalSeconds_le a b)
  · intro u h
    apply OperationUpdate.build_of_delays
    intro secs hsecs
    obtain ⟨d, rfl⟩ := h secs hsecs
    exact d.toSecondsI32Saturating_nonneg

def fiveSecondWait : OperationUpdate where
  id := "op-1"
  operationType := .wait
  action := .start
  waitOptions := some { waitSeconds := some (ofSeconds 5).toSecondsI32Saturating }

theorem add_saturates_waiting :
    (ofSeconds 5).toSecondsI32Saturating ≤ (Duration.mk 4294967295 24 60 60).toSecondsI32Saturating ∧
      fiveSecondWait.build = .ok fiveSecondWait := by
  obtain ⟨-, -, -, -, -, -, -, hmono, -, hbuild⟩ :=
    add_saturates (ofSeconds 5) (Duration.mk 4294967295 24 60 60) zero
  have hdelays : fiveSecondWait.delays = [(ofSeconds 5).toSecondsI32Saturating] := rfl
  constructor
  · exact hmono (by decide)
  · rw [hbuild]
    · rfl
    · intro secs hsecs
      rw [hdelays, List.mem_singleton] at hsecs
      exact ⟨ofSeconds 5, hsecs⟩

end Duration

end LambdaDurable
