import LambdaDurable.Types.Batch

/-!
# A batch without failures goes on

The percentage of failures is computed in floating point. Without a failure it is zero, or no
number when the count of the items is none either, and no percentage that was accepted is
below it.
-/

namespace LambdaDurable

open Float.Model

def vanishes : UnpackedFloat → Bool
  | .zero _ | .notANumber => true
  | _ => false

theorem vanishes_pack {f : UnpackedFloat} (h : vanishes f = true) :
    vanishes (pack f).unpack = true := by
  match f, h with
  | .notANumber, _ => decide
  | .zero .positive, _ => decide
  | .zero .negative, _ => decide

theorem vanishes_div (format : Format) {f : UnpackedFloat} (h : vanishes f = true)
    (g : UnpackedFloat) : vanishes (f.div format g) = true := by
  match f, g, h with
  | .notANumber, _, _ => rfl
  | .zero _, .notANumber, _ | .zero _, .infinity _, _ | .zero _, .finite .., _ | .zero _, .zero _, _ =>
    rfl

theorem vanishes_mul (format : Format) {f : UnpackedFloat} (h : vanishes f = true)
    (g : UnpackedFloat) : vanishes (f.mul format g) = true := by
  match f, g, h with
  | .notANumber, _, _ => rfl
  | .zero _, .notANumber, _ | .zero _, .infinity _, _ | .zero _, .finite .., _ | .zero _, .zero _, _ =>
    rfl

theorem not_lt_of_le {z f g : UnpackedFloat} (hz : vanishes z = true) (hf : vanishes f = true)
    (h : z.le g = true) : g.lt f = false := by
  match z, f, g, hz, hf, h with
  | .zero _, .notANumber, .notANumber, _, _, h => cases h
  | .zero _, .notANumber, .infinity .positive, _, _, _ => rfl
  | .zero _, .notANumber, .zero _, _, _, _ => rfl
  | .zero _, .notANumber, .finite .positive .., _, _, _ => rfl
  | .zero _, .zero _, .infinity .positive, _, _, _ => rfl
  | .zero _, .zero _, .zero _, _, _, _ => rfl
  | .zero _, .zero _, .finite .positive .., _, _, _ => rfl
  | .zero _, _, .infinity .negative, _, _, h => cases h
  | .zero _, _, .finite .negative .., _, _, h => cases h
  | .notANumber, _, _, _, _, h => cases h

theorem not_exceeded {p : Float} (h : (0.0 : Float) ≤ p) (n : Nat) :
    ¬ Float.ofNat 0 / Float.ofNat n * 100.0 > p := by
  have hzero : vanishes (0.0 : Float).toModel.unpack = true := by decide
  have hnone : vanishes (Float.ofNat 0).toModel.unpack = true := by decide
  have hpct : vanishes (Float.ofNat 0 / Float.ofNat n * 100.0 : Float).toModel.unpack = true :=
    vanishes_pack (vanishes_mul _ (vanishes_pack (vanishes_div _ hnone _)) _)
  have hle : (0.0 : Float).toModel.unpack.le p.toModel.unpack = true := by
    change (0.0 : Float).le p = true at h
    exact of_decide_eq_true h
  intro hgt
  change p.lt (Float.ofNat 0 / Float.ofNat n * 100.0) = true at hgt
  have hlt : p.toModel.unpack.lt (Float.ofNat 0 / Float.ofNat n * 100.0 : Float).toModel.unpack = true :=
    of_decide_eq_true hgt
  rw [not_lt_of_le hzero hpct hle] at hlt
  cases hlt

namespace CompletionConfig

variable {config : CompletionConfig} {n : Nat} {operationName : String}

theorem percentage_nonneg (h : config.validateCompletionConfig n operationName = .ok ())
    {pct : Percentage} (hpct : config.toleratedFailurePercentage = some pct) :
    (0.0 : Float) ≤ pct.value := by
  by_contra hnot
  unfold validateCompletionConfig at h
  rw [hpct] at h
  simp only [hnot, decide_false, Bool.false_and, Bool.not_false, Bool.or_true, if_true] at h
  cases config.minSuccessful <;> cases config.toleratedFailureCount <;>
    simp [bind, Except.bind, throw, throwThe, MonadExceptOf.throw] at h <;>
    grind

theorem shouldContinueBatch_zero (h : config.validateCompletionConfig n operationName = .ok ()) :
    config.shouldContinueBatch 0 n = true := by
  unfold shouldContinueBatch
  split
  · rfl
  · cases hpct : config.toleratedFailurePercentage with
    | none => simp
    | some pct => simp [not_exceeded (percentage_nonneg h hpct)]

/-- More failures than are tolerated: any, where the configuration says nothing. The limit is
the percentage as a rational number. -/
def toleranceExceeded (config : CompletionConfig) (limit : Rat) (failures n : Nat) : Bool :=
  if !config.hasCompletionCriteria then 0 < failures
  else config.toleratedFailureCount.any (failures > ·) ||
    (config.toleratedFailurePercentage.isSome && 0 < n && limit < (failures : Rat) / n * 100)

/-- The test in floating point is the test with rational numbers. -/
def Exact (config : CompletionConfig) (limit : Rat) (n : Nat) : Prop :=
  ∀ pct ∈ config.toleratedFailurePercentage, ∀ failures ≤ n,
    Float.ofNat failures / Float.ofNat n * 100.0 > pct.value ↔ limit < (failures : Rat) / n * 100

theorem shouldContinueBatch_eq {limit : Rat} (h : config.Exact limit n) {failures : Nat}
    (hle : failures ≤ n) :
    config.shouldContinueBatch failures n = !config.toleranceExceeded limit failures n := by
  unfold shouldContinueBatch toleranceExceeded
  split
  · cases failures <;> simp
  · cases hpct : config.toleratedFailurePercentage with
    | none =>
      cases config.toleratedFailureCount.any (failures > ·) <;> simp
    | some pct =>
      have hiff := h pct hpct failures hle
      cases config.toleratedFailureCount.any (failures > ·) <;> simp [hiff]

end CompletionConfig

end LambdaDurable
