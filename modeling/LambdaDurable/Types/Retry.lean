import LambdaDurable.Types.Error
import Mathlib.Data.List.Infix

/-!
# Retry strategies

The delay of `ExponentialBackoff` is drawn at random in `calculate_delay`, and lower case is
Unicode's; both are parameters here.
-/

namespace LambdaDurable

structure RetryDecision where
  shouldRetry : Bool
  delay : Option Duration := none
  deriving DecidableEq, Repr

namespace RetryDecision

def retryAfter (delay : Duration) : RetryDecision := { shouldRetry := true, delay := some delay }

def retryImmediately : RetryDecision := { shouldRetry := true }

def noRetry : RetryDecision := { shouldRetry := false }

end RetryDecision

/-- The fields that `should_retry` reads itself. -/
structure ExponentialBackoff where
  maxAttempts : Nat := 3
  retryablePatterns : List String := []
  deriving DecidableEq, Repr

namespace ExponentialBackoff

def isErrorRetryable (strategy : ExponentialBackoff) (toLowercase : String → String)
    (error : BoxError) : Bool :=
  if strategy.retryablePatterns.isEmpty then true
  else strategy.retryablePatterns.any fun pattern =>
    decide ((toLowercase pattern).toList <:+: (toLowercase error.message).toList)

def shouldRetry (strategy : ExponentialBackoff) (toLowercase : String → String)
    (calculateDelay : Nat → Duration) (error : BoxError) (attemptsMade : Nat) : RetryDecision :=
  if attemptsMade ≥ strategy.maxAttempts then .noRetry
  else if !strategy.isErrorRetryable toLowercase error then .noRetry
  else .retryAfter (calculateDelay attemptsMade)

end ExponentialBackoff

structure FixedRetry where
  maxAttempts : Nat
  deriving DecidableEq, Repr

def FixedRetry.shouldRetry (strategy : FixedRetry) (_ : BoxError) (attemptsMade : Nat) :
    RetryDecision :=
  if attemptsMade < strategy.maxAttempts then .retryImmediately else .noRetry

structure ConstantDelay where
  maxAttempts : Nat
  delay : Duration
  deriving DecidableEq, Repr

def ConstantDelay.shouldRetry (strategy : ConstantDelay) (_ : BoxError) (attemptsMade : Nat) :
    RetryDecision :=
  if attemptsMade < strategy.maxAttempts then .retryAfter strategy.delay else .noRetry

/-- The strategies with a number of attempts. -/
inductive LimitedStrategy
  | exponentialBackoff (strategy : ExponentialBackoff)
  | fixedRetry (strategy : FixedRetry)
  | constantDelay (strategy : ConstantDelay)

namespace LimitedStrategy

def maxAttempts : LimitedStrategy → Nat
  | exponentialBackoff strategy => strategy.maxAttempts
  | fixedRetry strategy => strategy.maxAttempts
  | constantDelay strategy => strategy.maxAttempts

def shouldRetry (toLowercase : String → String) (calculateDelay : Nat → Duration)
    (error : BoxError) (attemptsMade : Nat) : LimitedStrategy → RetryDecision
  | exponentialBackoff strategy =>
    strategy.shouldRetry toLowercase calculateDelay error attemptsMade
  | fixedRetry strategy => strategy.shouldRetry error attemptsMade
  | constantDelay strategy => strategy.shouldRetry error attemptsMade

theorem lt_of_shouldRetry {strategy : LimitedStrategy} {toLowercase : String → String}
    {calculateDelay : Nat → Duration} {error : BoxError} {attemptsMade : Nat}
    (h : (strategy.shouldRetry toLowercase calculateDelay error attemptsMade).shouldRetry = true) :
    attemptsMade < strategy.maxAttempts := by
  by_contra hlast
  cases strategy with
  | exponentialBackoff strategy =>
    have hge : attemptsMade ≥ strategy.maxAttempts := Nat.le_of_not_lt hlast
    simp [shouldRetry, ExponentialBackoff.shouldRetry, hge, RetryDecision.noRetry] at h
  | fixedRetry strategy =>
    have hge : ¬ attemptsMade < strategy.maxAttempts := hlast
    simp [shouldRetry, FixedRetry.shouldRetry, hge, RetryDecision.noRetry] at h
  | constantDelay strategy =>
    have hge : ¬ attemptsMade < strategy.maxAttempts := hlast
    simp [shouldRetry, ConstantDelay.shouldRetry, hge, RetryDecision.noRetry] at h

end LimitedStrategy

end LambdaDurable
