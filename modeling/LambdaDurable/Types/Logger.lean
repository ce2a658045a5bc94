/-! # Loggers -/

namespace LambdaDurable

inductive DurableLogLevel
  | debug | info | warn | error
  deriving DecidableEq, Repr

structure DurableLogData where
  durableExecutionArn : String
  operationId : Option String := none
  stepName : Option String := none
  attempt : Option Nat := none
  deriving DecidableEq, Repr

/-- The arguments of `DurableLogger::log`. -/
structure LogEntry where
  level : DurableLogLevel
  data : DurableLogData
  message : String
  fields : Option (List (String × String)) := none
  deriving DecidableEq, Repr

end LambdaDurable
