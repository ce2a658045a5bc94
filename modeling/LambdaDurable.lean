import LambdaDurable.Library.Transition
import LambdaDurable.Library.Program
import LambdaDurable.Types.Operation
import LambdaDurable.Termination.Manager
import LambdaDurable.Checkpoint.Queue
import LambdaDurable.Checkpoint.Lifecycle
import LambdaDurable.Checkpoint.Manager
import LambdaDurable.Checkpoint.Move
import LambdaDurable.Library.ServedQueue
import LambdaDurable.Checkpoint.WakeUp
import LambdaDurable.Checkpoint.Durability
import LambdaDurable.Checkpoint.Token
import LambdaDurable.Checkpoint.Failure
import LambdaDurable.Runtime.Handler
import LambdaDurable.Runtime.Output
import LambdaDurable.Context.Effect
import LambdaDurable.Context.Serdes
import LambdaDurable.Context.Step
import LambdaDurable.Context.Wait
import LambdaDurable.Context.Callback
import LambdaDurable.Context.Invoke
import LambdaDurable.Context.Batch
import LambdaDurable.Checkpoint.Backend
import LambdaDurable.Context.Call
import LambdaDurable.Context.Operations
import LambdaDurable.Context.Pending
import LambdaDurable.Context.Await
import LambdaDurable.Checkpoint.Record
import LambdaDurable.Checkpoint.Stream
import LambdaDurable.Context.Ledger
import LambdaDurable.Context.Orders
import LambdaDurable.Context.Outcome
import LambdaDurable.Checkpoint.Handed
import LambdaDurable.Checkpoint.Stopped
import LambdaDurable.Context.Tree
import LambdaDurable.Types.BatchSerdes
import LambdaDurable.Types.Service
import LambdaDurable.Context.Surfaced
import LambdaDurable.Context.CallbackId
import LambdaDurable.Context.Placed
import LambdaDurable.Context.Parents
import LambdaDurable.Checkpoint.Descendants
import LambdaDurable.Context.Below
import LambdaDurable.Context.Progress
import LambdaDurable.Context.Replayed
import LambdaDurable.Context.Counters
import LambdaDurable.Context.Agreement
import LambdaDurable.Checkpoint.Merging
import LambdaDurable.Types.Tolerance
import LambdaDurable.Context.Schedule
import LambdaDurable.Context.Launches
import LambdaDurable.Context.Children
import LambdaDurable.Checkpoint.Standing
import LambdaDurable.Context.Executions
import LambdaDurable.Context.Budget
import LambdaDurable.Context.Condition
import LambdaDurable.Context.Values
import LambdaDurable.Context.Payloads
import LambdaDurable.Context.Waking
import LambdaDurable.Context.Logging
import LambdaDurable.Types.Delay
import LambdaDurable.Types.Iso8601
import LambdaDurable.Context.Paging
import LambdaDurable.Library.Watch
import LambdaDurable.Termination.Race
import LambdaDurable.Context.Classified
import LambdaDurable.Context.Follows
import LambdaDurable.Context.Synchronised
import LambdaDurable.Context.Recalled
import LambdaDurable.Context.Attempts
import LambdaDurable.Context.Ending
import LambdaDurable.Context.Reconstructed
import LambdaDurable.Context.Summaries
import LambdaDurable.Context.Leaf
import LambdaDurable.Library.Oracle
import LambdaDurable.Context.Sequential
import LambdaDurable.Context.Transparent
import LambdaDurable.Checkpoint.Due
import LambdaDurable.Context.Suspended
import LambdaDurable.Context.Anchored
import LambdaDurable.Checkpoint.Published
import LambdaDurable.Context.Resumable
import LambdaDurable.Runtime.DurableHandler
import LambdaDurable.Runtime.Flushed
import LambdaDurable.Library.Scheduling
import LambdaDurable.Checkpoint.Drained
