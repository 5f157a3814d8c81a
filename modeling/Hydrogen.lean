import Hydrogen.Lib.Machine
import Hydrogen.Lib.Quiesce
import Hydrogen.Lib.Simulation
import Hydrogen.Lib.DequeProg
import Hydrogen.Lib.ExtRat
import Hydrogen.Lib.Rounding
import Hydrogen.Lib.StdAlgorithm
import Hydrogen.Lib.LittleEndian
import Hydrogen.Lib.Exec
import Hydrogen.Lib.WordDiv
import Hydrogen.Lib.GradientDescent
import Hydrogen.Lib.DescentRate
import Hydrogen.Lib.Traced
import Hydrogen.Common.Message
import Hydrogen.Common.Wire
import Hydrogen.Common.Requests
import Hydrogen.Common.Arith
import Hydrogen.Common.Job
import Hydrogen.Common.ConcurrentDeque
import Hydrogen.Scheduler.Allocations
import Hydrogen.Scheduler.Algs
import Hydrogen.Scheduler.Greedy
import Hydrogen.Scheduler.Trial
import Hydrogen.Scheduler.Grants
import Hydrogen.Scheduler.Score
import Hydrogen.Scheduler.ExactScore
import Hydrogen.Scheduler.Dispatch
import Hydrogen.Scheduler.System
import Hydrogen.Scheduler.Lifecycle
import Hydrogen.Scheduler.Resources
import Hydrogen.Scheduler.Rids
import Hydrogen.Scheduler.Fcfs
import Hydrogen.Scheduler.Wakeup
import Hydrogen.Scheduler.ReadyQueue
import Hydrogen.Scheduler.PickOrder
import Hydrogen.Scheduler.Demands
import Hydrogen.Scheduler.BestScore
import Hydrogen.Scheduler.Elasticity
import Hydrogen.Scheduler.RunJob
import Hydrogen.Scheduler.Payload
import Hydrogen.Scheduler.Rounds
import Hydrogen.Scheduler.Drain
import Hydrogen.Scheduler.Statistics
import Hydrogen.Scheduler.Growth
import Hydrogen.Scheduler.Service
import Hydrogen.Scheduler.Workers
import Hydrogen.Scheduler.Starvation
import Hydrogen.Scheduler.Shutdown
import Hydrogen.Scheduler.ShutdownRests
import Hydrogen.Net.Connection
import Hydrogen.Net.Session
import Hydrogen.Net.Framing
import Hydrogen.Net.Client
import Hydrogen.Net.Conversation
import Hydrogen.Dispatcher.MovingAverage
import Hydrogen.Dispatcher.Server
import Hydrogen.Executor.PerfModel
import Hydrogen.Executor.Training
import Hydrogen.Executor.Regression
import Hydrogen.Executor.Convergence
import Hydrogen.Executor.Task
import Hydrogen.Executor.Hop
import Hydrogen.Executor.ByteCounts
import Hydrogen.Executor.Feedback
import Hydrogen.Scheduler.EndToEnd
