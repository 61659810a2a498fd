import TinyCoro.Transition.Runs
import TinyCoro.Transition.Ledger
import TinyCoro.Comp.Channel
import TinyCoro.Comp.ChannelFifo
import TinyCoro.Comp.CondVar
import TinyCoro.Comp.MutexOwner
import TinyCoro.Comp.PcMoves
import TinyCoro.Comp.WaitGap
import TinyCoro.Comp.PredicateWait
import TinyCoro.Runtime.Context
import TinyCoro.Runtime.WaitCount
import TinyCoro.Runtime.IoCount
import TinyCoro.Runtime.RunExit
import TinyCoro.Runtime.OwnQueue
import TinyCoro.Runtime.WakeUp
import TinyCoro.Runtime.Scheduler
import TinyCoro.Runtime.Shutdown
import TinyCoro.Frame.Lifetime
import TinyCoro.Frame.Nested
import TinyCoro.Frame.Stack
import TinyCoro.Frame.Reclaim
import TinyCoro.Comp.Gate
import TinyCoro.Comp.GatePlaces
import TinyCoro.Comp.Event
import TinyCoro.Comp.GateOpen
import TinyCoro.Comp.Latch
import TinyCoro.Comp.WaitGroup
import TinyCoro.Comp.ChannelBook
import TinyCoro.Comp.ChannelClose
import TinyCoro.Comp.MutexFifo
import TinyCoro.Client.Critical
import TinyCoro.Client.ProducerConsumer
import TinyCoro.Comp.ChannelMoves
import TinyCoro.Client.FanIn
import TinyCoro.Client.FanInDelivery
import TinyCoro.Frame.Direct
import TinyCoro.Frame.Task
import TinyCoro.Frame.TaskRun
import TinyCoro.Frame.Exceptions
import TinyCoro.Frame.Drive
import TinyCoro.Frame.Handoff
import TinyCoro.Runtime.Ring
import TinyCoro.Runtime.RingCount
import TinyCoro.Runtime.RingExact
import TinyCoro.Runtime.Timer
import TinyCoro.Runtime.FixedFds
import TinyCoro.Runtime.Deinit
import TinyCoro.Runtime.IsIdle
import TinyCoro.Frame.Engine
import TinyCoro.Frame.Ownership
import TinyCoro.Comp.LockGuard
import TinyCoro.Comp.NotifyAll
import TinyCoro.Frame.Containers
import TinyCoro.Runtime.Dispatcher
import TinyCoro.Runtime.Duration
import TinyCoro.Runtime.StartUp
import TinyCoro.Runtime.Submission
import TinyCoro.Runtime.FixedFdBook
import TinyCoro.Utils.CaseHash
import TinyCoro.Queue.AtomicQueue
import TinyCoro.Queue.Elements
import TinyCoro.Queue.Order
import TinyCoro.Queue.Worker
import TinyCoro.Uring.Contents
import TinyCoro.Uring.Refines
import TinyCoro.Client.NotifyTests
import TinyCoro.Client.EchoServer
import TinyCoro.Client.EventServerRuns
import TinyCoro.Client.EventServerBuffer
import TinyCoro.Utils.Trim
import TinyCoro.Comp.Spinlock
