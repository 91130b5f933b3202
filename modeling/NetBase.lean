import NetBase.Lib.Runs
import NetBase.Lib.Members
import NetBase.Lib.Mutex
import NetBase.Lib.Tracks
import NetBase.Lib.OrderedMultiset
import NetBase.Lib.PriorityQueue
import NetBase.Lib.Chain
import NetBase.Lib.History
import NetBase.Lib.Traced
import NetBase.Lib.RoundRobin
import NetBase.Lib.IntType
import NetBase.Lib.Memory
import NetBase.Lib.Owns
import NetBase.Base.Vector
import NetBase.Base.Timer
import NetBase.Base.TimerRun
import NetBase.Base.TimerDrain
import NetBase.Base.StringPiece
import NetBase.Base.Split
import NetBase.Base.Random
import NetBase.Base.File
import NetBase.Base.FileOwner
import NetBase.Base.TimerFire
import NetBase.Base.TimerShared
import NetBase.Coroutine.Scheduler
import NetBase.Coroutine.RemoteTaskList
import NetBase.Coroutine.RemoteShape
import NetBase.Coroutine.RemoteSafe
import NetBase.Coroutine.RemoteHonest
import NetBase.Coroutine.LockFree
import NetBase.Coroutine.Executor
import NetBase.Coroutine.Switch
import NetBase.Coroutine.UContext
import NetBase.Coroutine.Reuse
import NetBase.Coroutine.StackMemory
import NetBase.Coroutine.Dispatch
import NetBase.Coroutine.ImmediateStop
import NetBase.IO.Epoll
import NetBase.IO.Deadline
import NetBase.IO.IOManager
import NetBase.IO.NonBlock
import NetBase.IO.FdTable
import NetBase.IO.Events
import NetBase.IO.Remove
import NetBase.IO.Batch
import NetBase.IO.Sync
import NetBase.IO.Persistent
import NetBase.IO.Slots
import NetBase.IO.Wakeup
import NetBase.IO.WakeProgress
import NetBase.IO.CoIo
import NetBase.IO.Sources
import NetBase.IO.OneWakeup
import NetBase.IO.GracefulStop
import NetBase.IO.BlocksIdle
import NetBase.IO.OnContexts
import NetBase.IO.Attended
import NetBase.IO.Clocked
import NetBase.IO.Sleep
import NetBase.IO.Timeout
import NetBase.IO.Hook
import NetBase.Net.TcpServer
import NetBase.Net.Bind
import NetBase.Net.Address
import NetBase.Net.AddressOrder
import NetBase.Net.InetText
import NetBase.Net.AddressText
import NetBase.Balancer.Prio
import NetBase.Balancer.Avg
import NetBase.Balancer.Even
import NetBase.Config.Document
import NetBase.Config.Lookup
import NetBase.Config.Typed
import NetBase.Config.Stable
import NetBase.Logging.ConfigData
import NetBase.Logging.Pattern
import NetBase.Logging.PatternWrite
import NetBase.Logging.PatternLex
import NetBase.Logging.PatternEntries
import NetBase.Logging.Logger
import NetBase.Logging.LogSStream
import NetBase.Logging.Convert
import NetBase.Logging.LogLine
import NetBase.Logging.Configured
import NetBase.Logging.Filename
import NetBase.Logging.FlusherRegistry
import NetBase.Logging.AsyncFlusher
import NetBase.Logging.ProtectedFlusher
import NetBase.Logging.MadeFlushers
import NetBase.Balancer.Pool
