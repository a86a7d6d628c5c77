import NBRaft.Library.Transition
import NBRaft.Library.Bag
import NBRaft.Raft.Adapter
import NBRaft.Raft.RepeatTimer
import NBRaft.JrpcProto.Construction
import NBRaft.Rpc.ErrorFrames
import NBRaft.Rpc.Malformed
import NBRaft.Rpc.ClientLock
import NBRaft.BehaviorTree.Builder
import NBRaft.Rpc.Correlation
import NBRaft.Rpc.Answers
import NBRaft.Rpc.Callbacks
import NBRaft.Rpc.ClientStub
import NBRaft.Rpc.Reconnect
import NBRaft.BehaviorTree.Hooks
import NBRaft.BehaviorTree.RunningPath
import NBRaft.BehaviorTree.ParallelRun
import NBRaft.BehaviorTree.RepeatRun
import NBRaft.BehaviorTree.Returns
import NBRaft.BehaviorTree.LostNodes
import NBRaft.BehaviorTree.Flatten
import NBRaft.BehaviorTree.DoubleInversion
import NBRaft.BehaviorTree.Cursor
import NBRaft.Concurrency.StealThreadPool
import NBRaft.Concurrency.Wakeup
import NBRaft.Concurrency.PoolSleep
import NBRaft.Concurrency.PoolDrain
import NBRaft.Concurrency.RoundRobin
import NBRaft.Log.Shutdown
import NBRaft.Log.PatternErrors
import NBRaft.Log.FileAppender
import NBRaft.Configuration.LexicalCast
import NBRaft.Configuration.LoadFromConfDir
import NBRaft.Communication.SessionManager
import NBRaft.Communication.Close
import NBRaft.Communication.ListenThread
import NBRaft.Communication.ConnectionAcceptor
import NBRaft.Communication.PacketSize
import NBRaft.Communication.IOServicePool
import NBRaft.Communication.Connection
import NBRaft.Concurrency.QueueProgress
import NBRaft.Concurrency.PoolWork
import NBRaft.Concurrency.PoolStop
import NBRaft.Concurrency.QueuePolling
import NBRaft.Concurrency.StealSearch
import NBRaft.Concurrency.StealLifetime
import NBRaft.Concurrency.StealShutdown
import NBRaft.Log.ThreadOrder
import NBRaft.Concurrency.QueueLoad
import NBRaft.Log.Delivery
import NBRaft.Concurrency.TaskDelivery
import NBRaft.Concurrency.TaskOrder
import NBRaft.BehaviorTree.Instant
import NBRaft.Raft.TimerSilence
import NBRaft.Log.LoggerManager
import NBRaft.Communication.CEventHandler
import NBRaft.Rpc.Isolation
import NBRaft.Communication.SessionLimit
