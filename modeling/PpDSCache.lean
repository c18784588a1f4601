import PpDSCache.Cpp.Code
import PpDSCache.Cpp.Text
import PpDSCache.Cpp.Nodes
import PpDSCache.Cpp.IndexedNodes
import PpDSCache.Cpp.OrderedSet
import PpDSCache.Cpp.Arith
import PpDSCache.Cpp.Bytes
import PpDSCache.Cpp.Fields
import PpDSCache.Cpp.Sync
import PpDSCache.Cpp.Search
import PpDSCache.Abstract.Simulation
import PpDSCache.Abstract.Runs
import PpDSCache.Abstract.LruMap
import PpDSCache.Abstract.Stream
import PpDSCache.Abstract.Monitor
import PpDSCache.Abstract.MonitorRuns
import PpDSCache.Abstract.Calendar
import PpDSCache.Abstract.Timeline
import PpDSCache.Server.Db
import PpDSCache.Server.DbLinked
import PpDSCache.Server.DbCalls
import PpDSCache.Server.DbRefinesLru
import PpDSCache.Server.SlotConsistent
import PpDSCache.Server.SlotHandover
import PpDSCache.Server.DbCapacity
import PpDSCache.Server.LruMap
import PpDSCache.Server.LruMapRefinesLru
import PpDSCache.Server.DbServer
import PpDSCache.Server.DbServerRuns
import PpDSCache.Server.Wire
import PpDSCache.Server.RequestOutcomes
import PpDSCache.Server.RequestGrammar
import PpDSCache.Server.ReplyText
import PpDSCache.Server.DbServerRefinesLru
import PpDSCache.Master.PpMaster
import PpDSCache.Master.ClientRequest
import PpDSCache.Master.SlotTables
import PpDSCache.Master.SlotRanges
import PpDSCache.Master.SetVectorBits
import PpDSCache.Master.RWLock
import PpDSCache.Master.RWLockInvariant
import PpDSCache.Master.RWLockDeadlock
import PpDSCache.Net.Buffer
import PpDSCache.Net.BufferDeque
import PpDSCache.Net.BufferRuns
import PpDSCache.Net.TcpConnection
import PpDSCache.Net.TcpConnectionOutput
import PpDSCache.Net.Shutdown
import PpDSCache.Net.ShutdownOrder
import PpDSCache.Net.EventLoop
import PpDSCache.Net.EventLoopWakeup
import PpDSCache.Net.EventLoopThread
import PpDSCache.Net.TimerQueue
import PpDSCache.Net.TimerLoop
import PpDSCache.Net.TimerInvariant
import PpDSCache.Net.TimerConsistent
import PpDSCache.Net.TimerAlarm
import PpDSCache.Net.TimerCancel
import PpDSCache.Net.Acceptor
import PpDSCache.Net.TcpServer
import PpDSCache.Net.TcpServerNames
import PpDSCache.Net.TcpServerLifecycle
import PpDSCache.Net.TcpServerSteps
import PpDSCache.Net.TcpServerRuns
import PpDSCache.Net.Poller
import PpDSCache.Net.PollerWatch
import PpDSCache.Net.PollerAgree
import PpDSCache.Net.PollPollerRuns
import PpDSCache.Net.EPollPollerRuns
import PpDSCache.Net.ConnectionLoop
import PpDSCache.Net.ConnectionClosed
import PpDSCache.Net.ConnectionRuns
import PpDSCache.Net.Connector
import PpDSCache.Net.ConnectorRuns
import PpDSCache.Net.ConnectorSockets
import PpDSCache.Net.ConnectorConserves
import PpDSCache.Base.AsyncLogging
import PpDSCache.Base.AsyncLoggingLines
import PpDSCache.Base.AsyncLoggingStop
import PpDSCache.Base.ThreadPool
import PpDSCache.Base.ThreadPoolStop
import PpDSCache.Base.BlockingQueue
import PpDSCache.Base.CountDownLatch
import PpDSCache.Base.Date
import PpDSCache.Base.UtcTime
import PpDSCache.Base.LocalTime
import PpDSCache.Base.TimeZoneFile
import PpDSCache.Http.HttpContext
import PpDSCache.Http.HttpReader
import PpDSCache.Http.HttpGrammar
import PpDSCache.Http.HttpServer
import PpDSCache.Http.HttpServerRuns
import PpDSCache.Protobuf.ProtobufCodecLite
import PpDSCache.Protobuf.CodecReader
import PpDSCache.Protobuf.CodecRuns
import PpDSCache.Rpc.RpcChannel
import PpDSCache.Rpc.CallProtocol
import PpDSCache.Rpc.RpcRuns
import PpDSCache.Base.LogStream
import PpDSCache.Base.LogFile
