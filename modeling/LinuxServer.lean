import LinuxServer.Lib.Machine
import LinuxServer.Lib.OrderedSet
import LinuxServer.Lib.Bytes
import LinuxServer.Lib.Framing
import LinuxServer.Lib.Schedule
import LinuxServer.Lib.Condition
import LinuxServer.Lib.Workers
import LinuxServer.Lib.Chunks
import LinuxServer.Lib.RunningSums
import LinuxServer.Lib.Numerals
import LinuxServer.Lib.CText
import LinuxServer.Lib.Calendar
import LinuxServer.Lib.FixedWidth
import LinuxServer.Lib.Awaited
import LinuxServer.Reactor.Buffer
import LinuxServer.Reactor.BufferQueue
import LinuxServer.Reactor.BufferShrink
import LinuxServer.Reactor.BufferInts
import LinuxServer.Protobuf.Codec
import LinuxServer.Protobuf.Checked
import LinuxServer.Protobuf.Framing
import LinuxServer.Protobuf.RoundTrip
import LinuxServer.Protobuf.Fragmentation
import LinuxServer.Protobuf.Canonical
import LinuxServer.Protobuf.Corruption
import LinuxServer.Protobuf.SendLimit
import LinuxServer.Reactor.EPoller
import LinuxServer.Reactor.Pollers
import LinuxServer.Reactor.Poller
import LinuxServer.Reactor.PollerIndex
import LinuxServer.Reactor.EventLoop
import LinuxServer.Reactor.EventLoopThread
import LinuxServer.Reactor.TcpConnection
import LinuxServer.Reactor.TcpSend
import LinuxServer.Reactor.TcpHalfClose
import LinuxServer.Reactor.TcpWriting
import LinuxServer.Reactor.TcpWriteComplete
import LinuxServer.Reactor.TcpServer
import LinuxServer.Reactor.ServerStart
import LinuxServer.Protobuf.Dispatcher
import LinuxServer.Protobuf.QueryExchange
import LinuxServer.Reactor.TcpRegistry
import LinuxServer.Reactor.TcpDescriptors
import LinuxServer.Reactor.TcpDispatch
import LinuxServer.Reactor.TcpClose
import LinuxServer.Reactor.TcpLifetime
import LinuxServer.Reactor.TcpReferences
import LinuxServer.Reactor.TimerQueue
import LinuxServer.Reactor.TimerInvariant
import LinuxServer.Reactor.TimerCancel
import LinuxServer.Reactor.TimerDeadline
import LinuxServer.Reactor.TimerFiring
import LinuxServer.Reactor.Connector
import LinuxServer.Reactor.ConnectorRetry
import LinuxServer.Reactor.ConnectorSockets
import LinuxServer.Reactor.TcpOwners
import LinuxServer.Thread.BlockingQueue
import LinuxServer.Thread.ThreadPool
import LinuxServer.Thread.CountDownLatch
import LinuxServer.Thread.ThreadLife
import LinuxServer.Db.DBConnectionPool
import LinuxServer.Db.DBRecordSet
import LinuxServer.Logging.AsyncLoggingQueue
import LinuxServer.Logging.DoubleBuffering
import LinuxServer.Logging.LogFile
import LinuxServer.Logging.LogStream
import LinuxServer.Logging.LogInsertion
import LinuxServer.Logging.LogTime
import LinuxServer.Logging.Logger
import LinuxServer.Logging.LogRolling
import LinuxServer.Datetime.TimeStamp
import LinuxServer.Logging.LogFileNames
import LinuxServer.Logging.LogToFile
import LinuxServer.Thread.Mutex
import LinuxServer.Reactor.InetAddress
import LinuxServer.Tcp.TcpStream
import LinuxServer.Tcp.SocketOwnership
