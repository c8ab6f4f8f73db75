import Hwnet.Machine
import Hwnet.Scattered
import Hwnet.TCPSocket
import Hwnet.TCPSocketWorker
import Hwnet.TCPSocketSystem
import Hwnet.TCPSocketSteps
import Hwnet.TCPSocketOneWorker
import Hwnet.TCPSocketClose
import Hwnet.TCPSocketReadiness
import Hwnet.TCPSocketStream
import Hwnet.TCPSocketSendSteps
import Hwnet.TCPSocketUnsent
import Hwnet.TCPSocketAccount
import Hwnet.TCPSocketFlush
import Hwnet.TCPSocketDrained
import Hwnet.TCPSocketOnward
import Hwnet.TCPSocketShutdown
import Hwnet.TCPSocketFullWrite
import Hwnet.TCPSocketSSL
import Hwnet.TCPSocketPasses
import Hwnet.TCPSocketReceived
import Hwnet.TCPSocketRecvOrder
import Hwnet.TCPSocketIovec
import Hwnet.TCPSocketTimeouts
import Hwnet.TCPSocketWatched
import Hwnet.TCPSocketReports
import Hwnet.TCPSocketClosures
import Hwnet.TCPSocketGenuine
import Hwnet.TCPSocketProgress
import Hwnet.TCPSocketQuiet
import Hwnet.TCPSocketIdle
import Hwnet.SendContextPool
import Hwnet.TCPSocketLinklist
import Hwnet.RedisCli
import Hwnet.RedisCliReplies
import Hwnet.RedisCliContext
import Hwnet.BinaryHeap
import Hwnet.TimerHeap
import Hwnet.TimerSchedule
import Hwnet.TimerThreads
import Hwnet.TimerThreadSteps
import Hwnet.TimerCancel
import Hwnet.TimerHeapSteps
import Hwnet.TimerSelfPtr
import Hwnet.TimerDue
import Hwnet.TimerTermination
import Hwnet.TimerOwner
import Hwnet.TimerRoutine
import Hwnet.TimerRoutineDeadline
import Hwnet.ThreadPool
import Hwnet.TimerAlone
import Hwnet.Poller
import Hwnet.PollerAlive
import Hwnet.ThreadPoolWakeup
import Hwnet.PollerWakeup
import Hwnet.PollerRegistry
import Hwnet.TCPConnector
import Hwnet.TCPConnectorOutcome
import Hwnet.TCPConnectorRegistered
import Hwnet.TCPConnectorTimeout
import Hwnet.TCPListener
import Hwnet.TCPListenerStart
import Hwnet.SSLHandshake
import Hwnet.SSLHandshakeOutcome
import Hwnet.HttpPacket
import Hwnet.HttpSession
import Hwnet.HttpHeaders
import Hwnet.Splitting
import Hwnet.HttpMakeHeader
import Hwnet.HttpRequest
import Hwnet.HttpMessages
import Hwnet.HttpResponse
import Hwnet.HttpTrailers
import Hwnet.HttpConnection
import Hwnet.HttpWriteOk
import Hwnet.Memory
import Hwnet.LinkedList
import Hwnet.Any
import Hwnet.Buffer
import Hwnet.BufferBounds
import Hwnet.BufferContents
import Hwnet.BufferSend
import Hwnet.Slices
import Hwnet.SlicesLanguage
import Hwnet.SlicesScan
import Hwnet.HttpParser
import Hwnet.HttpParserStep
import Hwnet.HttpParserExecute
import Hwnet.HttpParserPhases
import Hwnet.HttpParserReads
import Hwnet.HttpParserSession
import Hwnet.HttpParserMethod
import Hwnet.HttpParserNames
import Hwnet.HttpParserLines
import Hwnet.HttpParserStartLine
import Hwnet.HttpParserBody
import Hwnet.HttpParserText
import Hwnet.Numerals
import Hwnet.HttpParserExact
import Hwnet.HttpWire
import Hwnet.Nested
import Hwnet.RedisReader
import Hwnet.RedisReaderItems
import Hwnet.RedisReaderStream
import Hwnet.RedisReaderLanguage
import Hwnet.RedisReaderWritten
import Hwnet.RedisReaderSafe
import Hwnet.RedisCommand
import Hwnet.RedisCommandWords
