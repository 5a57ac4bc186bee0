import SofaBolt.Memory
import SofaBolt.Block
import SofaBolt.IOBuffer
import SofaBolt.IOBufferSpec
import SofaBolt.IOBufferAppend
import SofaBolt.IOBufferRead
import SofaBolt.IOBufferRefinement
import SofaBolt.IOBufferTransfer
import SofaBolt.Wire
import SofaBolt.OutputStream
import SofaBolt.OutputStreamCalls
import SofaBolt.InputStream
import SofaBolt.BlockChains
import SofaBolt.BlockAccounts
import SofaBolt.BoltRequest
import SofaBolt.BoltRequestLengths
import SofaBolt.BoltResponse
import SofaBolt.BoltResponseReuse
import SofaBolt.Framing
import SofaBolt.Socket
import SofaBolt.SocketWrite
import SofaBolt.RequestStream
import SofaBolt.OnRead
import SofaBolt.Run
import SofaBolt.LifeCycleLock
import SofaBolt.LifeCycleThreads
import SofaBolt.LifeCycleUpgrade
import SofaBolt.ChannelLock
import SofaBolt.ChannelPool
import SofaBolt.ChannelSockets
import SofaBolt.ChannelOwners
import SofaBolt.SessionModel
import SofaBolt.SessionShares
import SofaBolt.SessionSync
import SofaBolt.SessionAsync
import SofaBolt.SessionRetry
import SofaBolt.SessionFrames
import SofaBolt.SessionTracked
import SofaBolt.SessionReclaim
import SofaBolt.SessionOwned
import SofaBolt.PipelineSession
import SofaBolt.RingIndex
import SofaBolt.MPSCQueue
import SofaBolt.SPMCQueue
import SofaBolt.Exchange
import SofaBolt.Correlation
import SofaBolt.SocketBusy
import SofaBolt.LoopThreads
import SofaBolt.ReclaimBarrier
import SofaBolt.TimeThread
import SofaBolt.TimeLedger
import SofaBolt.TimeDeadline
import SofaBolt.TimeOnce
import SofaBolt.TimeCancel
import SofaBolt.SessionDeadline
import SofaBolt.HttpResponse
import SofaBolt.HttpEvents
import SofaBolt.HttpReports
import SofaBolt.HttpCut
import SofaBolt.HttpBoundary
import SofaBolt.HttpOrder
import SofaBolt.HttpUnclaimed
import SofaBolt.OnReadDrain
import SofaBolt.HttpMessage
import SofaBolt.Uri
import SofaBolt.UriLaws
import SofaBolt.UriRender
import SofaBolt.UriSpaces
import SofaBolt.CString
import SofaBolt.UriPointer
import SofaBolt.EndPoint
import SofaBolt.StringSplit
import SofaBolt.Trim
import SofaBolt.TrimView
import SofaBolt.SPSCQueue
import SofaBolt.HttpRequest
import SofaBolt.HttpRequestForm
import SofaBolt.Chain
import SofaBolt.ConcurrentHashMap
import SofaBolt.ConcurrentHashMapSize
import SofaBolt.ConcurrentHashMapThreads
import SofaBolt.ConcurrentHashMapQuiet
import SofaBolt.Adjacent
import SofaBolt.IntrusiveList
import SofaBolt.LaggingLinks
import SofaBolt.IntrusiveListThreads
import SofaBolt.IntrusiveListOrder
import SofaBolt.IntrusiveListSafe
import SofaBolt.IntrusiveListRuns
import SofaBolt.IntrusiveListRemove
import SofaBolt.LRUCache
import SofaBolt.LRUCacheSpec
import SofaBolt.LRUEviction
import SofaBolt.LRUExchange
import SofaBolt.LRULocks
import SofaBolt.ThreadPool
import SofaBolt.ThreadPoolTasks
import SofaBolt.ThreadPoolOnce
import SofaBolt.ThreadPoolPairing
