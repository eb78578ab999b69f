import HttpReactor.ListSearch
import HttpReactor.ListStrip
import HttpReactor.LinkedChain
import HttpReactor.LruStore
import HttpReactor.ReuseDistance
import HttpReactor.AccessLog
import HttpReactor.Refinement
import HttpReactor.LexicalPath
import HttpReactor.Mutex
import HttpReactor.EdgeTriggered
import HttpReactor.StreamReading
import HttpReactor.Ownership
import HttpReactor.Staffing
import HttpReactor.Bytes
import HttpReactor.HttpUtils
import HttpReactor.Normalisation
import HttpReactor.TokenRoundTrip
import HttpReactor.Connection
import HttpReactor.BufferFraming
import HttpReactor.SendCalls
import HttpReactor.Request
import HttpReactor.HeaderLines
import HttpReactor.KeepAlive
import HttpReactor.FileSystem
import HttpReactor.Response
import HttpReactor.Message
import HttpReactor.ResponseHeads
import HttpReactor.CGIRunner
import HttpReactor.CGIArguments
import HttpReactor.Cache
import HttpReactor.CacheInvariant
import HttpReactor.CacheRefinement
import HttpReactor.CacheRecency
import HttpReactor.CacheStore
import HttpReactor.CacheSharing
import HttpReactor.CacheContents
import HttpReactor.HttpServer
import HttpReactor.PathConfinement
import HttpReactor.ServerMachine
import HttpReactor.CacheCoherence
import HttpReactor.FileLoading
import HttpReactor.CacheResidency
import HttpReactor.Session
import HttpReactor.RequestDelivery
import HttpReactor.OutgoingStream
import HttpReactor.ClosingAgreement
import HttpReactor.HeadResponses
import HttpReactor.CGISharing
import HttpReactor.CGISeparation
import HttpReactor.DescriptorMoves
import HttpReactor.Logger
import HttpReactor.LoggerShutdown
import HttpReactor.LoggerThreshold
import HttpReactor.ThreadPool
import HttpReactor.TaskAccounting
import HttpReactor.PoolShutdown
import HttpReactor.PoolUtilisation
import HttpReactor.ServerStartup
import HttpReactor.ServerShutdown
import HttpReactor.LooperMachine
import HttpReactor.ConnectionRegistry
import HttpReactor.EventDelivery
import HttpReactor.ReactorLoop
import HttpReactor.ReactorAttention
import HttpReactor.ReactorProgress
import HttpReactor.ClientIsolation
import HttpReactor.ReplyReading
import HttpReactor.ServerThreads
import HttpReactor.ServerClients
import HttpReactor.RequestSteps
import HttpReactor.OverlappingServer
import HttpReactor.OverlappingProgress
