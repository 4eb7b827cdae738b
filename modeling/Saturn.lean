import Saturn.ByteArray.Refine
import Saturn.ByteArray.Representation
import Saturn.Hook.FreshContext
import Saturn.Hook.Nonblock
import Saturn.Hook.OneContext
import Saturn.Hook.Outlive
import Saturn.Http.HeaderCuts
import Saturn.Http.KeepAlive
import Saturn.IOManager.Interest
import Saturn.IOManager.Table
import Saturn.IOManager.Trigger
import Saturn.Scheduler.SoleRunner
import Saturn.Timer.Cancelled
import Saturn.Http.ChunkLine
import Saturn.Http.ChunkSafety
import Saturn.Http.ChunkedBody
import Saturn.Scheduler.Deadline
import Saturn.Scheduler.Shutdown
import Saturn.ByteArray.Scatter
import Saturn.Hook.Timeouts
import Saturn.Http.ConnectionPool
import Saturn.Http.Dump
import Saturn.Http.Exchange
import Saturn.Http.HeaderMap
import Saturn.Http.MessageLength
import Saturn.Http.PoolLimits
import Saturn.Http.RequestTarget
import Saturn.Http.RoundTrip
import Saturn.Scheduler.LifeCycle
import Saturn.Uri.Authority
import Saturn.Uri.Create
import Saturn.Uri.Decompose
import Saturn.Uri.Reparse
import Saturn.ByteArray.Cursor
import Saturn.ByteArray.FailedReads
import Saturn.ByteArray.Files
import Saturn.ByteArray.FixedWidth
import Saturn.ByteArray.StringRoundTrip
import Saturn.Http.Consumed
import Saturn.Http.FixedLength
import Saturn.Http.FixSize
import Saturn.Timer.Period
import Saturn.Scheduler.IdleWait
import Saturn.Hook.Sleep
import Saturn.Hook.IoTimeout
import Saturn.Hook.Connect
import Saturn.Http.ParamsRoundTrip
import Saturn.Http.MethodToken
import Saturn.Http.UrlCoding
import Saturn.Http.DoRequest
import Saturn.Http.HttpServer
import Saturn.Address.Subnet6
import Saturn.Address.Text
import Saturn.Address.Lookup
import Saturn.Socket.Lifetime
import Saturn.TcpServer.Accept
import Saturn.TcpServer.Bind
import Saturn.Config.Registered
import Saturn.Config.Listeners
import Saturn.Log.Reload
import Saturn.Log.Tokens
import Saturn.Http.Servlet
import Saturn.ByteArray.Zigzag
import Saturn.Config.Paths
import Saturn.Scheduler.Dispatch
import Saturn.Log.Configured
import Saturn.Log.Documents
import Saturn.Thread.Handshake
import Saturn.Http.UrlRequest
