import HxSylar.Lib.Machine
import HxSylar.Lib.Outputs
import HxSylar.Lib.FamilySum
import HxSylar.Lib.Bytes
import HxSylar.Lib.Bitwise
import HxSylar.Lib.Effect
import HxSylar.Lib.Chunks
import HxSylar.Lib.Text
import HxSylar.Lib.Scanner
import HxSylar.Lib.Source
import HxSylar.Lib.OrderedMap
import HxSylar.Lib.Pieces
import HxSylar.Lib.Decimal
import HxSylar.Lib.FileSystem
import HxSylar.Lib.Path
import HxSylar.Lib.Syscalls
import HxSylar.Lib.Hex
import HxSylar.Lib.Lines
import HxSylar.Lib.MapM
import HxSylar.Lib.Yaml
import HxSylar.Lib.YamlFlow
import HxSylar.Lib.Ragel
import HxSylar.Lib.RagelParts
import HxSylar.ByteArray
import HxSylar.Proofs.ByteArray
import HxSylar.Proofs.Codec
import HxSylar.Proofs.NarrowStrings
import HxSylar.Proofs.Scatter
import HxSylar.Proofs.Capacity
import HxSylar.Proofs.ByteOrder
import HxSylar.Proofs.PositionalRead
import HxSylar.Proofs.FailedReads
import HxSylar.Varint
import HxSylar.Proofs.VarintShape
import HxSylar.Proofs.ByteArrayHex
import HxSylar.ByteArrayFile
import HxSylar.Proofs.ByteArrayFile
import HxSylar.Stream
import HxSylar.Proofs.Stream
import HxSylar.Task
import HxSylar.FdContext
import HxSylar.Proofs.Registration
import HxSylar.Proofs.EventLoop
import HxSylar.Proofs.Delivery
import HxSylar.FdTable
import HxSylar.Proofs.FdTable
import HxSylar.FdManager
import HxSylar.Proofs.FdManager
import HxSylar.Proofs.UserFlag
import HxSylar.Proofs.ContextMap
import HxSylar.SharedFdManager
import HxSylar.Proofs.SharedFdManager
import HxSylar.Config
import HxSylar.Proofs.Config
import HxSylar.ConfigRegistry
import HxSylar.Proofs.ConfigRegistry
import HxSylar.ConfigYaml
import HxSylar.Proofs.ConfigYaml
import HxSylar.LexicalCast
import HxSylar.Proofs.LexicalCast
import HxSylar.LogFormatter
import HxSylar.Proofs.LogPattern
import HxSylar.Log
import HxSylar.Proofs.Log
import HxSylar.LogYaml
import HxSylar.Proofs.LogYaml
import HxSylar.LogFormat
import HxSylar.Proofs.PatternAppend
import HxSylar.Proofs.PercentEscape
import HxSylar.LogInheritance
import HxSylar.Proofs.LogInheritance
import HxSylar.TcpServerConf
import HxSylar.Proofs.TcpServerConf
import HxSylar.Http
import HxSylar.HttpDump
import HxSylar.Proofs.HttpDump
import HxSylar.HttpParam
import HxSylar.Proofs.HttpParam
import HxSylar.Proofs.DeletedParams
import HxSylar.HttpParser
import HxSylar.HttpStream
import HxSylar.Proofs.HttpStream
import HxSylar.Proofs.HttpChunked
import HxSylar.HttpBuffer
import HxSylar.Proofs.HttpBuffer
import HxSylar.Proofs.HttpElements
import HxSylar.Proofs.HttpFragments
import HxSylar.Proofs.HttpFraming
import HxSylar.Proofs.RequestFragments
import HxSylar.HttpConnectionPool
import HxSylar.Proofs.HttpConnectionPool
import HxSylar.Proofs.PoolLifetime
import HxSylar.Servlet
import HxSylar.Proofs.Servlet
import HxSylar.Socket
import HxSylar.Proofs.Socket
import HxSylar.UrlCodec
import HxSylar.FSUtil
import HxSylar.Proofs.Rm
import HxSylar.Env
import HxSylar.Proofs.Env
import HxSylar.StringTrim
import HxSylar.Proofs.StringTrim
import HxSylar.Proofs.UrlCodec
import HxSylar.Address
import HxSylar.Proofs.AddressOrder
import HxSylar.Proofs.Subnet
import HxSylar.Proofs.UnixAddress
import HxSylar.Proofs.IPv6Text
import HxSylar.Proofs.IPv6Readable
import HxSylar.Lookup
import HxSylar.Proofs.Lookup
import HxSylar.TcpServer
import HxSylar.Proofs.TcpServer
import HxSylar.TcpAccept
import HxSylar.Proofs.TcpAccept
import HxSylar.Uri
import HxSylar.Proofs.UriGrammar
import HxSylar.Proofs.UriScan
import HxSylar.Proofs.Uri
import HxSylar.Hook
import HxSylar.Proofs.HookTimeout
import HxSylar.Recycle
import HxSylar.Proofs.Recycle
import HxSylar.Scheduler
import HxSylar.Proofs.Run
import HxSylar.Proofs.Conservation
import HxSylar.Proofs.Exclusion
import HxSylar.Proofs.CbFiber
import HxSylar.Proofs.Affinity
import HxSylar.Timer
import HxSylar.Proofs.Timer
import HxSylar.Proofs.TimerReset
import HxSylar.Timeouts
import HxSylar.Proofs.Timeouts
import HxSylar.TimerClock
import HxSylar.Proofs.TimerClock
import HxSylar.Proofs.FrontNotice
import HxSylar.Proofs.OnTime
import HxSylar.IOManager
import HxSylar.Proofs.IOManager
import HxSylar.Proofs.WakeUp
import HxSylar.Proofs.StopReads
import HxSylar.Proofs.Shutdown
import HxSylar.ResponseMachine
import HxSylar.Proofs.ResponseMachine
import HxSylar.Proofs.ResponseHead
import HxSylar.Proofs.ResponseDump
import HxSylar.Proofs.NodeSize
import HxSylar.Proofs.ListAllFile
import HxSylar.RequestMachine
import HxSylar.HttpServer
import HxSylar.Proofs.HttpServer
import HxSylar.Proofs.MessageAnswer
import HxSylar.Proofs.Exchange
import HxSylar.PoolRequest
import HxSylar.Proofs.PoolRequest
