import Sylar.Core.Run
import Sylar.Core.Count
import Sylar.Core.DoubleCeil
import Sylar.Core.Overwrite
import Sylar.Core.LittleEndian
import Sylar.Core.Zigzag
import Sylar.Core.MachineInt
import Sylar.Core.OrderedSet
import Sylar.Core.Ledger
import Sylar.Core.Text
import Sylar.Core.Transducer
import Sylar.Core.Find
import Sylar.Core.OrderedMap
import Sylar.Core.JsonValue
import Sylar.Core.Rank
import Sylar.Core.LazyMap
import Sylar.Core.Prefix
import Sylar.Core.Coroutine
import Sylar.Core.Numeral
import Sylar.Thread.ScopedLock
import Sylar.ByteArray.Model
import Sylar.ByteArray.Refine
import Sylar.ByteArray.Codec
import Sylar.ByteArray.Iovec
import Sylar.ByteArray.Reach
import Sylar.ByteArray.Strings
import Sylar.ByteArray.Positional
import Sylar.ByteArray.File
import Sylar.ByteArray.Truncated
import Sylar.ByteArray.Varint
import Sylar.Timer.Manager
import Sylar.Timer.System
import Sylar.Timer.Cancel
import Sylar.Timer.Early
import Sylar.Timer.Wakeup
import Sylar.Timer.Expired
import Sylar.Timer.Truthful
import Sylar.Timer.IdleTimeout
import Sylar.Scheduler.Model
import Sylar.Scheduler.OneWorker
import Sylar.Scheduler.Tickle
import Sylar.Scheduler.Ledger
import Sylar.Scheduler.Finished
import Sylar.Scheduler.Outcome
import Sylar.Scheduler.Switch
import Sylar.IOManager.Events
import Sylar.IOManager.Table
import Sylar.IOManager.Bookkeeping
import Sylar.IOManager.Shutdown
import Sylar.Hook.FdCtx
import Sylar.Hook.FdManager
import Sylar.IOManager.Bounds
import Sylar.Hook.Modes
import Sylar.Hook.Waiter
import Sylar.Hook.DoIo
import Sylar.Hook.Connect
import Sylar.Hook.Sleep
import Sylar.Hook.Timeouts
import Sylar.Config.ConfigVar
import Sylar.Config.FromString
import Sylar.Config.Yaml
import Sylar.Config.LoadFromYaml
import Sylar.Config.LexicalCast
import Sylar.Log.Formatter
import Sylar.Log.Grammar
import Sylar.Log.FileAppender
import Sylar.Log.Logger
import Sylar.Log.Follow
import Sylar.Log.Defines
import Sylar.Log.Delivery
import Sylar.Log.DefineYaml
import Sylar.Util.Url
import Sylar.Util.Trim
import Sylar.Util.Json
import Sylar.Util.Split
import Sylar.Util.Replace
import Sylar.Util.Base64
import Sylar.Util.Hex
import Sylar.Util.Hash
import Sylar.Util.Protobuf
import Sylar.Util.YamlJson
import Sylar.Util.FSUtil
import Sylar.Util.FSMove
import Sylar.Util.FSList
import Sylar.Util.FSMkdir
import Sylar.Util.BinarySearch
import Sylar.Http.Message
import Sylar.Http.Injective
import Sylar.Http.Framing
import Sylar.Http.Params
import Sylar.Http.Query
import Sylar.Http.Grammar
import Sylar.Http.RequestParser
import Sylar.Http.ResponseParser
import Sylar.Http.ResponseTable
import Sylar.Http.ResponseRows
import Sylar.Http.ResponseHead
import Sylar.Http.ResponseTrip
import Sylar.Http.ResponseSplit
import Sylar.Http.RequestTable
import Sylar.Http.RequestScan
import Sylar.Http.RequestHead
import Sylar.Http.RequestTrip
import Sylar.Http.RequestSplit
import Sylar.Address.Network
import Sylar.Address.Print
import Sylar.Address.Lookup
import Sylar.Address.Compare
import Sylar.Socket.Model
import Sylar.Socket.Descriptors
