import Night.Lib.Scanner
import Night.Lib.Chains
import Night.Lib.Memory
import Night.Core.Bytes
import Night.Core.Hash
import Night.Core.HashLayout
import Night.Core.HashLookup
import Night.Conf.Parse
import Night.Conf.ParseOrder
import Night.Conf.Token
import Night.Conf.TokenText
import Night.Conf.TokenReference
import Night.Conf.TokenLaw
import Night.Http.Request
import Night.Http.RequestLine
import Night.Http.RequestLineChunks
import Night.Http.RequestLineGrammar
import Night.Http.RequestLineContract
import Night.Http.HeaderLine
import Night.Http.HeaderBlock
import Night.Http.HeaderCalls
import Night.Http.PhaseHandlers
import Night.Http.PhaseRun
import Night.Http.WriteFilter
import Night.Http.WriteFilterLaw
import Night.Core.FileName
import Night.Core.Queue
import Night.Http.Locations
import Night.Http.LocationLayout
import Night.Http.LocationSearch
import Night.Core.Connection
import Night.Core.ConnectionLaw
import Night.Core.ConnectionRuns
import Night.Http.Connection
import Night.Http.Finalize
import Night.Core.Worker
import Night.Core.WorkerLaw
import Night.Core.WorkerRuns
import Night.Http.HeaderLookup
import Night.Core.Blocks
import Night.Core.Pool
import Night.Core.Palloc
import Night.Core.PallocLaw
import Night.Core.PallocRuns
import Night.Http.RequestHeader
import Night.Http.Output
import Night.Http.ReadHeader
import Night.Http.ReadHeaderLaw
import Night.Core.OutputChain
import Night.Http.HeaderValues
import Night.Http.TableAccess
import Night.Http.LocationTree
import Night.Core.ConfToken
import Night.Core.ConfParse
import Night.Core.ConfParseLaw
import Night.Conf.Restore
import Night.Conf.RestoreLaw
import Night.Core.MasterCycle
import Night.Core.MasterCycleLaw
import Night.Event.Epoll
import Night.Event.EpollLaw
import Night.Event.ProcessEvents
import Night.Event.ProcessEventsLaw
import Night.Core.RbTree
import Night.Core.RbTreeLaw
import Night.Core.RbTreeInsert
import Night.Core.RbTreeDelete
import Night.Core.RbTreeUnlink
import Night.Core.RbTreeRuns
import Night.Event.Timer
import Night.Event.TimerLaw
import Night.Core.Buf
import Night.Core.BufChains
import Night.Http.WriteFilterBufs
import Night.Os.Writev
import Night.Os.Sendfile
import Night.Os.Recv
import Night.Http.MapUri
import Night.Http.ContentType
import Night.Core.Time
import Night.Http.HeaderFilter
import Night.Http.WriteFilterLinks
import Night.Http.Redirect
import Night.Core.TimeDate
import Night.Core.TimeText
import Night.Core.Times
import Night.Core.TimeCache
import Night.Core.TimesCache
import Night.Lib.Decimal
import Night.Tools.Atoi
import Night.Conf.NumberDirectives
import Night.Tools.Strstrn
import Night.Http.RequestStrings
import Night.Core.QueueSort
import Night.Tools.SockNtop
import Night.Core.PoolLarge
import Night.Core.PoolLargeLaw
import Night.Core.ArrayPush
import Night.Core.ArrayGrowth
import Night.Core.Listening
import Night.Core.ReapChildren
import Night.Lib.CStrings
import Night.Os.Setproctitle
import Night.Core.ModuleConfs
import Night.Core.QueueMiddle
import Night.Http.LocationHeight
import Night.Core.ListPush
import Night.Core.StrRbtree
import Night.Event.Posted
import Night.Core.WorkerEvents
import Night.Core.DrainConnections
import Night.Http.Index
import Night.Conf.Document
import Night.Core.Spawn
import Night.Core.WorkerChannel
import Night.Core.ReapCycle
import Night.Lib.Loops
import Night.Core.RbTreeHeight
import Night.Core.SignalProcess
import Night.Core.ListeningSockets
import Night.Core.DecimalText
import Night.Http.Validators
import Night.Http.StaticResponse
import Night.Http.Serve
import Night.Http.Listen
