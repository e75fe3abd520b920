import PWebServer.Lib.Rotation
import PWebServer.Lib.Scan
import PWebServer.Lib.Program
import PWebServer.Lib.RedBlack
import PWebServer.Lib.History
import PWebServer.Lib.LinkedList
import PWebServer.Lib.Machine
import PWebServer.Lib.Tiling
import PWebServer.Lib.Circle
import PWebServer.Lib.ByteMemory
import PWebServer.Lib.Shares
import PWebServer.Globals
import PWebServer.Base.RbTree
import PWebServer.Base.RbLinks
import PWebServer.Base.RbFocus
import PWebServer.Base.RbInsert
import PWebServer.Base.RbRepair
import PWebServer.Base.RbGap
import PWebServer.Base.RbDelete
import PWebServer.Base.Pool
import PWebServer.Base.MemoryPool
import PWebServer.Base.Heap
import PWebServer.Base.Hash
import PWebServer.Base.HashTest
import PWebServer.Event.Events
import PWebServer.Event.Timers
import PWebServer.Http.Types
import PWebServer.Http.RequestLine
import PWebServer.Http.UriGrammar
import PWebServer.Http.LineGrammar
import PWebServer.Http.ReadLine
import PWebServer.Http.Slices
import PWebServer.Http.Accept
import PWebServer.Http.AbsPath
import PWebServer.Http.Header
import PWebServer.Http.Calls
import PWebServer.Http.Chunks
import PWebServer.Http.HeaderGrammar
import PWebServer.Http.ParseHeaders
import PWebServer.Http.HeaderFields
import PWebServer.Http.HeaderRuns
import PWebServer.Http.Forwarded
import PWebServer.Http.Response
import PWebServer.Http.SendFile
import PWebServer.Http.ContentLength
import PWebServer.Module.Upstream
import PWebServer.Module.Weights
import PWebServer.Module.Fairness
import PWebServer.Module.Retry
import PWebServer.Module.Proxy
import PWebServer.Module.ConsistentHash
import PWebServer.Module.Ring
import PWebServer.Module.VirtualNodes
import PWebServer.Module.Selections
import PWebServer.Module.RingState
import PWebServer.Module.RoundStart
import PWebServer.Module.HashProxy
import PWebServer.Module.RingRoom
import PWebServer.Http.Exchange
import PWebServer.Http.ConnectionPool
import PWebServer.Http.Worker
import PWebServer.Http.Frames
import PWebServer.Http.Moves
import PWebServer.Http.Flags
import PWebServer.Http.Handlers
import PWebServer.Http.Release
import PWebServer.Http.Idle
import PWebServer.Http.Relay
import PWebServer.Http.Answers
import PWebServer.Worker.Master
import PWebServer.Base.HashBuild
import PWebServer.Base.HashRoom
import PWebServer.Base.RbAgain
import PWebServer.Event.TimerRuns
import PWebServer.Event.TimerFlags
import PWebServer.Base.MemoryFit
import PWebServer.Module.FailTime
import PWebServer.Module.Descriptors
import PWebServer.Http.ConnectionTimers
import PWebServer.Http.RequestHead
import PWebServer.Lib.Agenda
import PWebServer.Event.TimerQueue
import PWebServer.Event.Loop
import PWebServer.Http.Awake
import PWebServer.Http.Faults
import PWebServer.Http.Complete
import PWebServer.Http.Tables
import PWebServer.Worker.Ledger
import PWebServer.Lib.Custody
import PWebServer.Lib.Lockstep
import PWebServer.Http.Unread
import PWebServer.Http.Unwritten
import PWebServer.Http.Sockets
import PWebServer.Http.Follows
import PWebServer.Http.Punctual
import PWebServer.Http.SideBySide
import PWebServer.Http.KeepAlive
