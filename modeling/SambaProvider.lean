import SambaProvider.Lib.Run
import SambaProvider.Base.Exn
import SambaProvider.Share.Json
import SambaProvider.Share.Manager
import SambaProvider.Share.Restart
import SambaProvider.Share.Atomic
import SambaProvider.Share.AuthData
import SambaProvider.Lib.Prog
import SambaProvider.Transfer.Task
import SambaProvider.Transfer.Outcome
import SambaProvider.Lib.Ends
import SambaProvider.Native.File
import SambaProvider.Transfer.Proxy
import SambaProvider.Native.Facade
import SambaProvider.Native.Live
import SambaProvider.Native.Looper
import SambaProvider.Native.Isolation
import SambaProvider.Loading.TaskManager
import SambaProvider.Loading.Waiting
import SambaProvider.Lib.Percent
import SambaProvider.Lib.TreeIndex
import SambaProvider.Document.Uri
import SambaProvider.Document.Identity
import SambaProvider.Document.SharePath
import SambaProvider.Document.Family
import SambaProvider.Native.Directory
import SambaProvider.Document.Metadata
import SambaProvider.Document.Complete
import SambaProvider.Document.Provider
import SambaProvider.Document.Query
import SambaProvider.Document.StatCycle
import SambaProvider.Document.World
import SambaProvider.Document.Changes
import SambaProvider.Document.Listing
import SambaProvider.Document.Deletion
import SambaProvider.Document.Agreement
import SambaProvider.Document.Session
import SambaProvider.Document.Coherent
import SambaProvider.Document.Stale
import SambaProvider.Document.Remote
import SambaProvider.Document.Reported
import SambaProvider.Document.Exact
import SambaProvider.Lib.Stays
import SambaProvider.Document.Application
import SambaProvider.Document.EntryTypes
import SambaProvider.Document.EntryTypesCalls
import SambaProvider.Document.EntryTypesRun
import SambaProvider.Lib.Together
import SambaProvider.Document.Race
import SambaProvider.Document.Resurrect
import SambaProvider.Share.Unmount
import SambaProvider.Share.Announce
import SambaProvider.Lib.Reader
import SambaProvider.Share.Entry
import SambaProvider.Share.Reading
import SambaProvider.Share.Tolerant
import SambaProvider.Document.ShareUri
import SambaProvider.Document.ShareGrammar
import SambaProvider.Browsing.BroadcastUtils
import SambaProvider.Browsing.NodeStatus
import SambaProvider.Browsing.Listen
import SambaProvider.Browsing.ServiceHelper
import SambaProvider.Loading.Mounts
import SambaProvider.Document.ResultPool
import SambaProvider.Base.Bytes
import SambaProvider.Base.Numbers
import SambaProvider.Lib.Pieces
import SambaProvider.Lib.Form
import SambaProvider.Lib.Ledger
import SambaProvider.Streaming.SmbFileInputStream
import SambaProvider.Streaming.StreamUrl
import SambaProvider.Streaming.NanoStreamer
import SambaProvider.Configuration.SambaConfiguration
import SambaProvider.Loading.Failures
import SambaProvider.Native.Handles
import SambaProvider.Thread.AsyncTaskManage
import SambaProvider.Thread.Exclusive
import SambaProvider.Thread.TerminableThreadPool
import SambaProvider.Thread.Ownership
import SambaProvider.Thread.TaskSteps
import SambaProvider.Thread.Separate
import SambaProvider.Lib.Octets
import SambaProvider.Lib.Pushback
import SambaProvider.Streaming.HttpSession
import SambaProvider.Lib.Framing
import SambaProvider.Streaming.KeepAlive
import SambaProvider.Streaming.Respond
import SambaProvider.Streaming.Sending
import SambaProvider.Lib.Interleave
import SambaProvider.Browsing.IpSearch
import SambaProvider.Thread.Pool
import SambaProvider.Lib.Resume
import SambaProvider.Streaming.Download
import SambaProvider.Configuration.Startup
import SambaProvider.Streaming.Listener
import SambaProvider.Streaming.OpenConnections
import SambaProvider.Streaming.SecondStart
import SambaProvider.Lib.Crowd
import SambaProvider.Document.Footprint
