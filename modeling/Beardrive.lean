import Beardrive.Lib.GoString
import Beardrive.Lib.Decimal
import Beardrive.Lib.Base64
import Beardrive.Lib.GoTime
import Beardrive.Lib.Json
import Beardrive.Lib.JsonString
import Beardrive.Lib.LastWriter
import Beardrive.Lib.Greatest
import Beardrive.Lib.Runs
import Beardrive.Lib.Custody
import Beardrive.Lib.Upsert
import Beardrive.Lib.Crdt
import Beardrive.Lib.SlashPath
import Beardrive.Lib.LongestPrefix
import Beardrive.Lib.Merge3
import Beardrive.Journal.Op
import Beardrive.Journal.Order
import Beardrive.Journal.Replace
import Beardrive.Journal.Wire
import Beardrive.Journal.Log
import Beardrive.Journal.RoundTrip
import Beardrive.Journal.SafePath
import Beardrive.Config.Reserved
import Beardrive.Store
import Beardrive.Syncer.Scope
import Beardrive.Syncer.WalkRoots
import Beardrive.Syncer.Ignore
import Beardrive.Syncer.Folder
import Beardrive.Syncer.Clock
import Beardrive.Syncer.Conflict
import Beardrive.Syncer.ConflictNames
import Beardrive.Syncer.Cycle
import Beardrive.Syncer.Scan
import Beardrive.Syncer.ScanDeletes
import Beardrive.Syncer.ScanHinted
import Beardrive.Syncer.Merge
import Beardrive.Syncer.Outrank
import Beardrive.Syncer.Pull
import Beardrive.Syncer.Push
import Beardrive.Syncer.Reassert
import Beardrive.Webapp.Folders
import Beardrive.Webapp.AppGrants
import Beardrive.Webapp.Givers
import Beardrive.Webapp.StorePut
import Beardrive.Webapp.Upload
import Beardrive.Webapp.UndoRun
import Beardrive.Webapp.CommitBase
import Beardrive.Webapp.ByPathOrder
import Beardrive.Webapp.Moves
import Beardrive.Webapp.Orgs
import Beardrive.Webapp.Snapshots
import Beardrive.Webapp.Reserve
import Beardrive.Webapp.StorePuts
import Beardrive.Webapp.HubJournal
import Beardrive.Webapp.BlobSeal
import Beardrive.Webapp.DataIndex
import Beardrive.Webapp.DataPasses
import Beardrive.Webapp.Rooms
import Beardrive.Webapp.Accepted
import Beardrive.Syncer.Restricted
import Beardrive.Webapp.Invites
import Beardrive.Webapp.ProjectDB
import Beardrive.Webapp.Registry
import Beardrive.Webapp.OrgDB
import Beardrive.Syncer.Escape
import Beardrive.Cmd.ScopeFile
import Beardrive.Cmd.Migrate
import Beardrive.Lib.Tally
import Beardrive.Webapp.Reads
import Beardrive.Webapp.Shares
import Beardrive.Webapp.Lease
import Beardrive.Webapp.CLIAuth
import Beardrive.Lib.Rank
import Beardrive.Webapp.Comments
import Beardrive.Webapp.CommentsStay
import Beardrive.Lib.SharedRead
import Beardrive.Webapp.VersionGate
import Beardrive.Lib.Rows
import Beardrive.Webapp.ProjectRepos
import Beardrive.Webapp.OrgRepos
import Beardrive.Webapp.ProjectStores
import Beardrive.Webapp.ProjectHubs
import Beardrive.Webapp.FileHistory
import Beardrive.Lib.Occurrences
import Beardrive.Webapp.AgentWrites
import Beardrive.Lib.JsonFields
import Beardrive.Webapp.ChangeFrames
import Beardrive.Webapp.ChangeStream
import Beardrive.Lib.TextEdit
import Beardrive.Webapp.SharedFile
import Beardrive.Lib.MergeLines
import Beardrive.Syncer.MergeText
import Beardrive.Syncer.RuleMeaning
import Beardrive.Syncer.Prune
import Beardrive.Cmd.Forget
import Beardrive.Webapp.AgentPaths
import Beardrive.Lib.LineReader
import Beardrive.Webapp.EachLine
import Beardrive.Webapp.ScanBlob
import Beardrive.Webapp.ReadPages
import Beardrive.Syncer.Materialize
import Beardrive.Syncer.MaterializePath
import Beardrive.Syncer.Echo
import Beardrive.Lib.Table
import Beardrive.Lib.Tree
import Beardrive.AgentHooks.Uninstall
import Beardrive.AgentHooks.Install
import Beardrive.AgentHooks.Platforms
import Beardrive.AgentHooks.Apart
import Beardrive.Syncer.Prefilter
import Beardrive.Lib.JsonArray
import Beardrive.Syncer.Manifest
import Beardrive.Syncer.Chunks
import Beardrive.Syncer.ChunkRound
import Beardrive.Syncer.SpoolBound
import Beardrive.Syncer.Drift
import Beardrive.Lib.ByteOrder
import Beardrive.Webapp.WinKey
import Beardrive.Lib.Paging
import Beardrive.Lib.Base64URL
import Beardrive.Journal.Keyed
import Beardrive.Webapp.HistoryCursor
import Beardrive.Lib.Groups
import Beardrive.Lib.SoleMatch
import Beardrive.Webapp.MovePairs
import Beardrive.Webapp.OwnVersions
import Beardrive.Lib.JsonEnds
import Beardrive.Lib.LineFilter
import Beardrive.Webapp.JournalFilter
import Beardrive.Webapp.ScopeTag
import Beardrive.Lib.JsonEscapes
import Beardrive.Webapp.DataHoldable
import Beardrive.Lib.Lcs
import Beardrive.Frontend.LineDiff
import Beardrive.Lib.Metered
import Beardrive.Webapp.RateLimit
import Beardrive.Lib.GapMatch
import Beardrive.Webapp.DataPattern
import Beardrive.Webapp.DataQuery
import Beardrive.Webapp.HtmlStamper
import Beardrive.Webapp.StampedRanges
import Beardrive.Lib.Percent
import Beardrive.Frontend.Router
import Beardrive.Frontend.PageUrl
import Beardrive.Lib.Utf16
import Beardrive.Frontend.ConflictName
import Beardrive.Frontend.CopyNames
import Beardrive.Frontend.Sidebar
import Beardrive.Frontend.ProjectTree
import Beardrive.Frontend.SidebarRows
import Beardrive.Lib.Evict
import Beardrive.Webapp.CacheBudget
