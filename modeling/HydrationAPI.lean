import HydrationAPI.Helper.Guarantees
import HydrationAPI.Helper.Wedge
import HydrationAPI.Helper.Evict
import HydrationAPI.Helper.Readahead
import HydrationAPI.Helper.Completeness
import HydrationAPI.Helper.Report
import HydrationAPI.Graph.Ids
import HydrationAPI.Graph.Item
import HydrationAPI.Graph.QuickXor
import HydrationAPI.Graph.Download
import HydrationAPI.Graph.Access
import HydrationAPI.Graph.Version
import HydrationAPI.Graph.WholeObject
import HydrationAPI.Client.Daemon
import HydrationAPI.Client.Mount
import HydrationAPI.Client.Course
import HydrationAPI.Client.Held
import HydrationAPI.Client.HeldCursor
import HydrationAPI.Client.Skipped
import HydrationAPI.Client.Mirror
import HydrationAPI.Client.Listing
import HydrationAPI.Client.Reflects
import HydrationAPI.Client.Store
import HydrationAPI.Client.Manifest
import HydrationAPI.Client.LineageFile
import HydrationAPI.Client.SyncDir
import HydrationAPI.Client.Debounce
import HydrationAPI.Client.EvictPolicy
import HydrationAPI.Client.FolderCreates
import HydrationAPI.Client.Delta
import HydrationAPI.Client.Tree
import HydrationAPI.Client.Upload
import HydrationAPI.Lib.Ancestry
import HydrationAPI.Lib.Walk
import HydrationAPI.Lib.Lines
import HydrationAPI.Lib.Dialogue
import HydrationAPI.Graph.Sink
import HydrationAPI.Graph.FolderDelete
import HydrationAPI.Lib.Updates
import HydrationAPI.Lib.Uri
import HydrationAPI.Lib.Serde
import HydrationAPI.Lib.BufReader
import HydrationAPI.Protocol.Transport
import HydrationAPI.Protocol.Agreement
import HydrationAPI.Protocol.Names
import HydrationAPI.Graph.Round
import HydrationAPI.Graph.Tombstone
import HydrationAPI.Graph.RootKept
import HydrationAPI.Graph.RoundBudget
import HydrationAPI.Graph.ShapeFlip
import HydrationAPI.Graph.Placed
import HydrationAPI.Client.LastReport
import HydrationAPI.Client.Refused
import HydrationAPI.Client.Packages
import HydrationAPI.Client.DeltaStep
import HydrationAPI.Client.DeltaSafety
import HydrationAPI.Client.DeltaDistinct
import HydrationAPI.Client.DeltaOutcome
import HydrationAPI.Client.Queue
import HydrationAPI.Client.Vfs
import HydrationAPI.Client.Place
import HydrationAPI.Client.Removals
import HydrationAPI.Graph.SinkUpload
import HydrationAPI.Graph.SharedDrive
import HydrationAPI.Graph.MountsKept
import HydrationAPI.Graph.OwnVersions
import HydrationAPI.Graph.SinkRules
import HydrationAPI.Graph.SinkSteps
import HydrationAPI.Graph.Batch
import HydrationAPI.Graph.Discover
import HydrationAPI.Graph.Beneath
import HydrationAPI.Lib.UriPath
import HydrationAPI.Graph.Addressing
import HydrationAPI.Graph.BlindWrites
import HydrationAPI.Graph.Auth
import HydrationAPI.Graph.TokenCache
import HydrationAPI.Graph.SingleFlight
import HydrationAPI.Graph.Credentials
import HydrationAPI.Graph.Endpoint
import HydrationAPI.Graph.Fragments
import HydrationAPI.Lib.Play
import HydrationAPI.Graph.SinkPlays
import HydrationAPI.Graph.Collisions
import HydrationAPI.Graph.LosingDrive
import HydrationAPI.Graph.FailedAttempts
import HydrationAPI.Graph.Repeated
import HydrationAPI.Lib.Asks
import HydrationAPI.Graph.SinkAsks
import HydrationAPI.Graph.Preconditions
import HydrationAPI.Graph.Http
import HydrationAPI.Graph.StoredTree
import HydrationAPI.Graph.Resume
import HydrationAPI.Client.RenameHalves
import HydrationAPI.Client.SwapSafety
import HydrationAPI.Client.ScratchKept
import HydrationAPI.Client.Identity
import HydrationAPI.Client.OfflineRemovals
import HydrationAPI.Client.Upserted
import HydrationAPI.Client.Withdrawals
import HydrationAPI.Client.Vouching
import HydrationAPI.Client.Wellformed
import HydrationAPI.Client.Restore
import HydrationAPI.Client.Inotify
import HydrationAPI.Client.StaleWatches
import HydrationAPI.Client.Announced
import HydrationAPI.Client.Elsewhere
import HydrationAPI.Client.Skipped
import HydrationAPI.Client.FolderMoves
import HydrationAPI.Graph.ResumeCopy
import HydrationAPI.Graph.RememberedLocation
import HydrationAPI.Graph.Prefetched
import HydrationAPI.Graph.Backoff
import HydrationAPI.Graph.QuickXorValue
import HydrationAPI.Lib.Checks
import HydrationAPI.Lib.PathTree
import HydrationAPI.Client.Reclaim
import HydrationAPI.Lib.Utf8
import HydrationAPI.Lib.Whitespace
import HydrationAPI.Client.IgnoreRules
import HydrationAPI.Client.Wire
import HydrationAPI.Helper.Exposure
import HydrationAPI.Lib.Since
import HydrationAPI.Helper.PartialRuns
import HydrationAPI.Helper.Fanotify
import HydrationAPI.Helper.RangeSet
import HydrationAPI.Client.Absorbed
import HydrationAPI.Helper.TakeOver
import HydrationAPI.Helper.Supervise
import HydrationAPI.Client.Unsent
import HydrationAPI.Graph.DeviceCode
import HydrationAPI.Helper.Reconnect
import HydrationAPI.Client.GivenBack
import HydrationAPI.Graph.Survival
