import QuipDashboard.KeyedTable
import QuipDashboard.Transaction
import QuipDashboard.Hash
import QuipDashboard.Records
import QuipDashboard.Coverage
import QuipDashboard.Store
import QuipDashboard.Blocks
import QuipDashboard.Authorship
import QuipDashboard.Commit
import QuipDashboard.Paging
import QuipDashboard.Scans
import QuipDashboard.Domains
import QuipDashboard.History
import QuipDashboard.Runs
import QuipDashboard.Soundness
import QuipDashboard.Workers
import QuipDashboard.Replay
import QuipDashboard.Identity
import QuipDashboard.Writer
import QuipDashboard.Program
import QuipDashboard.Chain
import QuipDashboard.Indexer
import QuipDashboard.Participation
import QuipDashboard.Extremes
import QuipDashboard.NodeSummary
import QuipDashboard.PolledDifficulty
import QuipDashboard.ServedAuthorship
import QuipDashboard.AuthorshipFacts
import QuipDashboard.AuthorshipCutover
import QuipDashboard.Trace
import QuipDashboard.MiningCatchup
import QuipDashboard.CatchupProgress
import QuipDashboard.Lifecycle
import QuipDashboard.DeviceTimeBackfill
import QuipDashboard.Interleaving
import QuipDashboard.ObservabilityRecord
import QuipDashboard.FileTree
import QuipDashboard.FileWriter
import QuipDashboard.QblockFiles
import QuipDashboard.ManifestRebuild
import QuipDashboard.RestoredFiles
import QuipDashboard.TelemetryClient
import QuipDashboard.AttemptsDecoder
import QuipDashboard.ConcurrentWrites
import QuipDashboard.Uncovered
import QuipDashboard.RetryableRange
import QuipDashboard.CommittedTargets
import QuipDashboard.ConditionalUpserts
import QuipDashboard.Admission
import QuipDashboard.QblockClient
import QuipDashboard.HistoryWalks
import QuipDashboard.TelemetryStore
import QuipDashboard.NetworkBinding
import QuipDashboard.Backfill
import QuipDashboard.Recorded
import QuipDashboard.PinnedScans
import QuipDashboard.Replays
import QuipDashboard.SparseChunks
import QuipDashboard.Rounds
import QuipDashboard.ActiveScans
import QuipDashboard.Enumerations
import QuipDashboard.StaleScans
import QuipDashboard.SyncGate
import QuipDashboard.ByteOffsets
import QuipDashboard.PeerUrl
import QuipDashboard.MinerCache
import QuipDashboard.StableWindow
import QuipDashboard.AttemptWindow
import QuipDashboard.PaddedTexts
import QuipDashboard.FreshAuthorship
import QuipDashboard.NodeDescriptors
import QuipDashboard.Neighbours
import QuipDashboard.ParticipationJoin
import QuipDashboard.PrunedFloors
import QuipDashboard.DifficultySteps
import QuipDashboard.Locks
import QuipDashboard.Registry
import QuipDashboard.RegistryLock
import QuipDashboard.Health
import QuipDashboard.BaseConversion
import QuipDashboard.U256Decimal
import QuipDashboard.LineSplit
import QuipDashboard.SupervisorLogs
import QuipDashboard.Bisection
import QuipDashboard.FirstSeen
import QuipDashboard.CursorPaging
import QuipDashboard.SnapshotPages
import QuipDashboard.EnumeratedScans
import QuipDashboard.TaskSupervision
import QuipDashboard.SharedCells
import QuipDashboard.SingleFlight
import QuipDashboard.ChainCaches
import QuipDashboard.SqlEngine
import QuipDashboard.KeyUpdates
import QuipDashboard.SubmissionShift
import QuipDashboard.Migrations
import QuipDashboard.JsonRecords
import QuipDashboard.ColumnValues
import QuipDashboard.RowRecords
import QuipDashboard.StoredRecords
import QuipDashboard.DescribedTables
import QuipDashboard.RecordRoundTrip
import QuipDashboard.RoundTrips
import QuipDashboard.DecimalOrder
import QuipDashboard.MachineInts
import QuipDashboard.SafeNumbers
import QuipDashboard.GregorianCalendar
import QuipDashboard.IsoTimestamps
import QuipDashboard.JsonSyntax
import QuipDashboard.ApiJson
import QuipDashboard.PayloadBudget
import QuipDashboard.LockOrder
import QuipDashboard.ChainLocks
import QuipDashboard.LogRotation
import QuipDashboard.ProcessSupervisor
import QuipDashboard.ScaleFormat
import QuipDashboard.RuntimeValues
import QuipDashboard.ChainEvents
import QuipDashboard.TopologyScalars
import QuipDashboard.HttpServing
import QuipDashboard.FinalizedChain
import QuipDashboard.FaithfulIndexing
import QuipDashboard.IpTexts
import QuipDashboard.GeoHosts
import QuipDashboard.GeoLookups
