import FhdEngine.Library.Tiling
import FhdEngine.Library.History
import FhdEngine.Library.Process
import FhdEngine.Library.Routine
import FhdEngine.Library.Simulation
import FhdEngine.Library.Fallible
import FhdEngine.Library.Reading
import FhdEngine.Library.Table
import FhdEngine.Library.Journal
import FhdEngine.Library.Trimming
import FhdEngine.Domain.Basic
import FhdEngine.Domain.Segments
import FhdEngine.Domain.SegmentRestore
import FhdEngine.Domain.SegmentInvariant
import FhdEngine.Domain.SegmentHistory
import FhdEngine.Domain.SegmentProgress
import FhdEngine.Domain.Job
import FhdEngine.Domain.JobInvariant
import FhdEngine.Domain.JobRestore
import FhdEngine.Domain.Attempts
import FhdEngine.Domain.StopCauses
import FhdEngine.Domain.Retry
import FhdEngine.Application.Ports
import FhdEngine.Application.Storage
import FhdEngine.Application.Transport
import FhdEngine.Persistence.Tables
import FhdEngine.Persistence.Extents
import FhdEngine.Persistence.Batches
import FhdEngine.Persistence.Transfer
import FhdEngine.Persistence.Admission
import FhdEngine.Persistence.Receipts
import FhdEngine.Persistence.Chronicle
import FhdEngine.Persistence.StoreInvariant
import FhdEngine.Application.AddDownload
import FhdEngine.Storage.Disk
import FhdEngine.Storage.Part
import FhdEngine.Storage.Coverage
import FhdEngine.Storage.PartRules
import FhdEngine.Storage.PartMethods
import FhdEngine.Storage.Desk
import FhdEngine.Storage.Published
import FhdEngine.System.Owners
import FhdEngine.System.Loadable
import FhdEngine.System.Representation
import FhdEngine.Runtime.Origin
import FhdEngine.Runtime.OriginHistory
import FhdEngine.Runtime.Ports
import FhdEngine.Runtime.Session
import FhdEngine.Runtime.Scheduler
import FhdEngine.Runtime.Leases
import FhdEngine.Runtime.SessionRules
import FhdEngine.Runtime.SessionInvariant
import FhdEngine.Runtime.SessionWork
import FhdEngine.Runtime.SessionOutcome
import FhdEngine.Runtime.SchedulerInvariant
import FhdEngine.Runtime.SchedulerSteps
import FhdEngine.Runtime.SchedulerRuns
import FhdEngine.Runtime.SessionTrace
import FhdEngine.System.Sessions
import FhdEngine.System.Scheduling
import FhdEngine.System.Restarts
import FhdEngine.Runtime.RetryTiming
import FhdEngine.System.RetryWaits
import FhdEngine.Daemon.Service
import FhdEngine.Daemon.SensitiveLinks
import FhdEngine.Daemon.DestinationNames
import FhdEngine.Daemon.RepeatedRequests
import FhdEngine.Daemon.Recovery
import FhdEngine.Http.FetchBinding
import FhdEngine.Http.RangeReaders
import FhdEngine.Http.Redirects
import FhdEngine.Http.Confinement
import FhdEngine.Library.Synced
import FhdEngine.TransferStore.Folder
import FhdEngine.TransferStore.Store
import FhdEngine.TransferStore.StoreRules
import FhdEngine.TransferStore.StoreInvariant
import FhdEngine.TransferStore.StoreMethods
import FhdEngine.TransferStore.Publishing
import FhdEngine.TransferStore.Opening
import FhdEngine.TransferStore.StoreRuns
import FhdEngine.TransferStore.Publication
import FhdEngine.TransferStore.Rows
import FhdEngine.TransferStore.Making
import FhdEngine.Storage.CoverageHistory
import FhdEngine.Storage.Verification
import FhdEngine.Storage.Neighbours
import FhdEngine.Runtime.Cuts
import FhdEngine.Runtime.Splitting
import FhdEngine.Runtime.SplitSums
import FhdEngine.Http.Stream
import FhdEngine.Runtime.Worker
import FhdEngine.Runtime.Buffers
import FhdEngine.Runtime.Writer
import FhdEngine.Runtime.WriterLane
import FhdEngine.Runtime.PartLane
import FhdEngine.Runtime.LeaseSizes
import FhdEngine.ResumePolicy.Policy
import FhdEngine.ResumePolicy.Grammar
import FhdEngine.ResumePolicy.Decisions
import FhdEngine.DownloadEngine.Options
import FhdEngine.DownloadEngine.QueueStore
import FhdEngine.DownloadEngine.QueueChecks
import FhdEngine.DownloadEngine.QueueCodec
import FhdEngine.DownloadEngine.Manager
import FhdEngine.DownloadEngine.ManagerInvariant
import FhdEngine.DownloadEngine.ManagerCommands
import FhdEngine.DownloadEngine.ManagerRuns
import FhdEngine.DownloadEngine.Eligible
import FhdEngine.DownloadEngine.StorableNames
import FhdEngine.DownloadEngine.ManagerAcks
import FhdEngine.DownloadEngine.ManagerReceipts
import FhdEngine.DownloadCore.Runs
import FhdEngine.DownloadCore.State
import FhdEngine.DownloadEngine.Requests
import FhdEngine.DownloadEngine.Admission
import FhdEngine.DownloadEngine.ParallelRuns
import FhdEngine.DownloadEngine.Download
import FhdEngine.DownloadEngine.Vault
import FhdEngine.DownloadEngine.OwnRanges
import FhdEngine.DownloadEngine.VaultTransfers
import FhdEngine.DownloadEngine.VaultRuns
import FhdEngine.DownloadEngine.Jobs
import FhdEngine.DownloadEngine.Keeping
import FhdEngine.DownloadEngine.Refinement
import FhdEngine.DownloadEngine.Lives
import FhdEngine.DownloadEngine.Intake
import FhdEngine.DownloadEngine.IntakeRuns
import FhdEngine.DownloadEngine.Pacing
import FhdEngine.Library.Reassembly
import FhdEngine.Protocol.Messages
import FhdEngine.Protocol.Frames
import FhdEngine.Library.Paging
import FhdEngine.Daemon.Listing
