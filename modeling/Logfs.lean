import Logfs.Lib.ByteBuffer
import Logfs.Lib.Program
import Logfs.Lib.WriteCache
import Logfs.Lib.HashTable
import Logfs.Lib.Transition
import Logfs.Lib.NameTree
import Logfs.Lib.ShiftRegister
import Logfs.DiskFormat
import Logfs.Crc32
import Logfs.BlockDev
import Logfs.Journal
import Logfs.Fs
import Logfs.Layout
import Logfs.JournalRun
import Logfs.LogRecord
import Logfs.LogScan
import Logfs.CommitSteps
import Logfs.CrashImages
import Logfs.Pipeline
import Logfs.LogInStep
import Logfs.PipelineRuns
import Logfs.CrashAtomicity
import Logfs.OneMount
import Logfs.Sessions
import Logfs.StaleReplay
import Logfs.LiveLog
import Logfs.RecordFormat
import Logfs.RecoveryCrash
import Logfs.Txn
import Logfs.Staging
import Logfs.CommitThread
import Logfs.Steps
import Logfs.Handles
import Logfs.HandleTag
import Logfs.Checkpoint
import Logfs.SystemInvariant
import Logfs.ReadModifyWrite
import Logfs.HandleAtomicity
import Logfs.OrderedFlush
import Logfs.TxnCalls
import Logfs.Inodes
import Logfs.FsOps
import Logfs.Volume
import Logfs.VolumeCalls
import Logfs.DirBlocks
import Logfs.VolumeTree
import Logfs.DirCalls
import Logfs.TreeEdits
import Logfs.DirAdd
import Logfs.FileCalls
import Logfs.OpInvariant
import Logfs.FsRuns
import Logfs.FormattedVolume
import Logfs.VolumeInvariants
import Logfs.Unmount
import Logfs.FsyncDurability
import Logfs.ScanTermination
import Logfs.ReplayContent
import Logfs.DamagedLog
import Logfs.CrashedFormat
import Logfs.StagingCap
import Logfs.FlatStore
import Logfs.TailOrder
import Logfs.FailedCommit
import Logfs.Unobservable
import Logfs.Checksum
import Logfs.BurstErrors
import Logfs.StagingTable
import Logfs.PathSplit
import Logfs.RecoveryRetry
import Logfs.Lib.LinkedQueue
import Logfs.WritebackQueue
import Logfs.FileBytes
import Logfs.FileContents
import Logfs.Lib.SlotTable
import Logfs.DirMap
import Logfs.Lib.FifoEviction
import Logfs.SpaceReclaim
import Logfs.Lib.UnitPool
import Logfs.Allocators
import Logfs.Lib.Outcomes
import Logfs.Lib.Contract
import Logfs.BlockHistory
import Logfs.BoundedRecords
import Logfs.DataPath
import Logfs.DataPathReplies
import Logfs.Confinement
import Logfs.ManagerHistory
import Logfs.ReservedBlocks
import Logfs.MountedFs
import Logfs.MountedCrash
import Logfs.Lib.NamePaths
import Logfs.Namespace
import Logfs.NamespaceCalls
import Logfs.MountedNamespace
import Logfs.ThreadAlone
import Logfs.MountedUnmount
import Logfs.Lib.Transfer
import Logfs.BackingFile
import Logfs.HostedMount
import Logfs.Files
import Logfs.MountedFiles
import Logfs.MountedFsync
import Logfs.LogMark
import Logfs.CleanSessions
import Logfs.DamagedSuper
