import LakeVilla.Concurrency.Program
import LakeVilla.Concurrency.RelyGuarantee
import LakeVilla.Transaction.Operations
import LakeVilla.Data.Versioned
import LakeVilla.Checkpoint.Replay
import LakeVilla.Checkpoint.LastCheckpoint
import LakeVilla.Protocol.LiveFiles
import LakeVilla.Protocol.Tracking
import LakeVilla.Protocol.Open
import LakeVilla.Protocol.Wait
import LakeVilla.Protocol.Shift
import LakeVilla.Protocol.Operate
import LakeVilla.Protocol.Redo
import LakeVilla.Protocol.Write
import LakeVilla.Protocol.Global
import LakeVilla.Protocol.Repair
import LakeVilla.Protocol.Commit
import LakeVilla.Protocol.System
import LakeVilla.Guarantees.Service
import LakeVilla.Guarantees.Fencing
import LakeVilla.Guarantees.Once
import LakeVilla.Guarantees.Atomicity
import LakeVilla.Guarantees.Overtaking
import LakeVilla.Guarantees.RedoSnapshot
import LakeVilla.Guarantees.ReaderSnapshot
import LakeVilla.Guarantees.WriteSkew
import LakeVilla.Guarantees.OneMarker
import LakeVilla.Guarantees.LockExclusion
import LakeVilla.Protocol.Entries
import LakeVilla.Guarantees.Ledger
import LakeVilla.Spec.ReadOptimizedSafety
import LakeVilla.Spec.WriteOptimizedSafety
import LakeVilla.Spec.DependencyCycles
import LakeVilla.Guarantees.LeaseClock
import LakeVilla.Guarantees.OwnStatistics
import LakeVilla.Guarantees.UpdateHalves
import LakeVilla.Guarantees.ReplayOrder
import LakeVilla.Guarantees.LogFileNames
import LakeVilla.Guarantees.NewestCheckpoint
import LakeVilla.Guarantees.SublogLines
import LakeVilla.Guarantees.OwnUpdate
import LakeVilla.Guarantees.OwnCommit
import LakeVilla.Guarantees.SchemaRoundTrip
import LakeVilla.Guarantees.RedoOrder
import LakeVilla.Guarantees.CheckpointRoundTrip
import LakeVilla.Concurrency.Solo
import LakeVilla.Spec.Opening
import LakeVilla.Opening.Markers
import LakeVilla.Opening.Calls
import LakeVilla.Opening.Reserve
import LakeVilla.Opening.Load
import LakeVilla.Opening.Reopen
import LakeVilla.Guarantees.OpenTables
import LakeVilla.Guarantees.TimestampConversion
import LakeVilla.Guarantees.ParallelRead
import LakeVilla.Guarantees.RedoArithmetic
import LakeVilla.Guarantees.GlobalEntries
import LakeVilla.Schema.Readable
import LakeVilla.Tables.CreateTable
import LakeVilla.Guarantees.NewTable
import LakeVilla.Guarantees.NotNull
import LakeVilla.Guarantees.InterruptedDrop
import LakeVilla.Concurrency.Calls
import LakeVilla.Guarantees.FirstVersion
import LakeVilla.Tables.ConcurrentCreate
import LakeVilla.Guarantees.ConcurrentCreate
import LakeVilla.Spec.ReadOptimizedLiveness
import LakeVilla.Spec.WriteOptimizedRecovery
import LakeVilla.Keys.VersionText
import LakeVilla.Keys.VersionReading
import LakeVilla.Keys.CommitText
import LakeVilla.Guarantees.VersionText
import LakeVilla.Concurrency.Lifting
import LakeVilla.Checkpoint.TableLog
import LakeVilla.Guarantees.Checkpoints
import LakeVilla.Guarantees.MemoryStore
import LakeVilla.Guarantees.TransactionIds
