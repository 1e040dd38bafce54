import Rustikv.Equivalence
import Rustikv.Format.MemtableSize
import Rustikv.Format.RollingHash
import Rustikv.Kv.TornSegment
import Rustikv.Kv.ClockTies
import Rustikv.Kv.SegmentCount
import Rustikv.Kv.SegmentSize
import Rustikv.Kv.Fsync
import Rustikv.Kv.BackgroundWorker
import Rustikv.Kv.DeleteRace
import Rustikv.Kv.Restart
import Rustikv.Kv.Readers
import Rustikv.Lsm.Tiers
import Rustikv.Lsm.Scans
import Rustikv.Lsm.LevelCrash
import Rustikv.Lsm.Durability
import Rustikv.Lsm.TieredCrash
import Rustikv.Server.WorkerHandler
import Rustikv.Server.Responses
import Rustikv.Server.Cli
import Rustikv.Server.MultiGet
import Rustikv.Format.WalTail
import Rustikv.Lsm.StoredTable
import Rustikv.Lsm.BlockBodies
import Rustikv.Lsm.DamagedBlocks
import Rustikv.Server.Acceptor
import Rustikv.Server.CompactionFlag
import Rustikv.Server.Statistics
import Rustikv.Server.Lifecycle
import Rustikv.Server.Sweep
import Rustikv.Server.CrashedServer
import Rustikv.Server.Rustikli
import Rustikv.Server.Handover
import Rustikv.Server.Relay
import Rustikv.Server.PeriodicSync
import Rustikv.Lsm.RangeScan
import Rustikv.Lsm.KeyRange
import Rustikv.Lsm.Sessions
import Rustikv.Lsm.MergedReads
import Rustikv.Lsm.RebuiltIndex
import Rustikv.Lsm.Recompact
import Rustikv.Lsm.FailedFlush
import Rustikv.Lsm.Quiesce
import Rustikv.Lsm.SharedDirectory
import Rustikv.Lsm.Provenance
import Rustikv.Lsm.BackPressure
