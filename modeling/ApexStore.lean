import ApexStore.Storage.WalSync
import ApexStore.Engine.CompactionDeletes
import ApexStore.Engine.KvCache
import ApexStore.Engine.WriterDurability
import ApexStore.Engine.Snapshots
import ApexStore.Engine.Corruption
import ApexStore.Engine.RangeCompaction
import ApexStore.Engine.CompactionLeftovers
import ApexStore.Engine.CompactionPaths
import ApexStore.Engine.SnapshotIsolation
import ApexStore.Api.ScanPages
import ApexStore.Infra.BulkIo
import ApexStore.Engine.SharedLogs
import ApexStore.Storage.WalPhantoms
import ApexStore.Engine.Reconcile
import ApexStore.Engine.IndexRuns
import ApexStore.Infra.DataSync
import ApexStore.Infra.MemoryLimiter
import ApexStore.Infra.Quotas
import ApexStore.Infra.BackupScheduler
import ApexStore.Api.SyncClients
import ApexStore.Api.Transactions
import ApexStore.Api.RateLimiter
import ApexStore.Infra.Replication
import ApexStore.Notes.LinkIndex
import ApexStore.Infra.AccessPolicies
import ApexStore.Api.TtlUpdates
