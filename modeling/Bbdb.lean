import Bbdb.Block.Event
import Bbdb.Lib.Bytes
import Bbdb.Lib.Calendar
import Bbdb.Lib.GoTime
import Bbdb.Lib.OrdMap
import Bbdb.Lib.Prog
import Bbdb.Lib.StrictWeak
import Bbdb.Lib.Text
import Bbdb.Meta.Keys
import Bbdb.Meta.Store
import Bbdb.World
import Bbdb.Block.Format
import Bbdb.Tier.Local
import Bbdb.Block.Sealer
import Bbdb.Block.CrashSafety
import Bbdb.Ingestion.RingBuf
import Bbdb.Ingestion.Writer
import Bbdb.Ttl.Reaper
import Bbdb.Meta.Wal
import Bbdb.Ingestion.Runs
import Bbdb.Ingestion.Sealed
import Bbdb.Ingestion.Durability
import Bbdb.Grpc.Convert
import Bbdb.Index.SparseIndex
import Bbdb.Ingestion.Hours
import Bbdb.Ttl.Retention
import Bbdb.Lib.Heap
import Bbdb.Query.Merger
import Bbdb.Index.BloomCache
import Bbdb.Query.BlockReader
import Bbdb.Query.Engine
import Bbdb.Lib.Conc
import Bbdb.Query.Visible
import Bbdb.Query.Refines
import Bbdb.Query.Intact
import Bbdb.Index.Coherence
import Bbdb.Query.Migration
import Bbdb.Meta.WalHistory
import Bbdb.Meta.WalRange
import Bbdb.Ttl.Janitor
import Bbdb.Ttl.Live
import Bbdb.Ttl.Orphans
import Bbdb.Block.Stages
import Bbdb.Query.Appears
import Bbdb.Query.Reaped
import Bbdb.Meta.KeySpace
import Bbdb.Lib.Checked
import Bbdb.Query.Bounds
import Bbdb.Ingestion.RingSteps
import Bbdb.Grpc.Writers
import Bbdb.Grpc.IngestionServer
import Bbdb.Grpc.Shutdown
import Bbdb.Meta.WalAppends
import Bbdb.Ttl.ExpiryKeys
import Bbdb.Ingestion.Conservation
import Bbdb.Tier.Names
import Bbdb.Index.CacheInvariant
import Bbdb.Index.History
import Bbdb.Grpc.QueryServer
import Bbdb.Ttl.Overdue
import Bbdb.Grpc.EventTypes
import Bbdb.Ttl.Entries
import Bbdb.Ttl.ReadErrors
import Bbdb.Ttl.Effect
import Bbdb.Query.Swept
import Bbdb.Query.FailedSeal
import Bbdb.Lib.Layout
import Bbdb.Block.Codec
import Bbdb.Lib.Workers
import Bbdb.Query.Workers
import Bbdb.Meta.Catalog
import Bbdb.Tier.Shelves
import Bbdb.Grpc.RoundTrip
import Bbdb.Query.Parallel
import Bbdb.Server.Lifecycle
import Bbdb.Ttl.Redo
