import MatrixCache.Cluster.ManyMembers
import MatrixCache.Cluster.Disruption
import MatrixCache.Replacement.ArcWide
import MatrixCache.Zoned.Recovery
import MatrixCache.Store.Torn
import MatrixCache.Manifest.Torn
import MatrixCache.Cluster.Routing
import MatrixCache.Replacement.ArcResize
import MatrixCache.Zoned.OneLog
import MatrixCache.Replacement.SlruLedger
import MatrixCache.Replacement.ConcurrentRuns
import MatrixCache.Ssd.WriteBudget
import MatrixCache.Cache.Decoders
import MatrixCache.Cache.Grouping
import MatrixCache.Rdma.Runs
import MatrixCache.Cache.Growth
import MatrixCache.Ssd.Reclaimed
import MatrixCache.Cache.Coalesce
import MatrixCache.Cache.Hits
import MatrixCache.Facades.SimpleLruRuns
import MatrixCache.Manifest.DiskIndex
import MatrixCache.Store.Hostile
import MatrixCache.Cache.OrderRuns
import MatrixCache.Zoned.Identity
import MatrixCache.Cache.QueueRuns
import MatrixCache.Replacement.SlruNodes
import MatrixCache.Store.Checksum
