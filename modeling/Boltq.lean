import Boltq.Cache.Expiry
import Boltq.Cluster.Racks
import Boltq.Cluster.Terms
import Boltq.Ephemeral.Hub
import Boltq.Fanout.Duplicates
import Boltq.Fanout.Idempotent
import Boltq.Gateway.Delivery
import Boltq.Gateway.Partitions
import Boltq.Identity.Decisions
import Boltq.Identity.MembershipCache
import Boltq.Identity.Tokens
import Boltq.Outbox.Discovery
import Boltq.Outbox.PushCursor
import Boltq.Presence.Directory
import Boltq.Presence.Events
import Boltq.Presence.Owner
import Boltq.QueuePlane.Compaction
import Boltq.QueuePlane.DurableDelivery
import Boltq.QueuePlane.Leases
import Boltq.QueuePlane.Prefetch
import Boltq.QueuePlane.Recovery
import Boltq.QueuePlane.Replicas
import Boltq.QueuePlane.Rings
import Boltq.QueuePlane.Routing
import Boltq.QueuePlane.Snapshot
import Boltq.QueuePlane.Wal
import Boltq.Queuelog.Leadership
import Boltq.Queuelog.Order
import Boltq.Queuelog.Rewind
import Boltq.Queuelog.Router
import Boltq.Replication.Acks
import Boltq.Replication.BatchFrames
import Boltq.Replication.Connections
import Boltq.Replication.Watermark
import Boltq.Stream.CursorCompaction
import Boltq.Stream.CursorKeys
import Boltq.Stream.Fencing
import Boltq.Stream.Recovery
import Boltq.Stream.Retention
import Boltq.Stream.TermFaults
import Boltq.Stream.TopicDirs
import Boltq.Stream.Wakeups
import Boltq.Streamctl.Counts
import Boltq.Streamctl.Failover
import Boltq.Cluster.Moves
import Boltq.Cluster.Rebalance
