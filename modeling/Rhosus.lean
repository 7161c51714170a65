import Rhosus.Api.Router
import Rhosus.Api.Server
import Rhosus.Api.Sessions
import Rhosus.Api.Tokens
import Rhosus.Cluster.Aborted
import Rhosus.Cluster.Applied
import Rhosus.Cluster.Buffer
import Rhosus.Cluster.Campaign
import Rhosus.Cluster.CaughtUp
import Rhosus.Cluster.Election
import Rhosus.Cluster.Entry
import Rhosus.Cluster.Logs
import Rhosus.Cluster.Matching
import Rhosus.Cluster.Net
import Rhosus.Cluster.Node
import Rhosus.Cluster.Pipeline
import Rhosus.Cluster.Poll
import Rhosus.Cluster.Reboot
import Rhosus.Cluster.Recovery
import Rhosus.Cluster.Replication
import Rhosus.Cluster.Steps
import Rhosus.Cluster.Terms
import Rhosus.Cluster.Writers
import Rhosus.Data.Absent
import Rhosus.Data.Custody
import Rhosus.Data.Headers
import Rhosus.Data.IdxFile
import Rhosus.Data.Lifetimes
import Rhosus.Data.Manager
import Rhosus.Data.Partition
import Rhosus.Data.Placed
import Rhosus.Data.Removals
import Rhosus.Data.Restart
import Rhosus.Data.Rewrites
import Rhosus.Data.Sink
import Rhosus.Data.Slots
import Rhosus.Data.Uploads
import Rhosus.Lib.Appends
import Rhosus.Lib.Backed
import Rhosus.Lib.Base64
import Rhosus.Lib.Calls
import Rhosus.Lib.Faults
import Rhosus.Lib.Files
import Rhosus.Lib.Forest
import Rhosus.Lib.Group
import Rhosus.Lib.Hex
import Rhosus.Lib.Lru
import Rhosus.Lib.Proto
import Rhosus.Lib.Ring
import Rhosus.Lib.Runs
import Rhosus.Lib.SliceSort
import Rhosus.Lib.Table
import Rhosus.Lib.Traces
import Rhosus.Lib.Unknown
import Rhosus.Lib.Url
import Rhosus.Lib.Uvarint
import Rhosus.Lib.Wire
import Rhosus.Pb.Codecs
import Rhosus.Pb.Messages
import Rhosus.Registry.Blocks
import Rhosus.Registry.Creators
import Rhosus.Registry.Delivery
import Rhosus.Registry.Descent
import Rhosus.Registry.Discard
import Rhosus.Registry.Discovery
import Rhosus.Registry.Download
import Rhosus.Registry.Follower
import Rhosus.Registry.Handlers
import Rhosus.Registry.Listing
import Rhosus.Registry.Mirror
import Rhosus.Registry.Mutators
import Rhosus.Registry.Namespace
import Rhosus.Registry.PutFile
import Rhosus.Registry.Refusals
import Rhosus.Registry.Reload
import Rhosus.Registry.Removal
import Rhosus.Registry.Replicas
import Rhosus.Registry.Roles
import Rhosus.Registry.Roundtrip
import Rhosus.Registry.Storage
import Rhosus.Registry.Streams
import Rhosus.Registry.Transfer
import Rhosus.Registry.Verbs
import Rhosus.Registry.Watch
import Rhosus.Util.Queue
import Rhosus.Util.Slices
import Rhosus.Util.Uuid
import Rhosus.Wal.Batches
import Rhosus.Wal.Cache
import Rhosus.Wal.CutErrors
import Rhosus.Wal.CutFailures
import Rhosus.Wal.Failures
import Rhosus.Wal.Inv
import Rhosus.Wal.Layout
import Rhosus.Wal.Log
import Rhosus.Wal.Names
import Rhosus.Wal.Order
import Rhosus.Wal.Parse
import Rhosus.Wal.Reads
import Rhosus.Wal.Records
import Rhosus.Wal.Recover
import Rhosus.Wal.Refine
import Rhosus.Wal.Spec
import Rhosus.Wal.Truncate
import Rhosus.Wal.Writes
