import TFCommon.BitSet.Model
import TFCommon.BitSet.Algebra
import TFCommon.BitSet.Runs
import TFCommon.BitSet.Query
import TFCommon.Lib.BitString
import TFCommon.Lib.Loop
import TFCommon.Patricia.Key
import TFCommon.Lib.BinTree
import TFCommon.Patricia.Tree
import TFCommon.Patricia.Trie
import TFCommon.Patricia.Threads
import TFCommon.Patricia.Lookup
import TFCommon.Patricia.Iterate
import TFCommon.Patricia.Previous
import TFCommon.Patricia.Rewire
import TFCommon.Patricia.Insert
import TFCommon.Patricia.Remove
import TFCommon.Patricia.Refine
import TFCommon.Patricia.FindNext
import TFCommon.Patricia.Successor
import TFCommon.Patricia.Queries
import TFCommon.Lib.KeyedList
import TFCommon.Scheduler.Model
import TFCommon.Scheduler.Invariant
import TFCommon.Scheduler.Queues
import TFCommon.Scheduler.Drain
import TFCommon.Scheduler.DeferQ
import TFCommon.Scheduler.Operations
import TFCommon.Scheduler.Policy
import TFCommon.Scheduler.Reachable
import TFCommon.Lib.Token
import TFCommon.QueueTask.Model
import TFCommon.QueueTask.Delivery
import TFCommon.QueueTask.Shutdown
import TFCommon.Timers.Cancel
import TFCommon.Lifetime.Model
import TFCommon.Lifetime.Safety
import TFCommon.Pipeline.Model
import TFCommon.Pipeline.Stage
import TFCommon.Pipeline.Order
import TFCommon.Pipeline.Completion
import TFCommon.Address.Model
import TFCommon.Address.Subnet
import TFCommon.Address.U64
import TFCommon.Lib.Decimal
import TFCommon.Sandesh.Reader
import TFCommon.Sandesh.Framing
import TFCommon.Sandesh.Hostile
import TFCommon.Lib.Entity
import TFCommon.Sandesh.Xml
import TFCommon.Lib.Tape
import TFCommon.Sandesh.Lookahead
import TFCommon.Sandesh.Truncated
import TFCommon.Sandesh.XmlString
import TFCommon.Lib.Frames
import TFCommon.Tcp.Reader
import TFCommon.ConfigClient.Reinit
import TFCommon.Tcp.Framing
import TFCommon.Tcp.Pipe
import TFCommon.Tcp.Server
import TFCommon.Udp.Server
import TFCommon.ConfigClient.BulkOrder
import TFCommon.ConfigClient.Cassandra
import TFCommon.ConfigClient.Converge
import TFCommon.ConfigClient.Mirror
import TFCommon.Lib.Keeps
import TFCommon.Proto.Grammar
import TFCommon.Proto.Inside
import TFCommon.Lib.Chunks
import TFCommon.Lib.Counted
import TFCommon.Lib.HashRing
import TFCommon.Partition.Agreement
import TFCommon.Partition.Ownership
import TFCommon.Sandesh.Binary
import TFCommon.Sandesh.BinaryRead
import TFCommon.Sandesh.BinaryWrite
import TFCommon.Sandesh.PyFraming
import TFCommon.Sandesh.Writer
import TFCommon.SandeshClient.Lifecycle
import TFCommon.SandeshClient.Stale
import TFCommon.Address.Text
import TFCommon.Cql.Injection
import TFCommon.Bgpaas.Ports
import TFCommon.Scheduler.Fifo
import TFCommon.Scheduler.SelfExclusion
import TFCommon.Scheduler.Stopping
import TFCommon.Scheduler.TaskIds
import TFCommon.Zookeeper.Lock
import TFCommon.Scheduler.Accounting
import TFCommon.Scheduler.Draining
import TFCommon.Sandesh.PyMachine
import TFCommon.Scheduler.TaskTrigger
import TFCommon.Pipeline.Failure
import TFCommon.Trace.SeqNum
import TFCommon.ConfigClient.EtcdDiff
import TFCommon.Cql.Sessions
import TFCommon.Http.Requests
import TFCommon.Sandesh.CData
import TFCommon.Sandesh.Pending
import TFCommon.DerivedStats.Maps
import TFCommon.PyQueue.Runner
import TFCommon.Flags.Manager
import TFCommon.Tcp.SoftErrors
