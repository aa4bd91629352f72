import Felis.Contention.Autotune
import Felis.Contention.Exhaustion
import Felis.Contention.Positions
import Felis.Contention.Splitting
import Felis.Contention.Weights
import Felis.Coro.FutureSafety
import Felis.Coro.OooHeap
import Felis.Epoch.Determinism
import Felis.Epoch.PromiseMemory
import Felis.Gc.Prepare
import Felis.Index.HashtableSafety
import Felis.Locality.Schedule
import Felis.Mem.ParallelPool
import Felis.Phase.Flush
import Felis.Phase.InboundAccounting
import Felis.Phase.Isolation
import Felis.Phase.Outbound
import Felis.Piece.BufferPlan
import Felis.Pwv.Edges
import Felis.Pwv.Scheduler
import Felis.Row.Booking
import Felis.Row.Inline
import Felis.Row.Spinner
import Felis.Sched.Backoff
import Felis.Sched.Ring
import Felis.Shipping.LiveUpdate
import Felis.Shipping.Scan
import Felis.Shipping.SendIOVec
import Felis.Shipping.Wire
import Felis.Slice.Lookup
import Felis.Sql.InlineStr
import Felis.Sql.Values
import Felis.Transport.SendAlloc
import Felis.Transport.Stream
import Felis.Txn.CommitBuffer
import Felis.Txn.RangeLookup
import Felis.Util.McsLock
import Felis.Util.VarStrView
import Felis.Ycsb.Partition
