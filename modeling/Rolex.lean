import Rolex.Common
import Rolex.Model.InsertLeaf
import Rolex.Index.Visibility
import Rolex.Index.Locking
import Rolex.Version.Torn
import Rolex.Lib.Hopscotch
import Rolex.Dsm.Apart
import Rolex.Hopscotch.Chain
import Rolex.Hopscotch.Effect
import Rolex.Hopscotch.Search
import Rolex.Index.Range
import Rolex.Lib.Ticket
import Rolex.LocalLock.Balance
import Rolex.LocalLock.Coroutines
import Rolex.LocalLock.Handover
import Rolex.Model.Predict
import Rolex.Hopscotch.Bitmaps
import Rolex.Hopscotch.Lookup
import Rolex.Index.Buffers
import Rolex.Speculative.HopUpdate
import Rolex.Dsm.Align
import Rolex.Index.Reinsert
import Rolex.Lib.Region
import Rolex.Lib.Threaded
import Rolex.MemoryNode.Chains
import Rolex.MemoryNode.Lookup
import Rolex.Model.Allocator
import Rolex.Speculative.Cache
import Rolex.Version.Replicas
import Rolex.Hopscotch.Beside
import Rolex.Lib.Marshal
import Rolex.Model.Region
import Rolex.Model.Restore
import Rolex.Hopscotch.Refines
import Rolex.Index.Linear
import Rolex.Scheduler.Progress
import Rolex.Dsm.Keeper
