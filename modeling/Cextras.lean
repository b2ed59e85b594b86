import Cextras.Lib.Machine
import Cextras.Lib.Triple
import Cextras.Lib.Run
import Cextras.Lib.Inert
import Cextras.Lib.Footprint
import Cextras.Lib.Requests
import Cextras.Lib.Ledger
import Cextras.Lib.Linked
import Cextras.Lib.Ring
import Cextras.Lib.Realloc
import Cextras.Lib.Interleave
import Cextras.Lib.Sync
import Cextras.Lib.Settle
import Cextras.Lib.Calls
import Cextras.Lib.CText
import Cextras.Memory.PreallocPool
import Cextras.Memory.Rc
import Cextras.Memory.Proofs.RcProtocol
import Cextras.Memory.Proofs.PoolInv
import Cextras.Memory.Proofs.PoolOps
import Cextras.Memory.Proofs.PoolFootprint
import Cextras.Memory.Proofs.PoolRuns
import Cextras.Memory.Proofs.PoolEconomy
import Cextras.Memory.Proofs.PoolRefused
import Cextras.Memory.Proofs.PoolContents
import Cextras.Collection.Error
import Cextras.Collection.Buffer
import Cextras.Collection.Proofs.BufferOps
import Cextras.Collection.Proofs.BufferRuns
import Cextras.Collection.Proofs.BufferGrowth
import Cextras.Collection.Collector
import Cextras.Collection.Proofs.CollectorRuns
import Cextras.Collection.Proofs.CollectorFootprint
import Cextras.Collection.Proofs.CollectorEconomy
import Cextras.Collection.RadixTree
import Cextras.Collection.Proofs.RadixKey
import Cextras.Collection.Proofs.RadixWalk
import Cextras.Collection.Proofs.RadixInv
import Cextras.Collection.Proofs.RadixOps
import Cextras.Collection.Proofs.RadixMap
import Cextras.Collection.Proofs.RadixRuns
import Cextras.Collection.Proofs.RadixRefused
import Cextras.Collection.Proofs.RadixMisused
import Cextras.Collection.Proofs.RadixGrowth
import Cextras.Collection.RcRadixTree
import Cextras.Collection.Proofs.RcRadix
import Cextras.Collection.Proofs.RadixFootprint
import Cextras.Collection.Proofs.RadixBranches
import Cextras.Collection.RcMap
import Cextras.Collection.Proofs.RcMapOps
import Cextras.Collection.Proofs.RcMapFootprint
import Cextras.Collection.RcHashMap
import Cextras.Collection.Proofs.HashTable
import Cextras.Collection.Proofs.HashOps
import Cextras.Collection.Proofs.HashRefused
import Cextras.Collection.Proofs.HashView
import Cextras.Collection.Proofs.HashBook
import Cextras.Collection.Proofs.HashClient
import Cextras.Collection.Proofs.HashFootprint
import Cextras.Collection.Proofs.HashEconomy
import Cextras.Collection.Proofs.HashUnique
import Cextras.Collection.Proofs.HashComplete
import Cextras.Collection.Proofs.HashAbsent
import Cextras.Collection.Proofs.HashKeys
import Cextras.Collection.Proofs.HashStays
import Cextras.Collection.Lru
import Cextras.Collection.Proofs.LruOps
import Cextras.Collection.Proofs.LruClient
import Cextras.Collection.Proofs.LruAccount
import Cextras.Collection.Proofs.RcMapBook
import Cextras.Collection.Proofs.RcMapRuns
import Cextras.Collection.Proofs.LruStores
import Cextras.Collection.Proofs.LruFootprint
import Cextras.Collection.Proofs.LruRecency
import Cextras.Collection.Proofs.LruTally
import Cextras.Collection.Proofs.LruMarker
import Cextras.Collection.Proofs.HashShare
import Cextras.Collection.Proofs.HashLru
import Cextras.Collection.Proofs.LruTouchValue
import Cextras.Unicode.Utf8
import Cextras.Unicode.Width
import Cextras.Unicode.Proofs.Encode
import Cextras.Unicode.Codegen
import Cextras.Unicode.CodegenInput
import Cextras.Unicode.Proofs.RadixTable
import Cextras.Unicode.Proofs.WidthTables
import Cextras.Unicode.Proofs.CodegenInput
import Cextras.Lib.Chunks
import Cextras.Unicode.WidthData
import Cextras.Unicode.Proofs.WidthData
import Cextras.Unicode.Proofs.Characters
import Cextras.Unicode.Proofs.Decoder
import Cextras.Unicode.Proofs.Columns
import Cextras.Unicode.Proofs.Walkers
import Cextras.Unicode.Proofs.Agreement
import Cextras.Unicode.Proofs.Tabs
import Cextras.Unicode.Proofs.ZeroWidth
import Cextras.Concurrency.Threadpool
import Cextras.Concurrency.Proofs.PoolSteps
import Cextras.Concurrency.Proofs.PoolLocks
import Cextras.Concurrency.Proofs.WorkerSleep
import Cextras.Concurrency.Proofs.WaiterSleep
import Cextras.Concurrency.Proofs.TaskBook
import Cextras.Concurrency.Proofs.TaskCells
import Cextras.Concurrency.Proofs.TaskMoves
import Cextras.Concurrency.Proofs.TaskWorkers
import Cextras.Concurrency.Proofs.TaskClients
import Cextras.Concurrency.Proofs.TaskRuns
import Cextras.Concurrency.Proofs.TaskQueues
import Cextras.Concurrency.Proofs.WaitBarrier
import Cextras.Concurrency.Proofs.PoolWork
import Cextras.Concurrency.Proofs.Shutdown
import Cextras.Concurrency.Proofs.PoolSettles
import Cextras.Concurrency.Proofs.PoolShutdown
import Cextras.Concurrency.ThreadpoolFailures
import Cextras.Concurrency.Proofs.InitCodes
import Cextras.Concurrency.Proofs.ReturnCodes
import Cextras.Concurrency.Semaphore
import Cextras.Concurrency.Proofs.SemaphoreCounts
import Cextras.Concurrency.Proofs.SemaphoreSettles
import Cextras.Concurrency.Future
import Cextras.Concurrency.Proofs.FutureAgreement
import Cextras.Concurrency.Proofs.FutureOnce
import Cextras.Concurrency.Proofs.FutureSettles
import Cextras.Concurrency.Proofs.Lifetimes
