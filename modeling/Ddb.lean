import Ddb.Lib.Run
import Ddb.Concurrency.LockManager
import Ddb.Concurrency.WaitDie
import Ddb.Lib.Bytes
import Ddb.Lib.Op
import Ddb.Storage.Page
import Ddb.Storage.PageManager
import Ddb.Buffer.BufferPool
import Ddb.Buffer.WalBeforeData
import Ddb.Buffer.Invariant
import Ddb.Buffer.Transparency
import Ddb.Buffer.Flush
import Ddb.Storage.LogManager
import Ddb.Concurrency.Transaction
import Ddb.Concurrency.TransactionCoordinator
import Ddb.Concurrency.Effects
import Ddb.Concurrency.Steps
import Ddb.Concurrency.AbortSafety
import Ddb.Concurrency.Rollback
import Ddb.Concurrency.DirtyPages
import Ddb.Lib.History
import Ddb.Concurrency.PageHistory
import Ddb.Buffer.SingleClient
import Ddb.Recovery.Analysis
import Ddb.Recovery.ReplayContext
import Ddb.Recovery.Redo
import Ddb.Recovery.Undo
import Ddb.Recovery.Crash
import Ddb.Recovery.TerminalRecords
import Ddb.Recovery.Sessions
import Ddb.Concurrency.LockTable
import Ddb.Buffer.Moves
import Ddb.Buffer.Recency
import Ddb.Buffer.Clients
import Ddb.Storage.WalCodec
import Ddb.Storage.WalFile
import Ddb.Storage.WalCorruption
import Ddb.Concurrency.Paging
import Ddb.Execution.TableHeap
import Ddb.Execution.SlottedPage
import Ddb.Execution.HeapChain
import Ddb.Execution.HeapRefinement
import Ddb.Index.BPlusTree
import Ddb.Index.Store
import Ddb.Lib.Grouping
import Ddb.Index.Levels
import Ddb.Index.LevelInsert
import Ddb.Index.LevelRemove
import Ddb.Index.Leaves
import Ddb.Index.Insert
import Ddb.Index.Remove
import Ddb.Index.TreeRefinement
import Ddb.Index.Structure
import Ddb.Concurrency.Serializability
import Ddb.Storage.FileCrash
import Ddb.Storage.FailedAppend
import Ddb.Recovery.LostSlots
import Ddb.Recovery.RedoRestart
import Ddb.Concurrency.AllocationProtocol
import Ddb.Lib.PagedFailure
import Ddb.Index.FailedInsert
import Ddb.Lib.Images
import Ddb.Lib.PagedChange
import Ddb.Storage.MutationContext
import Ddb.Execution.MutationCapture
import Ddb.Execution.Executor
import Ddb.Execution.PlanSemantics
import Ddb.Execution.PlanExecution
import Ddb.Execution.Queries
import Ddb.Execution.IndexedTable
import Ddb.Concurrency.TransactionalAccess
import Ddb.Recovery.Separation
import Ddb.Buffer.PendingGates
import Ddb.Concurrency.GateAccounting
import Ddb.Execution.Aggregation
import Ddb.Index.Validation
import Ddb.Execution.IndexedRows
import Ddb.Recovery.AnalysisIndex
import Ddb.Execution.HeapCheck
