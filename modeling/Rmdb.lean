import Rmdb.Lib.Transition
import Rmdb.Transaction.TxnDefs
import Rmdb.Transaction.LockMode
import Rmdb.Transaction.LockManager
import Rmdb.Transaction.LockInvariant
import Rmdb.Lib.Schedule
import Rmdb.Transaction.Concurrency
import Rmdb.Transaction.Serializability
import Rmdb.Storage.Disk
import Rmdb.Storage.LruReplacer
import Rmdb.Storage.BufferPool
import Rmdb.Storage.PoolInvariant
import Rmdb.Storage.PoolSpec
import Rmdb.Storage.PoolSystem
import Rmdb.Lib.AgeQueue
import Rmdb.Storage.LruQueue
import Rmdb.Storage.PinnedFrames
import Rmdb.Storage.DeleteAllPage
import Rmdb.Storage.PageStore
import Rmdb.Lib.Bytes
import Rmdb.Storage.DiskManager
import Rmdb.Storage.FailedIo
import Rmdb.Storage.PageAccess
import Rmdb.Record.PageLayout
import Rmdb.Record.RmFileHandle
import Rmdb.Record.FileInvariant
import Rmdb.Record.FileSpec
import Rmdb.Record.Refinement
import Rmdb.Record.RecordMap
import Rmdb.Record.NullContext
import Rmdb.Execution.Values
import Rmdb.Execution.Table
import Rmdb.Execution.IndexMaintenance
import Rmdb.Execution.Rollback
import Rmdb.Lib.SortedKeys
import Rmdb.Index.IxNodeHandle
import Rmdb.Index.IxIndexHandle
import Rmdb.Index.TreeInvariant
import Rmdb.Index.TreeSearch
import Rmdb.Index.Separators
import Rmdb.Index.Split
import Rmdb.Index.InsertParent
import Rmdb.Index.InsertEntry
import Rmdb.Index.BTree
import Rmdb.Index.IxCompare
import Rmdb.Index.InsertRuns
import Rmdb.Index.LostEntries
import Rmdb.Recovery.LogManager
import Rmdb.Server.ClientHandler
import Rmdb.Server.SessionLocks
import Rmdb.Server.Sessions
import Rmdb.Server.TransactionEnds
import Rmdb.Transaction.HeldLocks
import Rmdb.Transaction.LockSets
import Rmdb.Transaction.ReleaseOrder
import Rmdb.Execution.FailedStatement
import Rmdb.Execution.ConcurrentInsert
import Rmdb.Recovery.TableStore
import Rmdb.Recovery.WriteAhead
import Rmdb.System.SmManager
import Rmdb.System.FileHandles
import Rmdb.Lib.Assignment
import Rmdb.Execution.Binop
import Rmdb.Optimizer.Planner
import Rmdb.Optimizer.PlanMeaning
import Rmdb.Optimizer.MakeOneRel
import Rmdb.Lib.Stream
import Rmdb.System.SmMeta
import Rmdb.System.TablePages
import Rmdb.System.Database
import Rmdb.System.DatabaseInvariant
import Rmdb.System.Reopen
import Rmdb.Index.NodeInsert
import Rmdb.Index.RawKeys
import Rmdb.Index.LeafLinks
import Rmdb.Index.Siblings
import Rmdb.Index.Coalesce
import Rmdb.Index.DeleteLatches
import Rmdb.Index.DeleteMerge
import Rmdb.Index.Redistribute
import Rmdb.Index.ThinParent
import Rmdb.Index.MergeLeaves
import Rmdb.Index.DeleteEntry
import Rmdb.Index.DeleteRuns
import Rmdb.Recovery.Restarts
import Rmdb.Server.ParserMutex
import Rmdb.Transaction.TableLocks
import Rmdb.Lib.Cursor
import Rmdb.Index.IxScan
import Rmdb.Record.RmScan
import Rmdb.Execution.KeyRange
import Rmdb.Execution.ScanExecutors
import Rmdb.Execution.ValueOrder
import Rmdb.Execution.KeyRangeEnds
import Rmdb.Index.RangeScan
import Rmdb.Optimizer.IndexChoice
import Rmdb.Optimizer.ScanConds
import Rmdb.Execution.Aggregate
import Rmdb.Execution.SetClauses
import Rmdb.Execution.SetSums
import Rmdb.Lib.Traversal
import Rmdb.Lib.NestedLoop
import Rmdb.Lib.SortBy
import Rmdb.Execution.Executors
import Rmdb.Execution.BlockJoin
import Rmdb.Execution.EmptyJoins
import Rmdb.Optimizer.SortPlan
import Rmdb.Execution.SortExecutor
import Rmdb.Execution.RowContract
import Rmdb.Execution.Literals
import Rmdb.System.CreateIndexCall
import Rmdb.System.IndexBuild
import Rmdb.System.OpenHandles
import Rmdb.System.DropTableCall
import Rmdb.System.Catalog
import Rmdb.Lib.KeyIndex
import Rmdb.Lib.RawMemory
import Rmdb.Lib.ByteReader
import Rmdb.Lib.Journal
import Rmdb.Lib.Replay
import Rmdb.Recovery.LogBytes
import Rmdb.Recovery.RawLogRecords
import Rmdb.Lib.BackChain
import Rmdb.Recovery.LogChains
import Rmdb.Recovery.PageStamps
import Rmdb.Recovery.Analyze
import Rmdb.Recovery.LogWindows
import Rmdb.Recovery.TornTail
import Rmdb.Recovery.ActiveTable
import Rmdb.Recovery.RecordPages
import Rmdb.Recovery.Undo
import Rmdb.Recovery.DirtyPages
import Rmdb.Recovery.PageOrder
import Rmdb.Recovery.Redo
import Rmdb.Recovery.RedoRuns
import Rmdb.Storage.PageRanges
import Rmdb.Index.RankedPages
import Rmdb.Index.PageReuse
import Rmdb.Lib.PinLedger
import Rmdb.Index.NodePins
import Rmdb.Lib.Program
import Rmdb.Record.RecordPrograms
import Rmdb.Record.RecordPins
import Rmdb.Storage.FramePins
import Rmdb.Record.RecordUsers
import Rmdb.Record.PageFile
import Rmdb.Record.PlacedInsert
import Rmdb.Record.ScanOrder
import Rmdb.System.CatalogText
import Rmdb.Index.IxManager
import Rmdb.Lib.Decimal
import Rmdb.Parser.ValueInt
import Rmdb.Parser.Datetime
import Rmdb.Execution.DatetimeOrder
import Rmdb.Lib.JoinedWords
import Rmdb.Index.IndexNames
import Rmdb.Lib.Bisect
import Rmdb.Index.NodeSearch
import Rmdb.Index.MaintainParent
import Rmdb.Lib.SlotArray
import Rmdb.Index.NodeBytes
import Rmdb.Lib.ShiftReduce
import Rmdb.Parser.Ast
import Rmdb.Parser.Grammar
import Rmdb.Parser.Tables
import Rmdb.Parser.Report
import Rmdb.Parser.Yyparse
import Rmdb.Parser.StackValues
import Rmdb.Parser.Simulation
import Rmdb.Parser.Statements
import Rmdb.Parser.StatementTokens
import Rmdb.Lib.Scanner
import Rmdb.Parser.Lexer
