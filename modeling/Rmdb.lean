import Rmdb.Lib.Run
import Rmdb.Lib.KeyIndex
import Rmdb.Transaction.RecordLocks
import Rmdb.Storage.Coherence
import Rmdb.Storage.FailedRead
import Rmdb.Storage.Offsets
import Rmdb.Record.HeapMap
import Rmdb.Record.PutBack
import Rmdb.Record.RefusedInsert
import Rmdb.Record.HeapScan
import Rmdb.Recovery.Durability
import Rmdb.Execution.Rollback
import Rmdb.Lib.Outcome
import Rmdb.Lib.Words
import Rmdb.Lib.SortedMap
import Rmdb.Lib.Blocks
import Rmdb.Index.BTree
import Rmdb.Lib.Separators
import Rmdb.Index.TreeInv
import Rmdb.Transaction.TableLocks
import Rmdb.Recovery.WriteAhead
import Rmdb.Record.FileSize
import Rmdb.Index.PageNumbers
import Rmdb.Index.TreeShape
import Rmdb.Index.TreeDelete
import Rmdb.Lib.LinkedList
import Rmdb.Index.LeafChain
import Rmdb.Index.TreeOrder
import Rmdb.Recovery.LogBuffer
import Rmdb.Recovery.LogReader
import Rmdb.Storage.Descriptors
import Rmdb.Recovery.Catalog
import Rmdb.Recovery.Bookkeeping
import Rmdb.Transaction.LockSets
import Rmdb.Transaction.ScanLocks
import Rmdb.Transaction.GapLocks
import Rmdb.Execution.ConcurrentInserts
import Rmdb.Execution.RangeReads
import Rmdb.Optimizer.JoinPlans
import Rmdb.Execution.JoinChildren
import Rmdb.Execution.JoinPairs
import Rmdb.Execution.Evaluators
import Rmdb.Execution.Aggregate
import Rmdb.Execution.Sort
import Rmdb.Parser.Lexer
import Rmdb.Lib.Decimal
import Rmdb.Common.Datetime
import Rmdb.Analyze.Literals
import Rmdb.System.DbMeta
import Rmdb.System.SmManager
import Rmdb.System.CatalogInv
import Rmdb.System.Ddl
import Rmdb.System.TableLayout
import Rmdb.System.Agreement
import Rmdb.System.Reply
import Rmdb.System.IndexNames
import Rmdb.Index.IxFileHdr
import Rmdb.Index.KeyOrder
import Rmdb.Record.Probes
import Rmdb.Index.IxScan
import Rmdb.Index.TreeRefines
import Rmdb.Index.MapKeys
import Rmdb.Index.Build
import Rmdb.System.IndexFill
import Rmdb.Transaction.Serializable
import Rmdb.Execution.IndexScan
import Rmdb.Optimizer.JoinSides
import Rmdb.Execution.PlanTuples
import Rmdb.Execution.SelectStatement
import Rmdb.Lib.Transactional
import Rmdb.Execution.StatementMeaning
import Rmdb.Execution.Restore
import Rmdb.Execution.Session
import Rmdb.Lib.Derivation
import Rmdb.Lib.Lr
import Rmdb.Parser.Ast
import Rmdb.Parser.Grammar
import Rmdb.Parser.Certificate
import Rmdb.Parser.Yyparse
import Rmdb.Parser.Requests
