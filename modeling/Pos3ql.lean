import Pos3ql.Storage.AtomicVisibility
import Pos3ql.Storage.RowCapture
import Pos3ql.Storage.ExactPruning
import Pos3ql.Store.SstLookup
import Pos3ql.Wal.StaleBytes
import Pos3ql.Commit.CursorIsolation
import Pos3ql.Commit.RecoveryMerge
import Pos3ql.Locks.Deadlocks
import Pos3ql.Locks.AdvisoryStatements
import Pos3ql.Locks.PreparedKeys
import Pos3ql.Locks.SavepointRollback
import Pos3ql.Transaction.WriteUndo
import Pos3ql.Store.Lz4Grammar
import Pos3ql.Transaction.Serializable
import Pos3ql.Locks.PreparedRestore
import Pos3ql.Store.ValueIndexStream
import Pos3ql.Partition.RangeMatching
import Pos3ql.Transaction.KeptHistory
import Pos3ql.Numeric.IntegerComparison
import Pos3ql.Range.Position
import Pos3ql.Pattern.Like
import Pos3ql.Copy.CsvFormat
import Pos3ql.Datetime.Justify
