import PagerDB.Basic
import PagerDB.Storage.Page
import PagerDB.BTree.Node
import PagerDB.Wal.Log
import PagerDB.Storage.Store
import PagerDB.BTree.Tree
import PagerDB.BTree.Cursor
import PagerDB.Lib.Sorted
import PagerDB.Lib.Machine
import PagerDB.BTree.NodeSpec
import PagerDB.BTree.Levels
import PagerDB.BTree.LeafRow
import PagerDB.Txn.LockManager
import PagerDB.Txn.LockTable
import PagerDB.Txn.WaitDie
import PagerDB.Storage.Run
import PagerDB.BTree.Climb
import PagerDB.BTree.Split
import PagerDB.BTree.Propagate
import PagerDB.BTree.Sound
import PagerDB.BTree.LeafOps
import PagerDB.BTree.PutSplit
import PagerDB.BTree.Ops
import PagerDB.BTree.Reads
import PagerDB.BTree.Scan
import PagerDB.BTree.OrderedMap
import PagerDB.BTree.Structure
import PagerDB.Lib.StrictLocking
import PagerDB.Txn.Transaction
import PagerDB.Txn.Serializable
import PagerDB.Storage.Pool
import PagerDB.Storage.OpGroups
import PagerDB.BTree.OpSteps
import PagerDB.Lib.LittleEndian
import PagerDB.Wal.Wire
import PagerDB.Wal.TornTail
import PagerDB.Wal.Reopen
import PagerDB.Recovery.Losers
import PagerDB.Db.Life
import PagerDB.Db.FreshLsn
import PagerDB.Db.LogPin
import PagerDB.Db.FullPage
import PagerDB.Db.TxIds
import PagerDB.BTree.Packed
import PagerDB.BTree.PutFits
import PagerDB.BTree.RecordSize
import PagerDB.Db.Handle
import PagerDB.Db.StatusOutcome
import PagerDB.Db.Poison
import PagerDB.Storage.Resident
import PagerDB.Recovery.Redo
import PagerDB.Recovery.Apply
import PagerDB.Recovery.Ahead
import PagerDB.Recovery.Converge
import PagerDB.Recovery.Trail
import PagerDB.Recovery.OpTrail
import PagerDB.Wal.FailedIo
import PagerDB.Storage.DualMeta
import PagerDB.BTree.TidyLeaves
import PagerDB.BTree.FastPath
import PagerDB.BTree.Routing
import PagerDB.Storage.PageAccounting
import PagerDB.BTree.LeafMap
import PagerDB.Storage.BufferPool
import PagerDB.Storage.Transparency
import PagerDB.Lib.Linearize
import PagerDB.BTree.SplitPieces
import PagerDB.BTree.Crabbing
import PagerDB.BTree.Standing
import PagerDB.BTree.SplitPhases
import PagerDB.BTree.SplitSteps
import PagerDB.BTree.SplitCommit
import PagerDB.BTree.Moves
import PagerDB.BTree.Latches
import PagerDB.BTree.Histories
import PagerDB.BTree.Interleaving
import PagerDB.BTree.Linearizable
import PagerDB.Lib.ShiftRegister
import PagerDB.Storage.Crc32
import PagerDB.Storage.Damage
import PagerDB.Storage.FreeList
import PagerDB.Db.Rollback
import PagerDB.BTree.PutRoom
import PagerDB.BTree.Composed
import PagerDB.Recovery.Undo
import PagerDB.Db.Lasting
import PagerDB.Db.RecordBounds
import PagerDB.Recovery.OpReplay
import PagerDB.Recovery.RedoLoop
import PagerDB.Recovery.Suffix
import PagerDB.Lib.Blind
import PagerDB.BTree.Miscount
import PagerDB.Recovery.Recount
import PagerDB.Lib.Ledger
import PagerDB.Wal.CutLog
import PagerDB.Recovery.Directory
import PagerDB.Recovery.Recording
import PagerDB.Recovery.Aftermath
import PagerDB.Recovery.LogGrowth
import PagerDB.Recovery.KeyLocks
import PagerDB.Recovery.CallSteps
import PagerDB.Recovery.Poisoned
import PagerDB.Recovery.Survival
import PagerDB.Recovery.Durability
import PagerDB.BTree.Churn
import PagerDB.BTree.CursorWalk
import PagerDB.BTree.SeekRace
import PagerDB.Storage.FrameBooks
import PagerDB.BTree.LatchOrder
import PagerDB.BTree.PinBudget
import PagerDB.Txn.LockSafety
import PagerDB.Txn.Wakeups
import PagerDB.Lib.Recency
import PagerDB.Storage.Replacement
import PagerDB.Lib.WaitGraph
import PagerDB.Db.CheckpointGate
