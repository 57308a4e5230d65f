import WiredTiger.Modify.CalcSound
import WiredTiger.Btree.PrefixSearch
import WiredTiger.Txn.FirstUpdater
import WiredTiger.Txn.SnapshotReads
import WiredTiger.Pack.Order
import WiredTiger.Pack.Dot
import WiredTiger.Pack.SizeAdjust
import WiredTiger.Txn.TimestampOrder
import WiredTiger.Txn.GlobalVisible
import WiredTiger.Cell.WindowsMade
import WiredTiger.Cell.Aggregates
import WiredTiger.Cell.ValueMatch
import WiredTiger.Cell.UnpackBounds
import WiredTiger.Cell.UnpackEnds
import WiredTiger.Column.BulkSplit
import WiredTiger.Support.RwLockSafety
import WiredTiger.Log.Replay
import WiredTiger.Support.HuffmanRoundTrip
import WiredTiger.Btree.LeafKeysRead
import WiredTiger.Txn.CheckpointSafe
import WiredTiger.Txn.ModCompare
import WiredTiger.Txn.ObsoleteCut
import WiredTiger.Txn.Snapsort
import WiredTiger.Txn.PinnedTimestamp
import WiredTiger.Txn.PrepareTxn
import WiredTiger.Log.SlotSafe
import WiredTiger.Meta.CkptSnapshot
import WiredTiger.Meta.CkptListRoundTrip
import WiredTiger.Meta.CkptDrop
import WiredTiger.Log.ReadOne
import WiredTiger.Log.ScanSafe
import WiredTiger.Config.RoundTrip
import WiredTiger.Table.IndicesMatch
import WiredTiger.Lsm.Writes
import WiredTiger.Block.Addr
import WiredTiger.Schema.NameCheck
