/-
# What a session sees of a tree

A session reads through the view of its transaction, the update chains, the cells of the pages and
the history store.  A cursor that goes on to another leaf page skips the pages that look deleted to
the transaction (`__wt_btcur_skip_page` in `include/btree_inline.h`, `__wt_delete_page_skip` in
`btree/bt_delete.c`).
-/
import WiredTiger.Btree.Cursor

namespace WiredTiger

/-- What the reads of a session depend on. -/
structure Session where
  view : View
  global : Global
  fmt : ValueFormat
  /-- The records of the history store for a key of the tree. -/
  hs : Key → List HsRec
  /-- The side a search near in the history store ends on. -/
  after : Key → Bool

/-- The reads of a session. -/
def Session.reader (S : Session) : Reader (List Update) Cell where
  readUpdList upd :=
    match txnReadUpdList S.view upd none none with
    | .error e => .error e
    | .ok found => .ok (updValueAssign S.fmt none found.chain)
  read key upd cell :=
    txnRead S.view S.global S.fmt (S.hs key) (S.after key) (some cell) upd

/-! ### Skipped pages -/

/-- The state of a reference to a leaf page, when nobody has it locked. -/
inductive RefState
  | disk
  | deleted
  | mem
  deriving DecidableEq, Repr

/-- `WT_PAGE_DELETED`: the truncate that deleted a page. -/
structure PageDeleted where
  txnid : ℕ
  timestamp : ℕ
  prepare : PrepareState
  deriving DecidableEq, Repr

/-- The newest stop point of a page, from its address. -/
structure StopAggregate where
  newestStopTxn : ℕ
  newestStopTs : ℕ
  deriving DecidableEq, Repr

/-- A reference to a leaf page. -/
structure Ref where
  state : RefState
  /-- `__wt_page_is_modified`, of a page in memory. -/
  modified : Bool
  /-- What `__wt_ref_addr_copy` copies. -/
  addr : Option StopAggregate
  /-- `ft_info.del`. -/
  del : Option PageDeleted
  deriving DecidableEq, Repr

/-- `__wt_btcur_skip_page`. -/
def btcurSkipPage (w : View) (ref : Ref) : Bool :=
  (ref.state = .disk || ref.state = .deleted || (ref.state = .mem && !ref.modified)) &&
    match ref.addr with
    | none => false
    | some ta =>
      ta.newestStopTxn ≠ txnMax && ta.newestStopTs ≠ tsMax &&
        txnVisible w ta.newestStopTxn ta.newestStopTs

/-- `__wt_page_del_active`. -/
def pageDelActive (w : View) (g : Global) (ref : Ref) (visibleAll : Bool) : Bool :=
  match ref.del with
  | none => false
  | some del =>
    if del.txnid = txnAborted then false
    else if del.prepare = .inprogress ∨ del.prepare = .locked then true
    else if visibleAll then !txnVisibleAll g del.txnid del.timestamp
    else !txnVisible w del.txnid del.timestamp

/-- `__wt_delete_page_skip`. -/
def deletePageSkip (w : View) (g : Global) (ref : Ref) (visibleAll : Bool) : Bool :=
  ref.state = .deleted && !pageDelActive w g ref visibleAll

/-- `WT_TXN_HAS_SNAPSHOT`: an operation of a cursor gets a snapshot, but for uncommitted reads. -/
def View.hasSnapshot (w : View) : Bool := w.isolation ≠ .readUncommitted

/-- The leaf pages a walk of the tree passes over: under snapshot isolation those of
`__wt_btcur_skip_page`, under the other levels the deleted ones, and in any case those
`__wt_page_in` does not return with `WT_READ_DELETED_CHECK`. -/
def Session.walkSkips (S : Session) (ref : Ref) : Bool :=
  (if S.view.isolation = .snapshot then btcurSkipPage S.view ref
    else deletePageSkip S.view S.global ref false) ||
  deletePageSkip S.view S.global ref !S.view.hasSnapshot

end WiredTiger
