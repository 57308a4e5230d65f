/-
# Transactions at work on one key (`txn/txn.c`, `include/serial_inline.h`)

The state of the transactions of a connection, as far as one key goes: the next transaction id, the
transactions with their snapshots, the update chain of the key and its value on the page.  Every
transaction takes its steps one by one: it begins, gets an id, checks for a conflict, swaps an
update into the chain, prepares, commits or rolls back, and the loops over its updates in prepare,
commit and rollback take one update at a time.  The steps of different transactions interleave in
every order.
-/
import WiredTiger.Txn.Read
import WiredTiger.Lib.Run

namespace WiredTiger

open Lib

/-! ### The conflict check -/

/-- `__wt_txn_modify_check` behind its test of the isolation: the walk over the chain, then the
on-page window `__wt_read_cell_time_window` finds. -/
def modifyCheckChain (w : View) (tw : Option TimeWindow) : List Update → Except Stop Bool
  | [] =>
    match tw with
    | none => .ok true
    | some tw => .ok (if tw.hasStop then txnTwStopVisible w tw else txnTwStartVisible w tw)
  | upd :: next =>
    match txnUpdVisibleType w upd with
    | .error e => .error e
    | .ok .true => .ok true
    | .ok _ => if upd.txnid ≠ txnAborted then .ok false else modifyCheckChain w tw next

/-- `__wt_txn_modify_check`: whether the transaction may modify the key. -/
def txnModifyCheck (w : View) (tw : Option TimeWindow) (chain : List Update) : Except Stop Bool :=
  if w.isolation ≠ .snapshot then .ok true else modifyCheckChain w tw chain

/-! ### Transactions -/

/-- Where a transaction is in its life. -/
inductive Phase
  | running
  /-- `WT_TXN_ERROR`: an operation failed and the transaction can only roll back. -/
  | failed
  /-- The loop of `__wt_txn_prepare`. -/
  | preparing (prepareTs : ℕ)
  /-- `WT_TXN_PREPARE`. -/
  | prepared (prepareTs : ℕ)
  /-- The loop of `__wt_txn_commit` over updates that are not prepared. -/
  | committing
  /-- The loop of `__wt_txn_commit` over prepared updates. -/
  | resolving (prepareTs commitTs durableTs : ℕ)
  /-- The loop of `__wt_txn_rollback`, with the prepare timestamp if there is one. -/
  | rollingBack (prepareTs : Option ℕ)
  | committed
  | rolledBack
  deriving DecidableEq, Repr

/-- A transaction, with the view its reads use. -/
structure Txn where
  view : View
  phase : Phase
  /-- `txn->commit_timestamp`, if `WT_TXN_HAS_TS_COMMIT` is set. -/
  commitTs : Option ℕ
  /-- `upd->next` of the update that is about to be swapped in: the address of the head of the chain
  the last conflict check passed on. -/
  pending : Option (Option ℕ)

/-- The update was made by the transaction, and is not rolled back. -/
def Txn.owns (x : Txn) (u : Update) : Bool := x.view.hasId && u.txnid == x.view.id

/-- The id of the transaction is in the global table: it has one, and neither prepare nor the end
of the transaction have taken it out. -/
def Txn.inTable (x : Txn) : Bool :=
  x.view.hasId &&
    match x.phase with
    | .running | .failed | .preparing _ | .committing | .rollingBack none => true
    | _ => false

/-- The transaction may yet roll back, or has reserved updates to drop. -/
def Txn.isOpen (x : Txn) : Bool :=
  match x.phase with
  | .resolving .. | .committed | .rolledBack => false
  | _ => true

/-- `__wt_txn_op_set_timestamp` of a transaction that is not prepared: its durable timestamp is the
commit timestamp. -/
def Txn.opSetTimestamp (x : Txn) (u : Update) : Update :=
  match x.commitTs with
  | none => u
  | some ts => if u.startTs = tsNone then { u with startTs := ts, durableTs := ts } else u

/-- The update `__wt_upd_alloc` and `__wt_txn_modify` make. -/
def Txn.newUpdate (x : Txn) (data : UpdData) : Update :=
  x.opSetTimestamp ⟨x.view.id, tsNone, tsNone, data, .init, false, false⟩

/-- What the loops of prepare, commit and rollback do next with an update of the transaction, unless
they are done with it.  A prepared update is locked while its timestamps change. -/
def Txn.resolveUpdate (x : Txn) (u : Update) : Option Update :=
  match x.phase with
  | .preparing prepareTs =>
    if u.data = .reserve then some { u with txnid := txnAborted }
    else if u.prepare = .init then
      some { u with startTs := prepareTs, durableTs := tsNone, prepare := .inprogress }
    else none
  | .committing =>
    if u.data = .reserve then some { u with txnid := txnAborted }
    else if x.opSetTimestamp u = u then none
    else some (x.opSetTimestamp u)
  | .resolving _ commitTs durableTs =>
    match u.prepare with
    | .inprogress => some { u with prepare := .locked }
    | .locked =>
      some { u with startTs := commitTs, durableTs := durableTs, prepare := .resolved }
    | _ => none
  | .rollingBack _ => some { u with txnid := txnAborted }
  | _ => none

/-- The end of the loop a transaction is in. -/
def Txn.released (x : Txn) : Option Phase :=
  match x.phase with
  | .preparing prepareTs => some (.prepared prepareTs)
  | .committing | .resolving .. => some .committed
  | .rollingBack _ => some .rolledBack
  | _ => none

/-! ### The world of a key -/

/-- An update in memory. -/
structure Node where
  addr : ℕ
  upd : Update
  deriving DecidableEq, Repr

/-- The global transaction state and one key. -/
structure World where
  /-- `txn_global->current`. -/
  current : ℕ
  txns : List Txn
  /-- The update chain, newest first. -/
  chain : List Node
  /-- The value on the page, unless the key is an inserted one. -/
  cell : Option Cell
  /-- The time window of the row that an inserted key stands behind: the conflict check reads it
  for want of one of the key's own. -/
  slotTw : Option TimeWindow
  /-- Memory not used by the chain yet. -/
  nextAddr : ℕ
  /-- The versions that left the chain, newest first.  No function of the code reads them. -/
  past : List Node

namespace World

/-- The chain as the code walks it. -/
def updates (w : World) : List Update := w.chain.map Node.upd

/-- All versions of the key so far, newest first. -/
def versions (w : World) : List Update := (w.chain ++ w.past).map Node.upd

/-- The head of the chain, as a pointer. -/
def head (w : World) : Option ℕ := w.chain.head?.map Node.addr

/-- The ids `__txn_get_snapshot_int` collects.  The whole table is read in one step. -/
def runningIds (w : World) : List ℕ :=
  w.txns.filterMap fun x => if x.inTable then some x.view.id else none

/-- `__txn_get_snapshot_int` as one atomic step; `AllocState` has its single steps. -/
def getSnapshot (w : World) : Snapshot := sortSnapshot w.runningIds w.current

/-- `__wt_read_cell_time_window`. -/
def cellTimeWindow (w : World) : Option TimeWindow :=
  match w.cell with
  | some cell => some cell.tw
  | none => w.slotTw

/-- The conflict check of a transaction on the present chain. -/
def modifyCheck (w : World) (x : Txn) : Except Stop Bool :=
  txnModifyCheck x.view w.cellTimeWindow w.updates

end World

/-! ### Steps -/

/-- What a transaction does next. -/
inductive Op
  /-- `__wt_txn_id_check`: the id is allocated and published in one atomic step. -/
  | allocId
  /-- `__wt_txn_set_commit_timestamp`. -/
  | timestamp (commitTs : ℕ)
  /-- `__wt_row_modify` up to the conflict check. -/
  | check
  /-- An attempt of `__wt_update_serial` to swap the update in. -/
  | cas (data : UpdData)
  | prepare (prepareTs : ℕ)
  | commit
  | commitPrepared (commitTs durableTs : ℕ)
  | rollback
  /-- The loop of prepare, commit or rollback gets to an update. -/
  | resolve (i : ℕ)
  /-- The loop is over. -/
  | release
  deriving DecidableEq, Repr

/-- What happens next. -/
inductive Action
  | begin (readTs : Option ℕ) (ignorePrepare : Bool)
  | txn (t : ℕ) (op : Op)
  /-- What is behind an update that everybody sees leaves the chain; the walk starts at `i`. -/
  | truncate (g : Global) (i : ℕ)
  /-- Eviction writes the newest of the updates behind the first `n` to the page. -/
  | evict (n : ℕ) (value : Value)
  deriving DecidableEq, Repr

/-- `WT_UPDATE_DATA_VALUE`. -/
def UpdData.isValue : UpdData → Bool
  | .standard _ | .tombstone => true
  | _ => false

/-- `__wt_update_obsolete_check`: the place of the update behind which a chain can be cut.  The walk
is at place `i`. -/
def updateObsoleteCheck (g : Global) : List Update → ℕ → Option ℕ → Option ℕ
  | [], _, first => first
  | upd :: next, i, first =>
    if upd.txnid = txnAborted then updateObsoleteCheck g next (i + 1) first
    else if txnUpdVisibleAll g upd then
      updateObsoleteCheck g next (i + 1)
        (if first = none ∧ upd.data.isValue then some i else first)
    else updateObsoleteCheck g next (i + 1) none

/-- The time window that is written with the newest version `upd` of a key: a deleted value is the
one behind the tombstone, in the chain or on the page already. -/
def writtenWindow (tw : Option TimeWindow) (upd : Update) (next : List Update) :
    Option TimeWindow :=
  if upd.data = .tombstone then
    match next.find? fun u => u.txnid != txnAborted && u.data != .tombstone with
    | some old => some ⟨old.durableTs, old.startTs, old.txnid,
        upd.durableTs, upd.startTs, upd.txnid, false⟩
    | none => tw.map fun tw => { tw with
        durableStopTs := upd.durableTs, stopTs := upd.startTs, stopTxn := upd.txnid }
  else some ⟨upd.durableTs, upd.startTs, upd.txnid, tsNone, tsMax, txnMax, false⟩

namespace World

/-- The transaction is replaced. -/
def setTxn (w : World) (t : ℕ) (x : Txn) : World := { w with txns := w.txns.set t x }

/-- The result of a conflict check: the update is linked to the head, or the transaction fails. -/
def checked (w : World) (t : ℕ) (x : Txn) : Option World :=
  match w.modifyCheck x with
  | .ok true => some (w.setTxn t { x with pending := some w.head })
  | .ok false => some (w.setTxn t { x with pending := none, phase := .failed })
  | .error _ => none

/-- A step of a transaction. -/
def txnStep (w : World) (t : ℕ) (x : Txn) : Op → Option World
  | .allocId =>
    if x.phase = .running ∧ x.view.hasId = false ∧ w.current < txnAborted then
      some { w.setTxn t { x with view := { x.view with id := w.current, hasId := true } } with
        current := w.current + 1 }
    else none
  | .timestamp commitTs =>
    if x.phase = .running ∧ x.pending = none then
      some (w.setTxn t { x with commitTs := some commitTs })
    else none
  | .check => if x.phase = .running ∧ x.pending = none then w.checked t x else none
  | .cas data =>
    match x.pending with
    | none => none
    | some next =>
      if x.phase = .running ∧ x.view.hasId = true then
        if w.head = next then
          some { w.setTxn t { x with pending := none } with
            chain := ⟨w.nextAddr, x.newUpdate data⟩ :: w.chain
            nextAddr := w.nextAddr + 1 }
        else w.checked t x
      else none
  | .prepare prepareTs =>
    if x.phase = .running ∧ x.pending = none ∧ x.commitTs = none then
      some (w.setTxn t { x with phase := .preparing prepareTs })
    else none
  | .commit =>
    if x.phase = .running ∧ x.pending = none then
      some (w.setTxn t { x with phase := .committing })
    else none
  | .commitPrepared commitTs durableTs =>
    match x.phase with
    | .prepared prepareTs =>
      if prepareTs ≤ commitTs ∧ commitTs ≤ durableTs then
        some (w.setTxn t { x with phase := .resolving prepareTs commitTs durableTs })
      else none
    | _ => none
  | .rollback =>
    match x.phase with
    | .running | .failed =>
      if x.pending = none then some (w.setTxn t { x with phase := .rollingBack none }) else none
    | .prepared prepareTs => some (w.setTxn t { x with phase := .rollingBack (some prepareTs) })
    | _ => none
  | .resolve i =>
    match w.chain[i]? with
    | none => none
    | some n =>
      if x.owns n.upd then
        (x.resolveUpdate n.upd).map fun u => { w with chain := w.chain.set i ⟨n.addr, u⟩ }
      else none
  | .release =>
    if w.updates.all fun u => !x.owns u || (x.resolveUpdate u).isNone then
      x.released.map fun phase => w.setTxn t { x with phase := phase }
    else none

/-- The oldest id and the pinned timestamp are no newer than any transaction in the global table and
any reader with a snapshot. -/
def pins (w : World) (g : Global) : Bool :=
  !g.closing && w.txns.all fun x =>
    (!x.inTable || decide (g.oldestId ≤ x.view.id)) &&
      (x.phase != .running ||
        (decide (g.oldestId ≤ x.view.snap.snapMin) &&
          x.view.readTs.all fun readTs => decide (g.pinnedTs ≤ readTs)))

/-- The transaction of the update has committed. -/
def ended (w : World) (u : Update) : Bool :=
  w.txns.all fun x => !x.owns u || x.phase == .committed

/-- What is on the page once the updates behind the first `n` are written: the page is left as it is
if all of them are rolled back.  A stop at the end of time would not be one. -/
def written (w : World) (n : ℕ) (value : Value) : Option (Option Cell) :=
  match (w.updates.drop n).dropWhile fun u => u.txnid == txnAborted with
  | [] => some w.cell
  | upd :: next =>
    match writtenWindow (w.cell.map Cell.tw) upd next with
    | some tw =>
      if tw.hasStop = decide (upd.data = .tombstone) then some (some ⟨tw, value⟩) else none
    | none => none

/-- What happens to the key when an action is taken. -/
def step (w : World) : Action → Option World
  | .begin readTs ignorePrepare =>
    some { w with
      txns := w.txns ++
        [⟨⟨txnNone, false, .snapshot, w.getSnapshot, readTs, ignorePrepare⟩, .running, none,
          none⟩] }
  | .txn t op =>
    match w.txns[t]? with
    | none => none
    | some x => w.txnStep t x op
  | .truncate g i =>
    if w.pins g then
      (updateObsoleteCheck g (w.updates.drop i) i none).map fun first =>
        { w with
          chain := w.chain.take (first + 1)
          past := w.chain.drop (first + 1) ++ w.past }
    else none
  | .evict n value =>
    if w.txns.all (fun x => x.pending.isNone) ∧ (w.updates.drop n).all w.ended then
      (w.written n value).map fun cell =>
        { w with
          chain := w.chain.take n
          cell := cell
          past := w.chain.drop n ++ w.past }
    else none

end World

end WiredTiger
