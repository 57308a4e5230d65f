/-
# The global transaction state (`WT_TXN_GLOBAL`)

Sessions publish, in a global table, the id they run under, the oldest id their snapshot needs and
the timestamp they read at.  Scans of the table move the oldest id and the pinned timestamp forward;
they decide what is visible to all.  A checkpoint runs for long: its entry is taken out of the
table, and kept beside it.

Taking a snapshot, a scan and an update of the global values are one step each, as they are made
under the lock of the table.
-/
import WiredTiger.Txn.Visible
import WiredTiger.Txn.GlobalTimestamp

namespace WiredTiger

open Lib

/-! ### The state -/

/-- A `WT_TXN_SHARED`: what a session publishes in the global table. -/
structure TxnShared where
  id : ℕ
  pinnedId : ℕ
  metadataPinned : ℕ
  readTimestamp : ℕ
  deriving DecidableEq, Repr

/-- A session with its transaction. -/
structure TxnSession where
  shared : TxnShared
  isolation : Isolation
  /-- `WT_TXN_RUNNING`. -/
  running : Bool
  /-- `txn->id`. -/
  id : ℕ
  /-- `WT_TXN_HAS_ID`. -/
  hasId : Bool
  /-- `WT_TXN_PREPARE`. -/
  prepare : Bool
  /-- The snapshot, with `WT_TXN_HAS_SNAPSHOT`. -/
  snap : Option Snapshot
  /-- `WT_TXN_SHARED_TS_READ`. -/
  sharedTsRead : Bool

/-- A session that is idle. -/
def TxnSession.idle : TxnSession :=
  ⟨⟨txnNone, txnNone, txnNone, tsNone⟩, .snapshot, false, txnNone, false, false, none, false⟩

/-- What reads of the session look at. -/
def TxnSession.view (x : TxnSession) (snap : Snapshot) : View where
  id := x.id
  hasId := x.hasId
  isolation := x.isolation
  snap := snap
  readTs := if x.sharedTsRead then some x.shared.readTimestamp else none
  ignorePrepare := false

/-- A committed update of a table other than the metadata. -/
structure CommittedUpdate where
  txnid : ℕ
  startTs : ℕ
  durableTs : ℕ
  deriving DecidableEq, Repr

/-- A `WT_TXN_GLOBAL`, but for the table of the sessions. -/
structure TxnCore where
  current : ℕ
  oldestId : ℕ
  lastRunning : ℕ
  metadataPinned : ℕ
  ts : GlobalTs
  /-- `pinned_timestamp`, with `has_pinned_timestamp`. -/
  pinned : Option ℕ
  oldestIsPinned : Bool
  /-- `checkpoint_id`: the session that runs a checkpoint. -/
  checkpointId : Option ℕ
  checkpointShared : TxnShared
  checkpointTs : ℕ
  /-- The updates committed so far.  No function of the code reads them. -/
  committed : List CommittedUpdate
  /-- The ids of checkpoints so far.  No function of the code reads them. -/
  checkpointIds : List ℕ

/-- A `WT_TXN_GLOBAL`. -/
structure TxnGlobal extends TxnCore where
  sessions : List TxnSession

/-- `__wt_txn_global_init`. -/
def TxnGlobal.init : TxnGlobal where
  current := 1
  oldestId := 1
  lastRunning := 1
  metadataPinned := 1
  ts := ⟨none, none, none⟩
  pinned := none
  oldestIsPinned := false
  checkpointId := none
  checkpointShared := ⟨txnNone, txnNone, txnNone, tsNone⟩
  checkpointTs := tsNone
  committed := []
  checkpointIds := []
  sessions := []

namespace TxnGlobal

/-! ### What is visible to all -/

/-- `__wt_txn_oldest_id`, of a tree other than the metadata. -/
def txnOldestId (g : TxnGlobal) : ℕ :=
  if g.checkpointShared.pinnedId = txnNone ∨ g.oldestId < g.checkpointShared.pinnedId then
    g.oldestId
  else g.checkpointShared.pinnedId

/-- `__wt_txn_pinned_timestamp`. -/
def txnPinnedTimestamp (g : TxnGlobal) : ℕ :=
  match g.pinned with
  | none => tsNone
  | some pinnedTs =>
    if g.checkpointTs ≠ 0 ∧ g.checkpointTs < pinnedTs then g.checkpointTs else pinnedTs

/-- What `__wt_txn_visible_all` looks at, while the connection is not closing. -/
def global (g : TxnGlobal) : Global := ⟨g.txnOldestId, g.txnPinnedTimestamp, false⟩

/-! ### Snapshots -/

def setSession (g : TxnGlobal) (i : ℕ) (x : TxnSession) : TxnGlobal :=
  { g with sessions := g.sessions.set i x }

/-- The ids the walk of `__txn_get_snapshot_int` collects: for pure read-only workloads it does not
scan. -/
def snapshotIds (g : TxnGlobal) (i : ℕ) : List ℕ :=
  if g.oldestId = g.current then []
  else
    (g.sessions.eraseIdx i).filterMap fun s =>
      if s.shared.id ≠ txnNone ∧ g.oldestId ≤ s.shared.id ∧ s.shared.id < g.current then
        some s.shared.id
      else none

/-- The id of a running checkpoint, which is in every snapshot but its own. -/
def checkpointSnapshotId (g : TxnGlobal) (x : TxnSession) : List ℕ :=
  if g.checkpointShared.id ≠ txnNone ∧ x.id ≠ g.checkpointShared.id then [g.checkpointShared.id]
  else []

/-- `__txn_get_snapshot_int`.  The id of a checkpoint is not pinned. -/
def getSnapshotInt (g : TxnGlobal) (publish : Bool) (i : ℕ) (x : TxnSession) : TxnSession :=
  { x with
    shared :=
      if publish then
        { x.shared with
          pinnedId := (g.snapshotIds i).foldl min g.current
          metadataPinned :=
            if g.checkpointShared.id ≠ txnNone then g.checkpointShared.id
            else x.shared.metadataPinned }
      else x.shared
    snap := some (sortSnapshot (g.checkpointSnapshotId x ++ g.snapshotIds i) g.current) }

/-- `__wt_txn_release_snapshot`, for the session. -/
def releaseSnapshot (x : TxnSession) : TxnSession :=
  { x with
    shared := { x.shared with pinnedId := txnNone, metadataPinned := txnNone }
    snap := none }

/-! ### The scans -/

/-- What `__txn_oldest_scan` has found so far. -/
structure OldestScan where
  oldestId : ℕ
  lastRunning : ℕ
  metadataPinned : ℕ
  deriving DecidableEq, Repr

/-- A session of the walk of `__txn_oldest_scan`. -/
def oldestScanSession (prevOldestId : ℕ) (r : OldestScan) (s : TxnSession) : OldestScan where
  lastRunning :=
    if s.shared.id ≠ txnNone ∧ prevOldestId ≤ s.shared.id ∧ s.shared.id < r.lastRunning then
      s.shared.id
    else r.lastRunning
  metadataPinned :=
    if s.shared.metadataPinned ≠ txnNone ∧ s.shared.metadataPinned < r.metadataPinned then
      s.shared.metadataPinned
    else r.metadataPinned
  oldestId :=
    if s.shared.pinnedId ≠ txnNone ∧ s.shared.pinnedId < r.oldestId then s.shared.pinnedId
    else r.oldestId

/-- `__txn_oldest_scan`. -/
def oldestScan (g : TxnGlobal) : OldestScan :=
  let r := g.sessions.foldl (oldestScanSession g.oldestId)
    { oldestId := g.current
      lastRunning := g.current
      metadataPinned :=
        if g.checkpointShared.id = txnNone then g.current else g.checkpointShared.id }
  let oldestId := if r.lastRunning < r.oldestId then r.lastRunning else r.oldestId
  { oldestId := oldestId
    lastRunning := r.lastRunning
    metadataPinned := if oldestId < r.metadataPinned then oldestId else r.metadataPinned }

/-- A session of the walk of `__wt_txn_get_pinned_timestamp`. -/
def pinnedTimestampSession (ts : ℕ) (s : TxnSession) : ℕ :=
  if ts = tsNone ∨ (s.shared.readTimestamp ≠ tsNone ∧ s.shared.readTimestamp < ts) then
    s.shared.readTimestamp
  else ts

/-- `__wt_txn_get_pinned_timestamp` with `WT_TXN_TS_INCLUDE_OLDEST`. -/
def getPinnedTimestamp (g : TxnGlobal) : Option ℕ :=
  g.ts.oldest.map fun oldestTs => g.sessions.foldl pinnedTimestampSession oldestTs

/-- `__wt_txn_update_pinned_timestamp`, not forced: both of its scans see the same table. -/
def updatePinnedTimestamp (g : TxnGlobal) : TxnGlobal :=
  if g.oldestIsPinned then g
  else
    match g.getPinnedTimestamp with
    | none => g
    | some ts =>
      match g.pinned with
      | none => { g with pinned := some ts, oldestIsPinned := g.ts.oldest = some ts }
      | some last =>
        if ts ≤ last then g
        else { g with pinned := some ts, oldestIsPinned := g.ts.oldest = some ts }

/-- `__wt_txn_update_oldest`: both of its scans see the same table. -/
def updateOldest (strict : Bool) (g : TxnGlobal) : TxnGlobal :=
  let g := if strict then g.updatePinnedTimestamp else g
  if (g.oldestId = g.current ∧ g.metadataPinned = g.current) ∨
      (!strict ∧ g.current < g.oldestId + 100) then g
  else
    let r := g.oldestScan
    if (r.oldestId = g.oldestId ∨ (!strict ∧ r.oldestId < g.oldestId + 100)) ∧
        (r.lastRunning = g.lastRunning ∨ (!strict ∧ r.lastRunning < g.lastRunning + 100)) ∧
        r.metadataPinned = g.metadataPinned then g
    else
      { g with
        oldestId := if g.oldestId < r.oldestId then r.oldestId else g.oldestId
        lastRunning := if g.lastRunning < r.lastRunning then r.lastRunning else g.lastRunning
        metadataPinned :=
          if g.metadataPinned < r.metadataPinned then r.metadataPinned else g.metadataPinned }

/-! ### Transactions -/

/-- `__wt_txn_set_read_timestamp` up to its snapshot, without `read_before_oldest`. -/
def publishReadTimestamp (g : TxnGlobal) (readTs : ℕ) (round : Bool) (x : TxnSession) :
    Option TxnSession :=
  if readTs = 0 ∨ x.prepare ∨ (x.running ∧ x.isolation ≠ .snapshot) ∨ x.sharedTsRead then none
  else if readTs < g.ts.oldest.getD 0 ∧ !round then none
  else
    some { x with
      isolation := .snapshot
      sharedTsRead := true
      shared := { x.shared with
        readTimestamp := if readTs < g.ts.oldest.getD 0 then g.ts.oldest.getD 0 else readTs } }

/-- `__wt_txn_set_read_timestamp`: a running transaction gets a new snapshot. -/
def setReadTimestamp (g : TxnGlobal) (i readTs : ℕ) (round : Bool) (x : TxnSession) :
    Option TxnSession :=
  (g.publishReadTimestamp readTs round x).map fun x =>
    if x.running then g.getSnapshotInt true i x else x

/-- `__wt_txn_begin`, with the read timestamp of its configuration. -/
def txnBegin (g : TxnGlobal) (i : ℕ) (isolation : Isolation) (autocommit : Bool)
    (read : Option (ℕ × Bool)) (x : TxnSession) : Option TxnSession :=
  if x.running then none
  else
    let x := { x with isolation := isolation }
    let x? := match read with
      | none => some x
      | some (readTs, round) => g.setReadTimestamp i readTs round x
    x?.map fun x =>
      let x := if x.isolation = .snapshot ∧ ¬ (autocommit ∧ x.snap.isSome) then
          g.getSnapshotInt true i x
        else x
      { x with running := true }

/-- `__wt_txn_cursor_op`. -/
def txnCursorOp (g : TxnGlobal) (i : ℕ) (x : TxnSession) : TxnSession :=
  if x.isolation = .readUncommitted then
    let pinnedId := if x.shared.pinnedId = txnNone then g.lastRunning else x.shared.pinnedId
    { x with
      shared := { x.shared with
        pinnedId := pinnedId
        metadataPinned :=
          if x.shared.metadataPinned = txnNone then pinnedId else x.shared.metadataPinned } }
  else if x.snap.isNone then g.getSnapshotInt true i x
  else x

/-- The session's part of `__wt_txn_release`, for a session that does not run a checkpoint. -/
def txnRelease (x : TxnSession) : TxnSession :=
  { releaseSnapshot x with
    shared := ⟨txnNone, txnNone, txnNone, tsNone⟩
    running := false
    id := txnNone
    hasId := false
    prepare := false
    sharedTsRead := false }

/-! ### Steps -/

/-- What a session does that no more than its own entry shows. -/
inductive SessionOp
  /-- `__wt_txn_reconfigure`. -/
  | reconfigure (isolation : Isolation)
  | begin (isolation : Isolation) (autocommit : Bool) (read : Option (ℕ × Bool))
  | setReadTimestamp (readTs : ℕ) (round : Bool)
  | cursorOp
  /-- `__wt_txn_read_last`. -/
  | readLast
  /-- `__session_reset_snapshot`. -/
  | resetSnapshot
  | prepare
  | rollback
  deriving DecidableEq, Repr

def sessionOp (g : TxnGlobal) (i : ℕ) (x : TxnSession) : SessionOp → Option TxnSession
  | .reconfigure isolation => if x.running then none else some { x with isolation := isolation }
  | .begin isolation autocommit read => g.txnBegin i isolation autocommit read x
  | .setReadTimestamp readTs round => g.setReadTimestamp i readTs round x
  | .cursorOp => if x.prepare then none else some (g.txnCursorOp i x)
  | .readLast =>
    if !x.running || x.isolation ≠ .snapshot then some (releaseSnapshot x) else some x
  | .resetSnapshot =>
    if x.isolation ≠ .snapshot ∨ x.hasId then none
    else some (g.getSnapshotInt true i (releaseSnapshot x))
  | .prepare =>
    if x.running ∧ !x.prepare then
      let x := releaseSnapshot x
      some { x with prepare := true, shared := { x.shared with id := txnNone } }
    else none
  | .rollback => if x.running then some (txnRelease x) else none

/-- `__wt_txn_id_check`. -/
def txnIdCheck (g : TxnGlobal) (i : ℕ) (x : TxnSession) : Option TxnGlobal :=
  if x.running ∧ !x.hasId ∧ !x.prepare ∧ g.current < txnAborted then
    some { g.setSession i { x with
        id := g.current, hasId := true, shared := { x.shared with id := g.current } } with
      current := g.current + 1 }
  else none

/-- `__wt_txn_commit`, of updates with these start and durable timestamps. -/
def txnCommit (g : TxnGlobal) (i : ℕ) (x : TxnSession) (timestamps : List (ℕ × ℕ)) :
    Option TxnGlobal :=
  if x.running ∧ (x.hasId ∨ timestamps = []) ∧ ∀ ts ∈ timestamps, ts.1 ≤ ts.2 then
    some { g.setSession i (txnRelease x) with
      committed := timestamps.map (fun ts => ⟨x.id, ts.1, ts.2⟩) ++ g.committed }
  else none

/-- `__checkpoint_prepare`, where the entry of the checkpoint leaves the table.  An id is allocated
prior to sharing it globally. -/
def checkpointPrepare (g : TxnGlobal) (i : ℕ) (x : TxnSession) (useTimestamp : Bool) :
    Option TxnGlobal :=
  match x.snap with
  | none => none
  | some snap =>
    if g.checkpointId.isNone ∧ x.running ∧ x.shared.id ≠ txnNone ∧ !x.sharedTsRead then
      some { g.setSession i { x with
          shared := ⟨txnNone, txnNone, txnNone,
            if useTimestamp then x.shared.readTimestamp else tsNone⟩ } with
        checkpointId := some i
        checkpointShared := { x.shared with pinnedId := snap.snapMin }
        checkpointTs := if useTimestamp then g.ts.stable.getD g.checkpointTs else g.checkpointTs
        checkpointIds := x.shared.id :: g.checkpointIds }
    else none

/-- What the session of a checkpoint does after that.  It writes to the metadata only. -/
inductive CheckpointOp
  /-- `__wt_txn_bump_snapshot`. -/
  | bumpSnapshot
  | releaseSnapshot
  /-- `__wt_txn_commit` or `__wt_txn_rollback`: the session is not one of a checkpoint any more when
  its snapshot is released. -/
  | release
  deriving DecidableEq, Repr

def checkpointOp (g : TxnGlobal) (i : ℕ) (x : TxnSession) : CheckpointOp → Option TxnGlobal
  | .bumpSnapshot =>
    if x.snap.isSome then some (g.setSession i (g.getSnapshotInt false i x)) else none
  | .releaseSnapshot =>
    some { g.setSession i (TxnGlobal.releaseSnapshot x) with
      checkpointShared := { g.checkpointShared with pinnedId := txnNone }
      checkpointTs := tsNone }
  | .release =>
    some { g.setSession i (txnRelease x) with
      checkpointId := none
      checkpointShared := { g.checkpointShared with id := txnNone } }

inductive TxnAction
  | openSession
  | session (i : ℕ) (op : SessionOp)
  | idCheck (i : ℕ)
  | commit (i : ℕ) (timestamps : List (ℕ × ℕ))
  /-- `__wt_txn_global_set_timestamp`, not forced, up to the update of the pinned timestamp. -/
  | setTimestamp (c : GlobalTs)
  | updatePinnedTimestamp
  | updateOldest (strict : Bool)
  | checkpointPrepare (i : ℕ) (useTimestamp : Bool)
  | checkpoint (op : CheckpointOp)
  /-- The end of `__txn_checkpoint`: the metadata is open for eviction. -/
  | checkpointDone
  deriving DecidableEq, Repr

/-- The session, unless it runs a checkpoint. -/
def ordinary (g : TxnGlobal) (i : ℕ) : Option TxnSession :=
  if g.checkpointId = some i then none else g.sessions[i]?

def step (g : TxnGlobal) : TxnAction → Option TxnGlobal
  | .openSession => some { g with sessions := g.sessions ++ [.idle] }
  | .session i op =>
    (g.ordinary i).bind fun x => (g.sessionOp i x op).map fun x' => g.setSession i x'
  | .idCheck i => (g.ordinary i).bind fun x => g.txnIdCheck i x
  | .commit i timestamps => (g.ordinary i).bind fun x => g.txnCommit i x timestamps
  | .setTimestamp c =>
    match beginGlobalSetTimestamp false g.ts c with
    | .ok (some p) =>
      some { g with
        ts := storeGlobalTimestamp false g.ts p
        oldestIsPinned := g.oldestIsPinned &&
          decide ((storeGlobalTimestamp false g.ts p).oldest = g.ts.oldest) }
    | _ => some g
  | .updatePinnedTimestamp => some g.updatePinnedTimestamp
  | .updateOldest strict => some (g.updateOldest strict)
  | .checkpointPrepare i useTimestamp =>
    (g.ordinary i).bind fun x => g.checkpointPrepare i x useTimestamp
  | .checkpoint op =>
    g.checkpointId.bind fun i => g.sessions[i]?.bind fun x => g.checkpointOp i x op
  | .checkpointDone =>
    if g.checkpointId.isNone then
      some { g with checkpointShared := { g.checkpointShared with pinnedId := txnNone } }
    else none

end TxnGlobal

end WiredTiger
