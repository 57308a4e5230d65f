/-
# Commit records and the start of a checkpoint

A commit holds the visibility lock for reading from before it writes its log record until its
transaction is out of the global table.  A full checkpoint writes its start record, takes the
visibility lock for writing and releases it at once, and then takes its snapshot: once when its
transaction begins, and again when its entry has been cleared from the table, unless no commit has
finished in between.

Sessions go on allocating ids, taking snapshots and updating the oldest id in between, one access
at a time.  Recovery replays the log from the checkpoint's LSN on.
-/
import WiredTiger.Txn.SnapshotSound

namespace WiredTiger

open Lib

/-! ### The state -/

/-- Where a session is in `__wt_txn_commit`, if it is one that is logged. -/
inductive CommitAt
  | idle
  /-- The snapshot is released. -/
  | begun
  /-- The visibility lock is held for reading. -/
  | locked
  /-- The commit record is written. -/
  | logged
  /-- `__wt_txn_release`: the transaction is out of the table. -/
  | releasing
  | released
  /-- The lock is released, and the new commit generation not started yet. -/
  | unlocked
  deriving DecidableEq, Repr

/-- The visibility lock is held for reading. -/
def CommitAt.holds : CommitAt → Bool
  | .locked | .logged | .releasing | .released => true
  | _ => false

/-- Where a full checkpoint is, up to the snapshot it writes pages for. -/
inductive CkptAt
  /-- With the first version of the log: a message is written. -/
  | message
  /-- `ckpt_lsn` is set. -/
  | logged
  /-- The visibility lock is held for writing. -/
  | locked
  | unlocked
  /-- `__wt_txn_begin` takes a snapshot. -/
  | begun
  /-- `__wt_txn_id_check` allocates an id. -/
  | allocating
  /-- The entry is cleared from the global table. -/
  | cleared
  /-- `__wt_txn_bump_snapshot` takes a snapshot again. -/
  | bumping
  | taken
  deriving DecidableEq, Repr

/-- The visibility lock has been acquired. -/
def CkptAt.passed : CkptAt → Bool
  | .message | .logged => false
  | _ => true

/-- A full checkpoint, in the session that runs it. -/
structure Ckpt (n : ℕ) where
  session : Fin n
  place : CkptAt
  /-- `ckpt_lsn`. -/
  lsn : ℕ
  /-- The commit generation that the session has entered. -/
  commitGen : ℕ
  deriving DecidableEq, Repr

/-- A commit record in the log. -/
structure CommitRecord where
  id : ℕ
  lsn : ℕ
  deriving DecidableEq, Repr

/-- The global table, the log and the visibility lock.  LSNs are numbers that order files first and
then offsets. -/
structure CkptState (n : ℕ) where
  table : AllocState n
  commit : Fin n → CommitAt
  commitGen : ℕ
  allocLsn : ℕ
  records : List CommitRecord
  /-- Transactions that were rolled back because their commit failed after writing its record. -/
  failed : List ℕ
  ckpt : Option (Ckpt n)

def CkptState.init (n : ℕ) : CkptState n :=
  ⟨.init n, fun _ => .idle, 1, 0, [], [], none⟩

namespace CkptState

variable {n : ℕ}

/-! ### Commits -/

/-- The session is neither in a logged commit nor runs the checkpoint. -/
def free (s : CkptState n) (i : Fin n) : Bool :=
  s.commit i = .idle && s.ckpt.all fun c => c.session ≠ i

def setCommit (s : CkptState n) (i : Fin n) (place : CommitAt) : CkptState n :=
  { s with commit := Function.update s.commit i place }

/-- Commit steps of a session. -/
inductive CommitOp
  | begin
  | readLock
  /-- The record is written at the allocation LSN, or behind what a switch of log files and the
  records of others take. -/
  | log (lsn size : ℕ)
  | release
  | releaseNext
  | readUnlock
  /-- Also for a commit that is not logged. -/
  | genNext
  /-- `__wt_txn_commit` fails and goes on to roll back. -/
  | fail
  deriving DecidableEq, Repr

/-- `__wt_txn_release_snapshot`. -/
def releaseSnapshot (s : AllocState n) (i : Fin n) : AllocState n :=
  s.set i { s.session i with pinnedId := txnNone, snap := none }

/-- A record is written to the log. -/
def logWrite (s : CkptState n) (lsn size : ℕ) : Option (CkptState n) :=
  if s.allocLsn ≤ lsn ∧ 0 < size then some { s with allocLsn := lsn + size } else none

/-- `__wt_txn_commit` of session `i`. -/
def stepCommit (s : CkptState n) (i : Fin n) : CommitOp → Option (CkptState n)
  | .begin =>
    if s.free i ∧ (s.table.session i).pc = .idle ∧ (s.table.session i).runId ≠ none then
      some { s.setCommit i .begun with table := releaseSnapshot s.table i }
    else none
  | .readLock =>
    if s.commit i = .begun ∧ ∀ c ∈ s.ckpt, c.place ≠ .locked then some (s.setCommit i .locked)
    else none
  | .log lsn size =>
    if s.commit i = .locked then
      match (s.table.session i).runId, s.logWrite lsn size with
      | some id, some s' => some { s'.setCommit i .logged with records := ⟨id, lsn⟩ :: s.records }
      | _, _ => none
    else none
  | .release =>
    if s.commit i = .logged then
      (s.table.step (i, .release)).map fun t => { s.setCommit i .releasing with table := t }
    else none
  | .releaseNext =>
    if s.commit i = .releasing then
      (s.table.step (i, .advance)).map fun t => { s.setCommit i .released with table := t }
    else none
  | .readUnlock => if s.commit i = .released then some (s.setCommit i .unlocked) else none
  | .genNext =>
    if s.commit i = .unlocked ∨ s.free i then
      some { s.setCommit i .idle with commitGen := s.commitGen + 1 }
    else none
  | .fail =>
    if s.commit i = .locked then some (s.setCommit i .idle)
    else if s.commit i = .logged then
      -- the lock is released before the transaction is rolled back
      some { s.setCommit i .idle with failed := (s.table.session i).runId.toList ++ s.failed }
    else none

/-! ### Checkpoints -/

/-- Steps of the checkpoint. -/
inductive CkptOp
  /-- `__wt_txn_checkpoint_log` to prepare: the start record is written. -/
  | log (lsn size : ℕ)
  /-- `__wt_log_printf`, with the first version of the log. -/
  | message (lsn size : ℕ)
  /-- `__wt_log_flush_lsn`: some LSN up to which the log is written. -/
  | flush (lsn : ℕ)
  | writeLock
  | writeUnlock
  | begin
  | idCheck
  /-- An access of one of the functions, in the session of the checkpoint. -/
  | next
  | clear
  | bump
  | finish
  /-- The checkpoint ends, or is given up, and its transaction is released. -/
  | stop
  deriving DecidableEq, Repr

/-- `__wt_txn_checkpoint_log` to prepare in session `i`, which is in no transaction and has reset
its cursors. -/
def startCkpt (s : CkptState n) (i : Fin n) (lsn size : ℕ) (place : CkptAt) :
    Option (CkptState n) :=
  if s.ckpt = none ∧ s.free i ∧ (s.table.session i).pc = .idle ∧
      (s.table.session i).runId = none ∧ (s.table.session i).snap = none then
    (s.logWrite lsn size).map fun s' =>
      { s' with ckpt := some ⟨i, place, if place = .logged then lsn else 0, 0⟩ }
  else none

/-- The entry of the checkpoint is cleared from the global table, under the write lock. -/
def clearEntry (s : AllocState n) (i : Fin n) : AllocState n :=
  s.set i { s.session i with id := txnNone, pinnedId := txnNone, runId := none }

/-- `__txn_get_snapshot_int` without publishing the pinned id. -/
def bumpNext (s : AllocState n) (i : Fin n) : Option (AllocState n) :=
  (s.step (i, .advance)).map fun t =>
    t.set i { t.session i with pinnedId := (s.session i).pinnedId }

def setCkpt (s : CkptState n) (c : Ckpt n) (place : CkptAt) : CkptState n :=
  { s with ckpt := some { c with place := place } }

/-- `__wt_txn_checkpoint_log` to prepare, and `__checkpoint_prepare`, in session `i`. -/
def stepCkpt (s : CkptState n) (i : Fin n) (op : CkptOp) : Option (CkptState n) :=
  match s.ckpt with
  | none =>
    match op with
    | .log lsn size => s.startCkpt i lsn size .logged
    | .message lsn size => s.startCkpt i lsn size .message
    | _ => none
  | some c =>
    if c.session ≠ i then none else
    match op, c.place with
    | .flush lsn, .message =>
      if lsn ≤ s.allocLsn then
        some { s with ckpt := some { c with place := .logged, lsn := lsn } }
      else none
    | .writeLock, .logged =>
      if ∀ j, (s.commit j).holds = false then some (s.setCkpt c .locked) else none
    | .writeUnlock, .locked => some (s.setCkpt c .unlocked)
    | .begin, .unlocked =>
      (s.table.step (i, .getSnapshot)).map fun t =>
        { s with table := t, ckpt := some { c with place := .begun, commitGen := s.commitGen } }
    | .idCheck, .begun =>
      (s.table.step (i, .idAlloc)).map fun t => { s.setCkpt c .allocating with table := t }
    | .next, .begun | .next, .allocating =>
      (s.table.step (i, .advance)).map fun t => { s with table := t }
    | .clear, .allocating =>
      if (s.table.session i).pc = .idle ∧ ∀ j, (s.table.session j).pc.holdsRead = false ∧
          (s.table.session j).pc.holdsWrite = false then
        some { s.setCkpt c .cleared with table := clearEntry s.table i }
      else none
    | .bump, .cleared =>
      -- fast path if we already have the current snapshot
      if (s.table.session i).snap ≠ none ∧ c.commitGen = s.commitGen then
        some (s.setCkpt c .taken)
      else
        (s.table.step (i, .getSnapshot)).map fun t =>
          { s with
            table := t, ckpt := some { c with place := .bumping, commitGen := s.commitGen } }
    | .next, .bumping => (bumpNext s.table i).map fun t => { s with table := t }
    | .finish, .bumping =>
      if (s.table.session i).pc = .idle then some (s.setCkpt c .taken) else none
    | .stop, place =>
      if place = .locked ∨ (s.table.session i).pc ≠ .idle then none
      else some { s with table := releaseSnapshot s.table i, ckpt := none }
    | _, _ => none

/-! ### Steps -/

/-- What a session does next. -/
inductive CkptAction
  | table (op : AllocState.AllocOp)
  | commit (op : CommitOp)
  | ckpt (op : CkptOp)
  deriving DecidableEq, Repr

def step (s : CkptState n) (a : Fin n × CkptAction) : Option (CkptState n) :=
  match a.2 with
  | .table op =>
    if s.free a.1 then (s.table.step (a.1, op)).map fun t => { s with table := t } else none
  | .commit op => s.stepCommit a.1 op
  | .ckpt op => s.stepCkpt a.1 op

end CkptState

end WiredTiger
