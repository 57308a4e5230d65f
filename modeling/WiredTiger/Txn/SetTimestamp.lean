/-
# The timestamps of a transaction (`txn/txn_timestamp.c`)

A transaction may be given a commit, a durable, a read and a prepare timestamp, each checked against
some of what is set already.  The commit timestamp is to be no later than the durable one, and of a
prepared transaction no earlier than the prepare timestamp; committing checks the former.

Of the commit timestamp nothing is checked against a durable timestamp that is set.
-/
import WiredTiger.Lib.Run

namespace WiredTiger

open Lib

/-- The errors of setting timestamps and of committing, all `EINVAL` but for their texts. -/
inductive TsError
  /-- `Failed to parse %s timestamp: zero not permitted` -/
  | zeroNotPermitted
  /-- `setting a commit_timestamp requires a transaction running at snapshot isolation` -/
  | commitIsolation
  /-- `commit timestamp %s is less than the oldest timestamp %s` -/
  | commitOldest
  /-- `commit timestamp %s is less than the stable timestamp %s` -/
  | commitStable
  /-- `commit timestamp %s older than the first commit timestamp %s for this transaction` -/
  | commitFirst
  /-- `commit timestamp %s is less than the prepare timestamp %s for this transaction` -/
  | commitPrepare
  /-- `durable timestamp should not be specified for non-prepared transaction` -/
  | durableNotPrepared
  /-- `commit timestamp is needed before the durable timestamp` -/
  | durableCommitNeeded
  /-- `durable timestamp %s is less than the oldest timestamp %s` -/
  | durableOldest
  /-- `durable timestamp %s is less than the stable timestamp %s` -/
  | durableStable
  /-- `durable timestamp %s is less than the commit timestamp %s for this transaction` -/
  | durableCommit
  /-- `not permitted in a prepared transaction` -/
  | prepared
  /-- `setting a read_timestamp requires a transaction running at snapshot isolation` -/
  | readIsolation
  /-- `a read_timestamp may only be set once per transaction` -/
  | readOnce
  /-- `read timestamp %s less than the oldest timestamp %s`, or the pinned one -/
  | readOldest
  /-- `prepare timestamp is already set` -/
  | prepareSet
  /-- `commit timestamp should not have been set before the prepare timestamp` -/
  | prepareCommit
  /-- `prepare timestamp %s is older than the oldest timestamp %s` -/
  | prepareOldest
  /-- `prepare timestamp is not set` -/
  | prepareNotSet
  /-- `commit_timestamp is required for a prepared transaction` -/
  | commitRequired
  /-- `durable_timestamp is required for a prepared transaction` -/
  | durableRequired
  /-- `prepare timestamp is set for non-prepared transaction` -/
  | prepareNotPrepared
  /-- `commit_timestamp required and none set on this transaction` -/
  | writeAlways
  /-- `no commit_timestamp expected and timestamp set on this transaction` -/
  | writeNever
  /-- `transaction with commit timestamp greater than durable timestamp` -/
  | commitAfterDurable
  deriving DecidableEq, Repr

/-- The global timestamps, as they are read; `none` is one that is not set. -/
structure TsRead where
  oldest : Option ℕ
  stable : Option ℕ
  /-- The pinned timestamp, for a read before the oldest one. -/
  pinned : ℕ
  deriving DecidableEq, Repr

/-- A `WT_TXN`, as far as its timestamps go. -/
structure TsTxn where
  /-- `WT_ISO_SNAPSHOT`. -/
  isoSnapshot : Bool
  running : Bool
  prepare : Bool
  prepareIgnoreApiCheck : Bool
  tsRoundPrepared : Bool
  tsRoundRead : Bool
  tsReadBeforeOldest : Bool
  hasTsCommit : Bool
  hasTsDurable : Bool
  hasTsPrepare : Bool
  sharedTsRead : Bool
  commitTimestamp : ℕ
  firstCommitTimestamp : ℕ
  durableTimestamp : ℕ
  prepareTimestamp : ℕ
  readTimestamp : ℕ
  deriving DecidableEq, Repr

/-- A timestamp is less than a global one. -/
def lessThan (ts : ℕ) (global : Option ℕ) : Bool :=
  match global with
  | some g => ts < g
  | none => false

/-- The checks of a commit timestamp, and its rounding up to the prepare timestamp. -/
def checkCommitTimestamp (g : TsRead) (txn : TsTxn) (commitTs : ℕ) : Except TsError ℕ :=
  if ¬ txn.isoSnapshot then .error .commitIsolation
  else if ¬ txn.hasTsPrepare then
    if lessThan commitTs g.oldest then .error .commitOldest
    else if lessThan commitTs g.stable then .error .commitStable
    else if txn.hasTsCommit ∧ commitTs < txn.firstCommitTimestamp then .error .commitFirst
    else .ok commitTs
  else if commitTs < txn.prepareTimestamp then
    if ¬ txn.tsRoundPrepared then .error .commitPrepare
    else .ok txn.prepareTimestamp
  else .ok commitTs

/-- `__wt_txn_set_commit_timestamp`. -/
def setCommitTimestamp (g : TsRead) (txn : TsTxn) (commitTs : ℕ) : Except TsError TsTxn := do
  let commitTs ← checkCommitTimestamp g txn commitTs
  .ok { txn with
    commitTimestamp := commitTs
    firstCommitTimestamp := if txn.hasTsCommit then txn.firstCommitTimestamp else commitTs
    -- the commit timestamp is mirrored only if there is no durable timestamp
    durableTimestamp := if txn.hasTsDurable then txn.durableTimestamp else commitTs
    hasTsCommit := true }

/-- `__wt_txn_set_durable_timestamp`. -/
def setDurableTimestamp (g : TsRead) (txn : TsTxn) (durableTs : ℕ) : Except TsError TsTxn :=
  if ¬ txn.prepare then .error .durableNotPrepared
  else if ¬ txn.hasTsCommit then .error .durableCommitNeeded
  else if lessThan durableTs g.oldest then .error .durableOldest
  else if lessThan durableTs g.stable then .error .durableStable
  else if durableTs < txn.commitTimestamp then .error .durableCommit
  else .ok { txn with durableTimestamp := durableTs, hasTsDurable := true }

/-- `__wt_txn_context_prepare_check`: the API check of a prepared transaction fails. -/
def contextPrepareFails (txn : TsTxn) : Bool :=
  !txn.prepareIgnoreApiCheck && txn.prepare

/-- A timestamp before the bound is rounded up to it, or refused. -/
def roundUp (round : Bool) (bound ts : ℕ) (e : TsError) : Except TsError ℕ :=
  if ts < bound then
    if round then .ok bound else .error e
  else .ok ts

/-- `__wt_txn_set_prepare_timestamp`.  An oldest timestamp that is not set is read as 0. -/
def setPrepareTimestamp (g : TsRead) (txn : TsTxn) (prepareTs : ℕ) : Except TsError TsTxn :=
  if contextPrepareFails txn then .error .prepared
  else if txn.hasTsPrepare then .error .prepareSet
  else if txn.hasTsCommit then .error .prepareCommit
  else do
    let prepareTs ← roundUp txn.tsRoundPrepared (g.oldest.getD 0) prepareTs .prepareOldest
    .ok { txn with prepareTimestamp := prepareTs, hasTsPrepare := true }

/-- `__wt_txn_set_read_timestamp`. -/
def setReadTimestamp (g : TsRead) (txn : TsTxn) (readTs : ℕ) : Except TsError TsTxn :=
  if contextPrepareFails txn then .error .prepared
  else if txn.running ∧ ¬ txn.isoSnapshot then .error .readIsolation
  else if txn.sharedTsRead then .error .readOnce
  else do
    let tsOldest := if txn.tsReadBeforeOldest then g.pinned else g.oldest.getD 0
    let readTs ← roundUp txn.tsRoundRead tsOldest readTs .readOldest
    .ok { txn with readTimestamp := readTs, sharedTsRead := true, isoSnapshot := true }

/-- The timestamps a call is configured with. -/
structure TsConfig where
  commit : Option ℕ
  durable : Option ℕ
  read : Option ℕ
  prepare : Option ℕ
  deriving DecidableEq, Repr

/-- What a call reads of the global timestamps, each time it does. -/
structure TsReads where
  commit : TsRead
  durable : TsRead
  read : TsRead
  prepare : TsRead
  deriving DecidableEq, Repr

/-- A configured timestamp is parsed, and set by its routine. -/
def setConfigured (set : TsTxn → ℕ → Except TsError TsTxn) (ts : Option ℕ) (txn : TsTxn) :
    Except TsError TsTxn :=
  match ts with
  | none => .ok txn
  | some ts => if ts = 0 then .error .zeroNotPermitted else set txn ts

/-- `__wt_txn_set_timestamp`.  That the transaction is running is checked, but what the check
returns is overwritten. -/
def setTimestamp (g : TsReads) (cfg : TsConfig) (txn : TsTxn) : Except TsError TsTxn := do
  let txn ← setConfigured (setCommitTimestamp g.commit) cfg.commit txn
  let txn ← setConfigured (setDurableTimestamp g.durable) cfg.durable txn
  let txn ← setConfigured (setReadTimestamp g.read) cfg.read txn
  setConfigured (setPrepareTimestamp g.prepare) cfg.prepare txn

/-- `__wt_txn_prepare`, as far as timestamps go. -/
def txnPrepare (g : TsReads) (cfg : TsConfig) (txn : TsTxn) : Except TsError TsTxn := do
  let txn ← setTimestamp g cfg txn
  if ¬ txn.hasTsPrepare then .error .prepareNotSet
  else .ok { txn with prepare := true }

/-- What committing looks at besides timestamps. -/
structure CommitFlags where
  writeAlways : Bool
  writeNever : Bool
  /-- There are modifications. -/
  modified : Bool
  recovering : Bool
  deriving DecidableEq, Repr

/-- `__txn_commit_timestamps_assert`, without the checks of each key. -/
def commitTimestampsAssert (flags : CommitFlags) (txn : TsTxn) : Except TsError Unit :=
  let usedTs := txn.hasTsCommit || txn.hasTsDurable
  if flags.writeAlways ∧ ¬ usedTs ∧ flags.modified ∧ ¬ flags.recovering then .error .writeAlways
  else if flags.writeNever ∧ usedTs ∧ flags.modified then .error .writeNever
  else if txn.durableTimestamp < txn.commitTimestamp then .error .commitAfterDurable
  else .ok ()

/-- Which timestamps are to be set for committing. -/
def commitRequirements (txn : TsTxn) : Except TsError Unit :=
  if txn.prepare then
    if ¬ txn.hasTsCommit then .error .commitRequired
    else if ¬ txn.hasTsDurable then .error .durableRequired
    else .ok ()
  else if txn.hasTsPrepare then .error .prepareNotPrepared
  else if txn.hasTsDurable then .error .durableNotPrepared
  else .ok ()

/-- The beginning of `__wt_txn_commit`, up to the checks of the timestamps.  A transaction that is
not prepared does not round. -/
def commitTimestamps (flags : CommitFlags) (g : TsReads) (cfg : TsConfig) (txn : TsTxn) :
    Except TsError TsTxn := do
  let txn ← setTimestamp g cfg { txn with tsRoundPrepared := txn.tsRoundPrepared && txn.prepare }
  commitRequirements txn
  commitTimestampsAssert flags txn
  .ok txn

end WiredTiger
