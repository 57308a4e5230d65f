/-
# Log slots (`__wt_log_slot_join`, `__wt_log_slot_release`, `__log_slot_close`)

Threads that write log records join the active slot: they add the size of their record to the state
of the slot by a compare-and-swap, copy the record to the buffer of the slot at the offset they got,
and add its size to the bytes released.  A record that is too large for the buffer is not copied,
and no one can join after it.  The slot is closed under the slot lock; whoever sees that it is
closed and all of its bytes are released, the closing thread or one that releases, writes the buffer
and frees the slot, or leaves that to the worker.

One slot is followed from its first use on, with any number of threads that are each at some place
of the functions and take one access to the shared state in a step.  A thread can close the slot
between joining and releasing, so the two are separate places.
-/
import WiredTiger.Log.Scan
import WiredTiger.Log.SlotState
import WiredTiger.Lib.Pointwise
import WiredTiger.Lib.Region
import WiredTiger.Lib.Run

namespace WiredTiger

open Lib

/-! ### The state -/

/-- `WT_MYSLOT`: the range of a record in its slot. -/
structure MySlot where
  offset : ℕ
  size : ℕ
  unbuffered : Bool
  deriving DecidableEq, Repr

/-- Where a thread is in writing a record. -/
inductive JoinPc
  | idle
  /-- In the loop of `__wt_log_slot_join`. -/
  | trying (size : ℕ)
  /-- An open state is read. -/
  | read (size : ℕ) (old : BitVec 64)
  /-- The slot is joined, and `slot_unbuffered` still to be set. -/
  | joined (my : MySlot)
  /-- The record is copied to the buffer, or written. -/
  | filled (my : MySlot)
  /-- `__wt_log_slot_release` has read `slot_last_offset`, which is smaller. -/
  | lastRead (my : MySlot) (cur : ℕ)
  /-- `slot_last_offset` is up to date. -/
  | releasing (my : MySlot)
  /-- The slot was complete when it was released. -/
  | done
  deriving DecidableEq, Repr

/-- Where a thread is in `__log_slot_close`. -/
inductive ClosePc
  | idle
  /-- The slot lock is held. -/
  | locked (forced : Bool)
  | read (forced : Bool) (old : BitVec 64)
  /-- The slot is not in a reserved state. -/
  | checked (forced : Bool) (old : BitVec 64)
  /-- The slot is closed, and the end LSN to be set. -/
  | owned (old : BitVec 64) (release : Bool)
  /-- The function returns 0. -/
  | closed (release : Bool)
  /-- The slot was complete when it was closed. -/
  | done
  deriving DecidableEq, Repr

structure SlotThread where
  join : JoinPc
  close : ClosePc
  deriving DecidableEq, Repr

/-- A slot of the log, with the threads that use it. -/
structure LogSlot (n : ℕ) where
  state : BitVec 64
  unbuffered : ℕ
  startLsn : Lsn
  endLsn : Lsn
  lastOffset : ℕ
  /-- `log->alloc_lsn`. -/
  allocLsn : Lsn
  /-- `log->log_slot_lock`. -/
  lock : Option (Fin n)
  thread : Fin n → SlotThread
  /-- The ranges handed out since the slot was activated. -/
  joins : List MySlot
  /-- Whether the slot has been closed since then. -/
  closed : Bool
  /-- The threads that have seen it become complete since then. -/
  seen : List (Fin n)

/-- `__wt_log_slot_init`, before the first slot is activated. -/
def LogSlot.init (n : ℕ) (alloc : Lsn) : LogSlot n :=
  ⟨slotFree, 0, alloc, alloc, 0, alloc, none, fun _ => ⟨.idle, .idle⟩, [], false, []⟩

/-- `WT_LOG_SLOT_BUF_MAX`, for a maximum size of log files. -/
def slotBufMax (fileMax : ℕ) : ℕ := min (fileMax / 10) slotBufSize / 2

namespace LogSlot

variable {n : ℕ}

def setJoin (s : LogSlot n) (i : Fin n) (pc : JoinPc) : LogSlot n :=
  { s with thread := Function.update s.thread i { s.thread i with join := pc } }

def setClose (s : LogSlot n) (i : Fin n) (pc : ClosePc) : LogSlot n :=
  { s with thread := Function.update s.thread i { s.thread i with close := pc } }

/-! ### Steps -/

/-- What a thread does next. -/
inductive SlotOp
  /-- `__wt_log_slot_activate`, under the slot lock. -/
  | activate
  /-- The allocation LSN is changed by the use of other slots, under the slot lock. -/
  | others (lsn : Lsn)
  | join (size : ℕ)
  | joinNext
  | close (forced : Bool)
  | closeNext
  /-- The thread that has seen the slot complete leaves it to the worker. -/
  | written (closer : Bool)
  /-- The thread that has seen the slot complete frees it: `__wt_log_slot_free`. -/
  | free (closer : Bool)
  /-- The worker frees it. -/
  | workerFree
  deriving DecidableEq, Repr

def activate (s : LogSlot n) : Option (LogSlot n) :=
  if s.state = slotFree ∧ s.lock = none then
    some { s with
      unbuffered := 0, startLsn := s.allocLsn, endLsn := s.allocLsn,
      lastOffset := s.allocLsn.offset, state := 0, joins := [], closed := false, seen := [] }
  else none

/-- `__wt_log_slot_join`, then `__wt_log_slot_release`. -/
def joinNext (fileMax : ℕ) (s : LogSlot n) (i : Fin n) : Option (LogSlot n) :=
  match (s.thread i).join with
  | .idle => none
  | .trying size =>
    if slotOpen (slotBufMax fileMax) s.state then some (s.setJoin i (.read size s.state))
    else none
  | .read size old =>
    if s.state = old then
      let unbuffered : Bool := slotBufMax fileMax < size
      let my : MySlot := ⟨(slotJoined old).toNat, size, unbuffered⟩
      some { s.setJoin i (.joined my) with
        state := slotJoinState old unbuffered size
        joins := s.joins ++ [my] }
    else some (s.setJoin i (.trying size))
  | .joined my =>
    some { s.setJoin i (.filled my) with
      unbuffered := if my.unbuffered then my.size else s.unbuffered }
  | .filled my =>
    if s.lastOffset < s.startLsn.offset + my.offset then
      some (s.setJoin i (.lastRead my s.lastOffset))
    else some (s.setJoin i (.releasing my))
  | .lastRead my cur =>
    if s.lastOffset = cur then
      some { s.setJoin i (.releasing my) with lastOffset := s.startLsn.offset + my.offset }
    else some (s.setJoin i (.filled my))
  | .releasing my =>
    let new := s.state + slotRelSize my.unbuffered my.size
    if slotDone new then
      some { s.setJoin i .done with state := new, seen := s.seen ++ [i] }
    else some { s.setJoin i .idle with state := new }
  | .done => none

/-- `__log_slot_close` returns, and the slot lock is released. -/
def unlock (s : LogSlot n) (i : Fin n) (pc : ClosePc) : LogSlot n :=
  { s.setClose i pc with lock := none }

/-- `__log_slot_close`. -/
def closeNext (s : LogSlot n) (i : Fin n) : Option (LogSlot n) :=
  match (s.thread i).close with
  | .idle => none
  | .locked forced =>
    if forced ∧ slotInprogress s.state then some (s.unlock i .idle)
    else if slotClosed s.state then some (s.unlock i .idle)
    else some (s.setClose i (.read forced s.state))
  | .read forced old =>
    if slotIsset s.state slotReserved then some (s.unlock i .idle)
    else some (s.setClose i (.checked forced old))
  | .checked forced old =>
    if s.state = old then
      let new := old ||| slotClose
      let release := slotDone new
      some { s.setClose i (.owned old release) with
        state := new, closed := true, seen := if release then s.seen ++ [i] else s.seen }
    else some (s.setClose i (.locked forced))
  | .owned old release =>
    -- wait for the unbuffered size to be set
    if slotUnbufferedIsset old ∧ s.unbuffered = 0 then none
    else
      let endOffset := (slotJoinedBuffered old).toNat + s.unbuffered
      let lsn : Lsn := ⟨s.startLsn.file, (s.startLsn.offset + endOffset % 2 ^ 32) % 2 ^ 32⟩
      some { s.setClose i (.closed release) with endLsn := lsn, allocLsn := lsn }
  | .closed release => some (s.unlock i (if release then .done else .idle))
  | .done => none

/-- The thread that has seen the slot complete sets its last state. -/
def finish (s : LogSlot n) (i : Fin n) (closer : Bool) (state : BitVec 64) : Option (LogSlot n) :=
  if closer then
    if (s.thread i).close = .done then some { s.setClose i .idle with state := state } else none
  else if (s.thread i).join = .done then some { s.setJoin i .idle with state := state }
  else none

def step (fileMax : ℕ) (s : LogSlot n) (a : Fin n × SlotOp) : Option (LogSlot n) :=
  match a.2 with
  | .activate => s.activate
  | .others lsn => if s.lock = none then some { s with allocLsn := lsn } else none
  | .join size =>
    if (s.thread a.1).join = .idle ∧ 0 < size ∧ size < 2 ^ 32 then
      some (s.setJoin a.1 (.trying size))
    else none
  | .joinNext => s.joinNext fileMax a.1
  | .close forced =>
    if s.lock = none ∧ (s.thread a.1).close = .idle then
      some { s.setClose a.1 (.locked forced) with lock := some a.1 }
    else none
  | .closeNext => s.closeNext a.1
  | .written closer => s.finish a.1 closer slotWritten
  | .free closer => s.finish a.1 closer slotFree
  | .workerFree => if s.state = slotWritten then some { s with state := slotFree } else none

end LogSlot

end WiredTiger
