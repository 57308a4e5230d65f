/-
# Reader-writer locks (`__wt_readlock`, `__wt_writelock`)

The lock is one word: the ticket that is served, the next ticket, the ticket of the readers that
wait, their number, and the number of readers that are in.  A thread reads the word, computes a new
one, and puts it there by compare-and-swap if the word is still what it was; or it reads the word
again until its ticket is served.  Tickets have one byte, and wrap.

Each thread is at some place of one of the functions, and takes one access to the word in a step, in
any interleaving with others.
-/
import WiredTiger.Lib.Run
import WiredTiger.Lib.Pointwise

namespace WiredTiger

open Lib

/-! ### The word -/

/-- The fields of `WT_RWLOCK`. -/
structure LockWord where
  current : UInt8
  next : UInt8
  reader : UInt8
  readersQueued : UInt8
  readersActive : UInt32
  deriving DecidableEq, Repr

namespace LockWord

/-- `__wt_rwlock_init`. -/
def init : LockWord := ⟨0, 0, 0, 0, 0⟩

/-- A reader joins the readers that are in. -/
def addReader (w : LockWord) : LockWord := { w with readersActive := w.readersActive + 1 }

/-- A reader leaves. -/
def dropReader (w : LockWord) : LockWord := { w with readersActive := w.readersActive - 1 }

/-- A reader queues, and the first one sets the ticket of the group. -/
def queueReader (w : LockWord) : LockWord :=
  { w with
    readersQueued := w.readersQueued + 1
    reader := if w.readersQueued = 0 then w.next else w.reader }

/-- A writer takes a ticket. -/
def takeTicket (w : LockWord) : LockWord := { w with next := w.next + 1 }

/-- The next batch starts: readers that have queued for it are in. -/
def nextBatch (w : LockWord) : LockWord :=
  if w.current + 1 = w.reader then
    { w with
      current := w.current + 1
      readersActive := w.readersQueued.toUInt32
      readersQueued := 0 }
  else { w with current := w.current + 1 }

/-- `writers_active`, which is below 0 if the next ticket has wrapped and the current one has not.
-/
def writersActive (w : LockWord) : ℤ := w.next.toNat - w.current.toNat

/-- A reader may not queue. -/
def queueFull (w : LockWord) : Bool :=
  w.readersQueued = 255 ∨ w.writersActive < w.readersQueued.toNat

end LockWord

/-! ### Threads -/

/-- Where a thread is.  What it has read of the word is `old`. -/
inductive RwPc
  | idle
  /-- `__wt_try_readlock`: at its start, and before the compare-and-swap. -/
  | tryReadTop
  | tryRead (old : LockWord)
  /-- `__wt_readlock`: at the top of its loop, before each compare-and-swap, and waiting for the
  group to start. -/
  | readTop
  | readJoin (old : LockWord)
  | readQueue (old : LockWord)
  | readWait (ticket : UInt8)
  /-- The shared lock has been returned. -/
  | reading
  /-- `__wt_readunlock`. -/
  | readUnlockTop
  | readUnlock (old : LockWord)
  /-- `__wt_try_writelock`. -/
  | tryWriteTop
  | tryWrite (old : LockWord)
  /-- `__wt_writelock`. -/
  | writeTop
  | writeTake (old : LockWord)
  | writeWait (ticket : UInt8)
  /-- The exclusive lock has been returned. -/
  | writing
  /-- `__wt_writeunlock`. -/
  | writeUnlockTop
  | writeUnlock (old : LockWord)
  deriving DecidableEq, Repr

inductive RwCall
  | tryReadlock
  | readlock
  | readunlock
  | tryWritelock
  | writelock
  | writeunlock
  deriving DecidableEq, Repr

/-- A thread calls a function; who has the lock unlocks it. -/
def RwCall.start : RwCall → RwPc → Option RwPc
  | .tryReadlock, .idle => some .tryReadTop
  | .readlock, .idle => some .readTop
  | .tryWritelock, .idle => some .tryWriteTop
  | .writelock, .idle => some .writeTop
  | .readunlock, .reading => some .readUnlockTop
  | .writeunlock, .writing => some .writeUnlockTop
  | _, _ => none

/-- `__wt_atomic_casv64`, with where it goes on in each case. -/
def casWord (l old new : LockWord) (ok fail : RwPc) : LockWord × RwPc :=
  if l = old then (new, ok) else (l, fail)

/-- The next access of a thread to the word.  Waiting on a condition variable is left to the
scheduler: it ends after some time in any case, and the word is looked at again. -/
def RwPc.advance (l : LockWord) : RwPc → Option (LockWord × RwPc)
  | .idle | .reading | .writing => none
  | .tryReadTop =>
    if l.current ≠ l.next then some (l, .idle)
    else if l.addReader.readersActive = 0 then some (l, .idle)
    else some (l, .tryRead l)
  | .tryRead old => some (casWord l old old.addReader .reading .idle)
  | .readTop =>
    if l.current = l.next then
      if l.addReader.readersActive = 0 then some (l, .readTop) else some (l, .readJoin l)
    else if l.queueFull then some (l, .readTop)
    else some (l, .readQueue l)
  | .readJoin old => some (casWord l old old.addReader .reading .readTop)
  | .readQueue old =>
    some (casWord l old old.queueReader (.readWait old.queueReader.reader) .readTop)
  | .readWait ticket =>
    if ticket ≠ l.current then some (l, .readWait ticket) else some (l, .reading)
  | .readUnlockTop => some (l, .readUnlock l)
  | .readUnlock old => some (casWord l old old.dropReader .idle .readUnlockTop)
  | .tryWriteTop =>
    if l.current ≠ l.next ∨ l.readersActive ≠ 0 then some (l, .idle) else some (l, .tryWrite l)
  | .tryWrite old => some (casWord l old old.takeTicket .writing .idle)
  | .writeTop =>
    if l.takeTicket.current = l.takeTicket.next then some (l, .writeTop)
    else some (l, .writeTake l)
  | .writeTake old => some (casWord l old old.takeTicket (.writeWait old.next) .writeTop)
  | .writeWait ticket =>
    if ticket ≠ l.current ∨ l.readersActive ≠ 0 then some (l, .writeWait ticket)
    else some (l, .writing)
  | .writeUnlockTop => some (l, .writeUnlock l)
  | .writeUnlock old => some (casWord l old old.nextBatch .idle .writeUnlockTop)

/-! ### The system -/

/-- The lock and its threads. -/
structure RwState (n : ℕ) where
  lock : LockWord
  pc : Fin n → RwPc

inductive RwAction
  | call (c : RwCall)
  | advance
  deriving DecidableEq, Repr

namespace RwState

variable {n : ℕ}

def init (n : ℕ) : RwState n := ⟨.init, fun _ => .idle⟩

/-- A thread is at another place, and the word another one. -/
def set (s : RwState n) (i : Fin n) (l : LockWord) (x : RwPc) : RwState n :=
  ⟨l, Function.update s.pc i x⟩

/-- A step of a thread. -/
def step (s : RwState n) : Fin n × RwAction → Option (RwState n)
  | (i, .call c) => (c.start (s.pc i)).map (s.set i s.lock)
  | (i, .advance) => ((s.pc i).advance s.lock).map fun lx => s.set i lx.1 lx.2

end RwState

/-- The thread has the exclusive lock, until it is unlocked. -/
def RwPc.holdsWrite : RwPc → Bool
  | .writing | .writeUnlockTop | .writeUnlock _ => true
  | _ => false

/-- The thread has the shared lock, until it is unlocked.  It has it from when its ticket is served,
as the one that serves the ticket counts the readers of the group as being in. -/
def RwPc.holdsRead (current : UInt8) : RwPc → Bool
  | .reading | .readUnlockTop | .readUnlock _ => true
  | .readWait ticket => ticket = current
  | _ => false

/-- How many threads have the shared lock. -/
def RwState.readers {n : ℕ} (s : RwState n) : ℕ :=
  countAt (RwPc.holdsRead s.lock.current) s.pc

end WiredTiger
