/-
# Allocating ids while snapshots are taken (`__wt_txn_id_alloc`)

A transaction publishes that it is allocating its id, then the current global id, gets its id by an
atomic increment, and publishes that.  Nothing of this is under a lock.  Snapshots walk the global
table under the read lock, and wait for a session that is allocating; the oldest id is scanned for
under the write lock, in the same way.

Each session is at some place of one of the functions, and takes one access to the shared state in
a step, in any interleaving with others.  Walks pass over a published id that is older than the
oldest id they saw, whether or not the session is allocating.
-/
import WiredTiger.Txn.Visible
import WiredTiger.Lib.Run

namespace WiredTiger

open Lib

/-! ### The state -/

/-- Where a walk is with one session: it reads the id, then the flag, then the id again. -/
inductive WalkAt
  | load
  | allocating (id : ℕ)
  | reload (id : ℕ)
  deriving DecidableEq, Repr

/-- The walk of `__txn_get_snapshot_int`, before session `k`. -/
structure SnapWalk where
  current : ℕ
  prevOldestId : ℕ
  k : ℕ
  ids : List ℕ
  place : WalkAt
  deriving DecidableEq, Repr

/-- The walk of `__txn_oldest_scan`, before session `k`.  It reads the pinned id of a session after
its id, at no place. -/
structure OldestWalk where
  prevOldestId : ℕ
  oldestId : ℕ
  lastRunning : ℕ
  k : ℕ
  place : Option WalkAt
  deriving DecidableEq, Repr

/-- Where a session is. -/
inductive Pc
  | idle
  /-- `__wt_txn_id_alloc`: `is_allocating` is published. -/
  | allocating
  /-- The current id is read. -/
  | allocRead (current : ℕ)
  /-- The current id is published as the id of the transaction. -/
  | allocPublished
  /-- The global id is incremented, and the transaction has its id. -/
  | allocIncremented (id : ℕ)
  /-- The id is published. -/
  | allocRepublished
  /-- `__txn_get_snapshot_int`, under the read lock. -/
  | snapLocked
  | snapCurrent (current : ℕ)
  | snapWalk (w : SnapWalk)
  /-- `__wt_txn_update_oldest`, under the write lock. -/
  | oldestLocked
  | oldestPrev (prevOldestId : ℕ)
  | oldestWalk (w : OldestWalk)
  /-- `__wt_txn_release`: the id is taken out of the table. -/
  | released
  deriving DecidableEq, Repr

def Pc.holdsRead : Pc → Bool
  | .snapLocked | .snapCurrent _ | .snapWalk _ => true
  | _ => false

def Pc.holdsWrite : Pc → Bool
  | .oldestLocked | .oldestPrev _ | .oldestWalk _ => true
  | _ => false

/-- A session with its entry in the global table. -/
structure AllocSession where
  /-- `txn_shared->id`. -/
  id : ℕ
  pinnedId : ℕ
  isAllocating : Bool
  /-- The id of the transaction, from the increment to its release. -/
  runId : Option ℕ
  snap : Option Snapshot
  pc : Pc

structure AllocState (n : ℕ) where
  current : ℕ
  oldestId : ℕ
  session : Fin n → AllocSession

/-- `__wt_txn_global_init`. -/
def AllocState.init (n : ℕ) : AllocState n :=
  ⟨1, 1, fun _ => ⟨txnNone, txnNone, false, none, none, .idle⟩⟩

namespace AllocState

variable {n : ℕ}

/-! ### Walks -/

/-- What a step of a walk comes to, at one session. -/
inductive Visit
  | pass
  | take (id : ℕ)
  | again (place : WalkAt)
  deriving DecidableEq, Repr

/-- The loop of a walk at one session, for ids from `lo` to `hi`. -/
def visit (lo hi : ℕ) (x : AllocSession) : WalkAt → Visit
  | .load => if x.id ≠ txnNone ∧ lo ≤ x.id ∧ x.id < hi then .again (.allocating x.id) else .pass
  | .allocating id => if x.isAllocating then .again .load else .again (.reload id)
  | .reload id => if x.id = id then .take id else .again .load

def set (s : AllocState n) (i : Fin n) (x : AllocSession) : AllocState n :=
  { s with session := Function.update s.session i x }

/-- The end of `__txn_get_snapshot_int`: the pinned id is published and the lock released. -/
def finishSnapshot (s : AllocState n) (i : Fin n) (current : ℕ) (ids : List ℕ) : AllocState n :=
  s.set i { s.session i with
    pinnedId := ids.foldl min current
    snap := some (sortSnapshot ids current)
    pc := .idle }

/-- The walk of `__txn_get_snapshot_int` at session `k`, which leaves out the session itself. -/
def nextSnap (s : AllocState n) (i k : Fin n) (w : SnapWalk) : SnapWalk :=
  if k = i then { w with k := w.k + 1, place := .load }
  else
    match visit w.prevOldestId w.current (s.session k) w.place with
    | .pass => { w with k := w.k + 1, place := .load }
    | .take id => { w with k := w.k + 1, ids := id :: w.ids, place := .load }
    | .again place => { w with place := place }

/-- A step of the walk of `__txn_get_snapshot_int`. -/
def advanceSnap (s : AllocState n) (i : Fin n) (w : SnapWalk) : AllocState n :=
  if h : w.k < n then
    s.set i { s.session i with pc := .snapWalk (s.nextSnap i ⟨w.k, h⟩ w) }
  else s.finishSnapshot i w.current w.ids

/-- A session of the walk of `__txn_oldest_scan`. -/
def visitOldest (w : OldestWalk) (x : AllocSession) : OldestWalk :=
  match w.place with
  | some place =>
    match visit w.prevOldestId w.lastRunning x place with
    | .pass => { w with place := none }
    | .take id => { w with lastRunning := id, place := none }
    | .again place => { w with place := some place }
  | none =>
    { w with
      oldestId :=
        if x.pinnedId ≠ txnNone ∧ x.pinnedId < w.oldestId then x.pinnedId else w.oldestId
      k := w.k + 1
      place := some .load }

/-- A step of the walk of `__txn_oldest_scan`; then `__wt_txn_update_oldest` moves the oldest id
forward and releases the lock. -/
def advanceOldest (s : AllocState n) (i : Fin n) (w : OldestWalk) : AllocState n :=
  if h : w.k < n then
    s.set i { s.session i with pc := .oldestWalk (visitOldest w (s.session ⟨w.k, h⟩)) }
  else
    let oldestId := if w.lastRunning < w.oldestId then w.lastRunning else w.oldestId
    { s.set i { s.session i with pc := .idle } with
      oldestId := if s.oldestId < oldestId then oldestId else s.oldestId }

/-! ### Steps -/

/-- The next access of a session that is in one of the functions. -/
def advance (s : AllocState n) (i : Fin n) : Option (AllocState n) :=
  let x := s.session i
  match x.pc with
  | .idle => none
  | .allocating => some (s.set i { x with pc := .allocRead s.current })
  | .allocRead current => some (s.set i { x with id := current, pc := .allocPublished })
  | .allocPublished =>
    some { s.set i { x with runId := some s.current, pc := .allocIncremented s.current } with
      current := s.current + 1 }
  | .allocIncremented id => some (s.set i { x with id := id, pc := .allocRepublished })
  | .allocRepublished => some (s.set i { x with isAllocating := false, pc := .idle })
  | .snapLocked => some (s.set i { x with snap := none, pc := .snapCurrent s.current })
  | .snapCurrent current =>
    -- for pure read-only workloads, avoid scanning
    if s.oldestId = current then some (s.finishSnapshot i current [])
    else some (s.set i { x with pc := .snapWalk ⟨current, s.oldestId, 0, [], .load⟩ })
  | .snapWalk w => some (s.advanceSnap i w)
  | .oldestLocked => some (s.set i { x with pc := .oldestPrev s.oldestId })
  | .oldestPrev prevOldestId =>
    some (s.set i { x with
      pc := .oldestWalk ⟨prevOldestId, s.current, s.current, 0, some .load⟩ })
  | .oldestWalk w => some (s.advanceOldest i w)
  | .released => some (s.set i { x with pinnedId := txnNone, snap := none, pc := .idle })

/-- What a session does next. -/
inductive AllocOp
  | idAlloc
  | getSnapshot
  /-- `__wt_txn_update_oldest` has decided, after a scan under the read lock that changes nothing,
  that an update is necessary, and gets the write lock. -/
  | updateOldest
  /-- The oldest id has been updated in the meantime. -/
  | giveUp
  | release
  | advance
  deriving DecidableEq, Repr

def step (s : AllocState n) (a : Fin n × AllocOp) : Option (AllocState n) :=
  let x := s.session a.1
  match a.2 with
  | .idAlloc =>
    if x.pc = .idle ∧ x.runId = none then
      some (s.set a.1 { x with isAllocating := true, pc := .allocating })
    else none
  | .getSnapshot =>
    if x.pc = .idle ∧ ∀ j, (s.session j).pc.holdsWrite = false then
      some (s.set a.1 { x with pc := .snapLocked })
    else none
  | .updateOldest =>
    if x.pc = .idle ∧
        ∀ j, (s.session j).pc.holdsWrite = false ∧ (s.session j).pc.holdsRead = false then
      some (s.set a.1 { x with pc := .oldestLocked })
    else none
  | .giveUp =>
    if x.pc = .oldestLocked then some (s.set a.1 { x with pc := .idle }) else none
  | .release =>
    if x.pc = .idle then
      some (s.set a.1 { x with id := txnNone, runId := none, pc := .released })
    else none
  | .advance => s.advance a.1

end AllocState

end WiredTiger
