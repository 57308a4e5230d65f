/-
# Looking up old versions in the history store (`history/hs_cursor.c`, `cursor/cur_hs.c`)

The history store has the old versions of a key in the order of their start timestamps, with a
counter for versions of one timestamp.  A reader searches for its read timestamp and walks to the
left until it comes to a version it sees.  A version may be stored as the changes that lead back to
it from the next newer one; the newest version of all is then the base the reader brings along.

The records of one key are a list, and a position is the index of a record.  Everything outside
the list belongs to other keys, where every walk ends.
-/
import WiredTiger.Txn.Visible

namespace WiredTiger

open Lib

/-- What a history store record says about the value. -/
inductive HsData
  | standard (value : Value)
  | modify (entries : List Modify)
  deriving DecidableEq, Repr

/-- A record of the history store, for one key. -/
structure HsRec where
  /-- The timestamp in the record's key. -/
  startTs : ℕ
  counter : ℕ
  tw : TimeWindow
  data : HsData
  deriving DecidableEq, Repr

/-- The end of a walk to the left. -/
inductive HsWalk
  | found (indx : ℕ)
  /-- Nothing is visible; a walk to the right would start here. -/
  | out (next : ℕ)
  deriving DecidableEq, Repr

section

variable (w : View) (g : Global) (recs : List HsRec)

/-- `__curhs_prev_visible` for a cursor with a key, from the record in front of index `n` on. -/
def curhsPrevVisible : ℕ → HsWalk
  | 0 => .out 0
  | n + 1 =>
    match recs[n]? with
    | none => .out (n + 1)
    | some r =>
      if txnTwStopVisibleAll g r.tw then curhsPrevVisible n
      -- if the stop of a record is visible, nothing of this key is
      else if txnTwStopVisible w r.tw then .out (n + 1)
      else if txnTwStartVisible w r.tw then .found n
      else curhsPrevVisible n

/-- `__curhs_next_visible` for a cursor with a key; the list has the records from index `i` on.
`readCommitted` is `WT_CURSTD_HS_READ_COMMITTED`. -/
def curhsNextVisible (readCommitted : Bool) : List HsRec → ℕ → Option ℕ
  | [], _ => none
  | r :: rest, i =>
    if txnTwStopVisibleAll g r.tw then curhsNextVisible readCommitted rest (i + 1)
    else if readCommitted then some i
    else if txnTwStopVisible w r.tw then curhsNextVisible readCommitted rest (i + 1)
    else if txnTwStartVisible w r.tw then some i
    else curhsNextVisible readCommitted rest (i + 1)

/-- `__curhs_search_near`: the record and whether it is at, in front of or behind the search key.
`pos` records are smaller than the search key; the search in the history store file lands on the
next record if `after`, and else on the previous one. -/
def curhsSearchNear (pos : ℕ) (after : Bool) : Option (ℕ × Bool) :=
  if after then
    match curhsNextVisible w g false (recs.drop pos) pos with
    | some i => some (i, true)
    | none =>
      -- walk back into the range of the key
      match curhsPrevVisible w g recs recs.length with
      | .found i => some (i, false)
      | .out _ => none
  else
    match curhsPrevVisible w g recs pos with
    | .found i => some (i, false)
    | .out next => (curhsNextVisible w g false (recs.drop next) next).map fun i => (i, true)

/-- The walk in `__wt_curhs_search_near_before` back to a record that is smaller than the search
key. -/
def curhsWalkBefore (pos : ℕ) : ℕ → ℕ → Option ℕ
  | 0, _ => none
  | fuel + 1, i =>
    match curhsPrevVisible w g recs i with
    | .found j => if j < pos then some j else curhsWalkBefore pos fuel j
    | .out _ => none

/-- `__wt_curhs_search_near_before`. -/
def curhsSearchNearBefore (pos : ℕ) (after : Bool) : Option ℕ :=
  match curhsSearchNear w g recs pos after with
  | none => none
  | some (i, false) => some i
  | some (i, true) => curhsWalkBefore w g recs pos recs.length i

/-- The full value of the version in front of the records `recs`, given the base value: the loop
over the modifies in `__wt_hs_find_upd`. -/
def hsBaseValue (fmt : ValueFormat) (base : Value) : List HsRec → Value
  | [] => base
  | r :: rest =>
    if txnTwStopVisibleAll g r.tw then hsBaseValue fmt base rest
    else
      match r.data with
      | .standard value => value
      | .modify entries => applyModifies fmt entries (hsBaseValue fmt base rest)

/-- A reader without a timestamp searches for the largest one. -/
def hsReadTimestamp : ℕ :=
  match w.readTs with
  | none => tsMax
  | some readTs => if readTs = tsNone then tsMax else readTs

/-- `__wt_hs_find_upd`. -/
def hsFindUpd (fmt : ValueFormat) (after : Bool) (base : Value) : Option Value := do
  let pos := (recs.takeWhile fun r => r.startTs ≤ hsReadTimestamp w).length
  let i ← curhsSearchNearBefore w g recs pos after
  let r ← recs[i]?
  some (match r.data with
    | .standard value => value
    | .modify entries => applyModifies fmt entries (hsBaseValue g fmt base (recs.drop (i + 1))))

end

end WiredTiger
