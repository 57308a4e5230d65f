/-
# Visibility (`include/txn_inline.h`)

A transaction sees an update if it sees its transaction id and its timestamp.  Under snapshot
isolation an id is seen if it is below `snap_max` and was not running when the snapshot was taken.
An update is visible to all if every present and future reader sees it.
-/
import WiredTiger.Modify.Splice
import WiredTiger.Lib.BinarySearch

namespace WiredTiger

open Lib List

/-! ### Ids and timestamps -/

/-- `WT_TXN_NONE`. -/
def txnNone : ℕ := 0

/-- `WT_TXN_MAX`: no transaction has an id as large as this. -/
def txnMax : ℕ := 2 ^ 64 - 1 - 10

/-- `WT_TXN_ABORTED`. -/
def txnAborted : ℕ := 2 ^ 64 - 1

/-- `WT_TS_NONE`. -/
def tsNone : ℕ := 0

/-- `WT_TS_MAX`. -/
def tsMax : ℕ := 2 ^ 64 - 1

/-! ### Updates and time windows -/

/-- A value of a key. -/
abbrev Value := List UInt8

/-- The type of an update with its payload. -/
inductive UpdData
  | modify (entries : List Modify)
  | reserve
  | standard (value : Value)
  | tombstone
  deriving DecidableEq, Repr

/-- `WT_PREPARE_*`. -/
inductive PrepareState
  | init
  | inprogress
  | locked
  | resolved
  deriving DecidableEq, Repr

/-- A `WT_UPDATE`.  Its flags are here as far as reading and reconciliation look at them. -/
structure Update where
  txnid : ℕ
  durableTs : ℕ
  startTs : ℕ
  data : UpdData
  prepare : PrepareState
  /-- `WT_UPDATE_PREPARE_RESTORED_FROM_DS`. -/
  prepareRestoredFromDs : Bool
  /-- `WT_UPDATE_RESTORED_FROM_HS`. -/
  restoredFromHs : Bool
  deriving DecidableEq, Repr

/-- A `WT_TIME_WINDOW`. -/
structure TimeWindow where
  durableStartTs : ℕ
  startTs : ℕ
  startTxn : ℕ
  durableStopTs : ℕ
  stopTs : ℕ
  stopTxn : ℕ
  prepare : Bool
  deriving DecidableEq, Repr

/-- `WT_TIME_WINDOW_INIT`. -/
def TimeWindow.init : TimeWindow := ⟨tsNone, tsNone, txnNone, tsNone, tsMax, txnMax, false⟩

/-- `WT_TIME_WINDOW_HAS_STOP`. -/
def TimeWindow.hasStop (tw : TimeWindow) : Bool := tw.stopTxn ≠ txnMax || tw.stopTs ≠ tsMax

/-! ### Snapshots -/

/-- `WT_BINARY_SEARCH`. -/
def binarySearch (key : ℕ) (a : List ℕ) : Bool :=
  match bsearch (fun i (_ : Unit) => a[i]?.map fun x => (compare key x, ())) 0 a.length () with
  | some (.found _ _) => true
  | _ => false

/-- A snapshot: the ids that were running when it was taken, in order, and the bounds of the ids it
decides about. -/
structure Snapshot where
  snapMin : ℕ
  snapMax : ℕ
  ids : List ℕ
  sorted : ids.Pairwise (· ≤ ·)
  min_le : ∀ x ∈ ids, snapMin ≤ x

/-- The snapshot when no transaction runs. -/
def Snapshot.quiet (id : ℕ) : Snapshot := ⟨id, id, [], by simp, by simp⟩

/-- `__txn_sort_snapshot`. -/
def sortSnapshot (ids : List ℕ) (snapMax : ℕ) : Snapshot where
  snapMin := match (ids.insertionSort (· ≤ ·)).head? with
    | some id => if id ≤ snapMax then id else snapMax
    | none => snapMax
  snapMax := snapMax
  ids := ids.insertionSort (· ≤ ·)
  sorted := pairwise_insertionSort _ ids
  min_le := by
    intro x hx
    have hs := pairwise_insertionSort (· ≤ ·) ids
    rcases h : ids.insertionSort (· ≤ ·) with _ | ⟨y, l⟩
    · simp [h] at hx
    · rw [h] at hx hs
      have hyx : y ≤ x := by
        rcases mem_cons.mp hx with rfl | hx
        · exact le_rfl
        · exact (pairwise_cons.mp hs).1 x hx
      simp only [head?_cons]
      split_ifs with hle
      · exact hyx
      · exact (not_le.mp hle).le.trans hyx

/-- `__wt_txn_visible_id_snapshot`. -/
def txnVisibleIdSnapshot (id : ℕ) (s : Snapshot) : Bool :=
  if s.snapMax ≤ id then false
  else if s.ids.length = 0 ∨ id < s.snapMin then true
  else !binarySearch id s.ids

/-- `WT_BINARY_SEARCH` finds what is in a sorted array. -/
lemma binarySearch_iff {key : ℕ} {a : List ℕ} (h : a.Pairwise (· ≤ ·)) :
    binarySearch key a = true ↔ key ∈ a := by
  obtain ⟨ord, hord⟩ : ∃ ord : ℕ → Ordering, ∀ (i : ℕ) (hi : i < a.length),
      ord i = compare key a[i] :=
    ⟨fun i => compare key (a[i]?.getD 0), fun i hi => by simp [getElem?_eq_getElem hi]⟩
  have hle : ∀ (i j : ℕ) (hi : i < a.length) (hj : j < a.length), i < j → a[i] ≤ a[j] :=
    fun i j hi hj hij => pairwise_iff_getElem.mp h i j hi hj hij
  have hgreater : ∀ i j, i < j → j < a.length → ord j = .gt → ord i = .gt := by
    intro i j hij hj hgt
    have := hle i j (hij.trans hj) hj hij
    rw [hord j hj, Nat.compare_eq_gt] at hgt
    rw [hord i (hij.trans hj), Nat.compare_eq_gt]
    omega
  have hless : ∀ i j, i < j → j < a.length → ord i = .lt → ord j = .lt := by
    intro i j hij hj hlt
    have := hle i j (hij.trans hj) hj hij
    rw [hord i (hij.trans hj), Nat.compare_eq_lt] at hlt
    rw [hord j hj, Nat.compare_eq_lt]
    omega
  have hstep : ∀ (b e i : ℕ) (s : Unit), b ≤ i → i < e → e ≤ a.length → True →
      ∃ s', (fun i (_ : Unit) => a[i]?.map fun x => (compare key x, ())) i s = some (ord i, s') ∧
        (ord i = .gt → True) ∧ (ord i = .lt → True) ∧ (ord i = .eq → True) := by
    intro b e i s _ hi he _
    exact ⟨(), by simp [getElem?_eq_getElem (hi.trans_le he), hord i (hi.trans_le he)], by simp⟩
  rw [binarySearch]
  rcases bsearch_spec ord (fun _ _ _ => True) (fun _ _ => True) hgreater hless hstep
      (Nat.zero_add a.length).le trivial with
    ⟨i, s, hb, -, hi, heq, -⟩ | ⟨b, s, hb, -, hb', -, hgt, hlt⟩
  · rw [hb]
    rw [Nat.zero_add] at hi
    rw [hord i hi, Nat.compare_eq_eq] at heq
    simp [heq]
  · rw [hb]
    simp only [Bool.false_eq_true, false_iff]
    intro hmem
    obtain ⟨i, hi, rfl⟩ := mem_iff_getElem.mp hmem
    have heq : ord i = .eq := by simp [hord i hi]
    rcases Nat.lt_or_ge i b with hib | hib
    · simp [hgt i (Nat.zero_le i) hib] at heq
    · simp [hlt i hib (by omega)] at heq

/-- An id is not visible exactly if it was running when the snapshot was taken, or is not below its
upper bound. -/
lemma txnVisibleIdSnapshot_eq_false_iff {id : ℕ} {s : Snapshot} :
    txnVisibleIdSnapshot id s = false ↔ id ∈ s.ids ∨ s.snapMax ≤ id := by
  rw [txnVisibleIdSnapshot]
  split_ifs with hmax hmin
  · simp [hmax]
  · have hid : id ∉ s.ids := by
      intro hid
      have := s.min_le id hid
      rcases hmin with hnil | hlt
      · simp [eq_nil_of_length_eq_zero hnil] at hid
      · omega
    simp [hmax, hid]
  · simp [hmax, binarySearch_iff s.sorted]

/-! ### What a transaction sees -/

/-- `WT_TXN_ISOLATION`. -/
inductive Isolation
  | readCommitted
  | readUncommitted
  | snapshot
  deriving DecidableEq, Repr

/-- The state of a session's transaction that its reads look at. -/
structure View where
  /-- `txn->id`, or `WT_TXN_NONE`. -/
  id : ℕ
  /-- `WT_TXN_HAS_ID`. -/
  hasId : Bool
  isolation : Isolation
  snap : Snapshot
  /-- `txn_shared->read_timestamp`, if `WT_TXN_SHARED_TS_READ` is set. -/
  readTs : Option ℕ
  /-- `WT_TXN_IGNORE_PREPARE`. -/
  ignorePrepare : Bool

/-- `__txn_visible_id`. -/
def txnVisibleId (w : View) (id : ℕ) : Bool :=
  if id = txnNone then true
  else if id = txnAborted then false
  else if id = w.id then true
  else if w.isolation = .readUncommitted then true
  else txnVisibleIdSnapshot id w.snap

/-- `__wt_txn_visible`. -/
def txnVisible (w : View) (id timestamp : ℕ) : Bool :=
  if !txnVisibleId w id then false
  else if w.hasId && id = w.id then true
  else
    match w.readTs with
    | none => true
    | some readTs => if timestamp = tsNone then true else timestamp ≤ readTs

/-- A transaction sees an id and a timestamp if it sees the id, and the timestamp does not matter or
is no newer than it reads. -/
lemma txnVisible_iff {w : View} {id timestamp : ℕ} :
    txnVisible w id timestamp = true ↔ txnVisibleId w id = true ∧
      ((w.hasId = true ∧ id = w.id) ∨
        ∀ readTs, w.readTs = some readTs → timestamp = tsNone ∨ timestamp ≤ readTs) := by
  rw [txnVisible]
  rcases hread : w.readTs with _ | readTs
  · cases txnVisibleId w id <;> simp
  · cases txnVisibleId w id with
    | false => simp
    | true =>
      by_cases hself : w.hasId = true ∧ id = w.id
      · simp [hself]
      · have : (w.hasId && decide (id = w.id)) = false := by simpa using hself
        simp [this, hself]

/-- `WT_VISIBLE_TYPE`. -/
inductive VisibleType
  | false
  | prepare
  | true
  deriving DecidableEq, Repr

/-- Why a read does not return a value. -/
inductive Stop
  /-- `WT_PREPARE_CONFLICT`. -/
  | prepareConflict
  /-- The reader waits for a transition of the prepare state. -/
  | spin
  deriving DecidableEq, Repr

/-- `__wt_txn_upd_visible_type`, outside the history store. -/
def txnUpdVisibleType (w : View) (upd : Update) : Except Stop VisibleType :=
  if upd.prepare = .locked then .error .spin
  else
    .ok (if !txnVisible w upd.txnid upd.startTs then .false
      else if upd.prepare = .inprogress then .prepare
      else .true)

/-- `__wt_txn_tw_stop_visible`. -/
def txnTwStopVisible (w : View) (tw : TimeWindow) : Bool :=
  tw.hasStop && !tw.prepare && txnVisible w tw.stopTxn tw.stopTs

/-- The start and the stop of a time window are not of one transaction. -/
def TimeWindow.hasOtherStop (tw : TimeWindow) : Bool :=
  tw.hasStop && (tw.startTxn ≠ tw.stopTxn || tw.startTs ≠ tw.stopTs ||
    tw.durableStartTs ≠ tw.durableStopTs)

/-- `__wt_txn_tw_start_visible`. -/
def txnTwStartVisible (w : View) (tw : TimeWindow) : Bool :=
  (tw.hasOtherStop || !tw.prepare) && txnVisible w tw.startTxn tw.startTs

/-! ### What everybody sees -/

/-- The global state that decides what is visible to all. -/
structure Global where
  /-- `__wt_txn_oldest_id`. -/
  oldestId : ℕ
  /-- `__wt_txn_pinned_timestamp`. -/
  pinnedTs : ℕ
  /-- `WT_CONN_CLOSING`. -/
  closing : Bool
  deriving DecidableEq, Repr

/-- `__wt_txn_visible_all`. -/
def txnVisibleAll (g : Global) (id timestamp : ℕ) : Bool :=
  if g.closing then true
  else if !decide (id < g.oldestId) then false
  else if timestamp = tsNone then true
  else g.pinnedTs ≠ tsNone && timestamp ≤ g.pinnedTs

lemma txnVisibleAll_iff {g : Global} {id timestamp : ℕ} (h : g.closing = false) :
    txnVisibleAll g id timestamp = true ↔ id < g.oldestId ∧
      (timestamp = tsNone ∨ g.pinnedTs ≠ tsNone ∧ timestamp ≤ g.pinnedTs) := by
  rw [txnVisibleAll, h]
  by_cases hid : id < g.oldestId <;> by_cases hts : timestamp = tsNone <;> simp [hid, hts]

/-- `__wt_txn_upd_visible_all`. -/
def txnUpdVisibleAll (g : Global) (upd : Update) : Bool :=
  if upd.prepare = .locked ∨ upd.prepare = .inprogress then false
  else txnVisibleAll g upd.txnid upd.durableTs

/-- `__wt_txn_tw_stop_visible_all`. -/
def txnTwStopVisibleAll (g : Global) (tw : TimeWindow) : Bool :=
  tw.hasStop && !tw.prepare && txnVisibleAll g tw.stopTxn tw.durableStopTs

end WiredTiger
