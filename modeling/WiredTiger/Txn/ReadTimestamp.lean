/-
# Setting a read timestamp (`__wt_txn_set_read_timestamp`)

A transaction that is to read before the oldest timestamp may read down to the pinned one, the least
of the oldest timestamp and those that are read at.  To find it, the call passes the flags of the
transaction to a helper with flags of its own, for which the bits mean other things: whether the
oldest timestamp counts depends on whether the transaction has an id, and whether that of a
checkpoint does on whether it has failed.  The helper is told in the same word that the lock is
held, and the bit for that is cleared afterwards.  If it finds no timestamp, the lock is not
released.
-/
import WiredTiger.Txn.SetTimestamp

namespace WiredTiger

open List Function

/-! ### The pinned timestamp -/

/-- What the calls look at under the global lock.  A timestamp of `0` is not set. -/
structure TsTable where
  /-- `oldest_timestamp`, with `has_oldest_timestamp`. -/
  oldest : Option ℕ
  /-- `checkpoint_timestamp`. -/
  checkpoint : ℕ
  /-- What the sessions read at. -/
  reads : List ℕ

/-- The walk of `__wt_txn_get_pinned_timestamp`. -/
def pinnedWalk (ts : ℕ) (reads : List ℕ) : ℕ :=
  reads.foldl (fun ts readTs => if ts = 0 ∨ (readTs ≠ 0 ∧ readTs < ts) then readTs else ts) ts

/-- The bits `WT_TXN_TS_ALREADY_LOCKED`, `WT_TXN_TS_INCLUDE_CKPT` and `WT_TXN_TS_INCLUDE_OLDEST`. -/
def tsAlreadyLocked : Fin 32 := 0
def tsIncludeCkpt : Fin 32 := 1
def tsIncludeOldest : Fin 32 := 2

/-- `__wt_txn_get_pinned_timestamp`, with `none` for `WT_NOTFOUND`.  It releases the lock it takes,
if it takes one. -/
def txnGetPinnedTimestamp (g : TsTable) (flags : Fin 32 → Bool) : Option ℕ :=
  if flags tsIncludeOldest ∧ g.oldest = none then none
  else
    let ts := if flags tsIncludeOldest then g.oldest.getD 0 else 0
    let ts := if flags tsIncludeCkpt ∧ g.checkpoint ≠ 0 ∧ (ts = 0 ∨ g.checkpoint < ts) then
        g.checkpoint
      else ts
    let ts := pinnedWalk ts g.reads
    if flags tsIncludeOldest = false ∧ ts = 0 then none else some ts

/-! ### The call -/

/-- Bits of the flags of a transaction, `WT_TXN_*`. -/
def TxnFlag.autocommit : Fin 32 := 0
def TxnFlag.error : Fin 32 := 1
def TxnFlag.hasId : Fin 32 := 2
def TxnFlag.hasSnapshot : Fin 32 := 3
def TxnFlag.prepare : Fin 32 := 8
def TxnFlag.prepareIgnoreApiCheck : Fin 32 := 9
def TxnFlag.running : Fin 32 := 11
def TxnFlag.sharedTsRead : Fin 32 := 13
def TxnFlag.tsReadBeforeOldest : Fin 32 := 15
def TxnFlag.tsRoundRead : Fin 32 := 17

/-- A transaction with its session. -/
structure ReadTxn where
  flags : Fin 32 → Bool
  /-- The isolation is `WT_ISO_SNAPSHOT`. -/
  isoSnapshot : Bool
  readTimestamp : ℕ
  /-- How often the session holds the global lock for reading. -/
  readLocks : ℕ

/-- What the call returns. -/
inductive ReadRet
  | ok
  | notFound
  | error (e : TsError)
  deriving DecidableEq

namespace ReadTxn

/-- The end of the call, from the comparison of the timestamps on.  A running transaction gets a new
snapshot. -/
def publishRead (readTs tsOldest : ℕ) (x : ReadTxn) : ReadTxn × ReadRet :=
  let x := { x with readLocks := x.readLocks - 1 }
  if readTs < tsOldest ∧ x.flags TxnFlag.tsRoundRead = false then (x, .error .readOldest)
  else
    let flags := update x.flags TxnFlag.sharedTsRead true
    ({ x with
      readTimestamp := if readTs < tsOldest then tsOldest else readTs
      flags := if x.flags TxnFlag.running then update flags TxnFlag.hasSnapshot true else flags },
      .ok)

/-- `__wt_txn_set_read_timestamp`. -/
def txnSetReadTimestamp (g : TsTable) (readTs : ℕ) (x : ReadTxn) : ReadTxn × ReadRet :=
  if x.flags TxnFlag.prepareIgnoreApiCheck = false ∧ x.flags TxnFlag.prepare then
    (x, .error .prepared)
  else if x.flags TxnFlag.running ∧ x.isoSnapshot = false then (x, .error .readIsolation)
  else
    let x := { x with isoSnapshot := true }
    if x.flags TxnFlag.sharedTsRead then (x, .error .readOnce)
    else
      let x := { x with readLocks := x.readLocks + 1 }
      if x.flags TxnFlag.tsReadBeforeOldest then
        let locked := update x.flags tsAlreadyLocked true
        let x := { x with flags := update locked tsAlreadyLocked false }
        match txnGetPinnedTimestamp g locked with
        | none => (x, .notFound)
        | some tsOldest => x.publishRead readTs tsOldest
      else x.publishRead readTs (g.oldest.getD 0)

end ReadTxn

/-! ### What the walk finds -/

/-- The timestamp is no earlier than the least of those that are set, if there is one. -/
def AtLeastPinned (t : ℕ) (l : List ℕ) : Prop := (∀ x ∈ l, x = 0) ∨ ∃ x ∈ l, x ≠ 0 ∧ x ≤ t

lemma pinnedWalk_le_iff (ts t : ℕ) (reads : List ℕ) :
    (pinnedWalk ts reads ≠ 0 ∧ pinnedWalk ts reads ≤ t) ↔
      (ts ≠ 0 ∧ ts ≤ t) ∨ ∃ x ∈ reads, x ≠ 0 ∧ x ≤ t := by
  induction reads generalizing ts with
  | nil => simp [pinnedWalk]
  | cons r reads ih =>
    rw [pinnedWalk, foldl_cons]
    refine (ih _).trans ?_
    simp only [mem_cons, exists_eq_or_imp, ← or_assoc]
    refine or_congr_left ?_
    split_ifs <;> omega

lemma pinnedWalk_zero (l : List ℕ) :
    (pinnedWalk 0 l = 0 ↔ ∀ x ∈ l, x = 0) ∧ ∀ t, pinnedWalk 0 l ≤ t ↔ AtLeastPinned t l := by
  have h : ∀ t, (pinnedWalk 0 l ≠ 0 ∧ pinnedWalk 0 l ≤ t) ↔ ∃ x ∈ l, x ≠ 0 ∧ x ≤ t := by
    intro t
    simpa using pinnedWalk_le_iff 0 t l
  have hzero : pinnedWalk 0 l = 0 ↔ ∀ x ∈ l, x = 0 := by
    constructor
    · intro hp x hx
      by_contra hne
      exact ((h x).mpr ⟨x, hx, hne, Nat.le_refl x⟩).1 hp
    · intro hall
      by_contra hp
      obtain ⟨x, hx, hne, -⟩ := (h _).mp ⟨hp, Nat.le_refl _⟩
      exact hne (hall x hx)
  refine ⟨hzero, fun t => ?_⟩
  rw [AtLeastPinned, ← hzero, ← h t]
  omega

namespace TsTable

/-- The timestamps that make up the pinned one. -/
def pinning (g : TsTable) : List ℕ := g.oldest.toList ++ g.reads

/-- The timestamps that the helper takes into account. -/
def considered (g : TsTable) (flags : Fin 32 → Bool) : List ℕ :=
  (if flags tsIncludeOldest then g.oldest.toList else []) ++
    (if flags tsIncludeCkpt then [g.checkpoint] else []) ++ g.reads

/-- There is a timestamp for the helper to return. -/
def Finds (g : TsTable) (flags : Fin 32 → Bool) : Prop :=
  if flags tsIncludeOldest then g.oldest ≠ none else ∃ t ∈ g.considered flags, t ≠ 0

/-- **The helper** finds the least of the timestamps it considers. -/
lemma getPinned_spec (g : TsTable) (flags : Fin 32 → Bool) :
    (txnGetPinnedTimestamp g flags = none ∧ ¬g.Finds flags) ∨
    ∃ ts, txnGetPinnedTimestamp g flags = some ts ∧ g.Finds flags ∧
      ∀ t, ts ≤ t ↔ AtLeastPinned t (g.considered flags) := by
  have hckpt : ∀ ts c : ℕ, (if c ≠ 0 ∧ (ts = 0 ∨ c < ts) then c else ts) =
      if ts = 0 ∨ (c ≠ 0 ∧ c < ts) then c else ts := by
    intro ts c
    split_ifs <;> omega
  have hself : ∀ ts : ℕ, (if ts = 0 then 0 else ts) = ts := by
    intro ts
    split_ifs <;> omega
  -- the start, the checkpoint and the sessions are one walk
  have heq : txnGetPinnedTimestamp g flags =
      if flags tsIncludeOldest = true ∧ g.oldest = none ∨
        flags tsIncludeOldest = false ∧ pinnedWalk 0 (g.considered flags) = 0 then none
      else some (pinnedWalk 0 (g.considered flags)) := by
    unfold txnGetPinnedTimestamp considered pinnedWalk
    cases flags tsIncludeOldest <;> cases flags tsIncludeCkpt <;> cases g.oldest <;>
      simp [← hckpt, hself]
  obtain ⟨hzero, hle⟩ := pinnedWalk_zero (g.considered flags)
  unfold Finds
  split_ifs at heq with hnone
  · refine .inl ⟨heq, ?_⟩
    rcases hnone with ⟨hold, hnone⟩ | ⟨hold, hnone⟩
    · simp [hold, hnone]
    · simpa [hold] using hzero.mp hnone
  · refine .inr ⟨_, heq, ?_, hle⟩
    cases hold : flags tsIncludeOldest <;> simpa [hold, hzero] using hnone

end TsTable

/-! ### Reading before the oldest timestamp -/

namespace ReadTxn

variable (g : TsTable) (readTs : ℕ) (x : ReadTxn)

/-- The call gets to the timestamps. -/
def Admitted : Prop :=
  ¬(x.flags TxnFlag.prepareIgnoreApiCheck = false ∧ x.flags TxnFlag.prepare) ∧
    ¬(x.flags TxnFlag.running ∧ x.isoSnapshot = false) ∧ x.flags TxnFlag.sharedTsRead = false

/-- The call leaves the lock and the other flags alone, and accepts exactly the timestamps that are
no earlier than the pinned one. -/
structure ReadsBeforeOldest : Prop where
  locks : (x.txnSetReadTimestamp g readTs).1.readLocks = x.readLocks
  flags : ∀ b, b ≠ TxnFlag.sharedTsRead →
    (x.txnSetReadTimestamp g readTs).1.flags b = x.flags b
  accepts : x.Admitted → ((x.txnSetReadTimestamp g readTs).2 = .ok ∧
    (x.txnSetReadTimestamp g readTs).1.readTimestamp = readTs ↔ AtLeastPinned readTs g.pinning)

/-- The flags of the transaction are harmless as flags of the helper. -/
structure HelperAgrees : Prop where
  autocommit : x.flags TxnFlag.autocommit = false
  finds : g.Finds x.flags
  same : AtLeastPinned readTs (g.considered x.flags) ↔ AtLeastPinned readTs g.pinning
  /-- A new snapshot is not the first one. -/
  snapshot : x.flags TxnFlag.running = true ∧ (AtLeastPinned readTs (g.considered x.flags) ∨
    x.flags TxnFlag.tsRoundRead = true) → x.flags TxnFlag.hasSnapshot = true

lemma publishRead_spec (ts : ℕ) :
    (x.publishRead readTs ts).1.readLocks = x.readLocks - 1 ∧
    ((x.publishRead readTs ts).2 = .ok ∧ (x.publishRead readTs ts).1.readTimestamp = readTs ↔
      ts ≤ readTs) ∧
    ∀ b, b ≠ TxnFlag.sharedTsRead → (x.publishRead readTs ts).1.flags b =
      if b = TxnFlag.hasSnapshot ∧ x.flags TxnFlag.running = true ∧
        (ts ≤ readTs ∨ x.flags TxnFlag.tsRoundRead = true) then true else x.flags b := by
  unfold publishRead
  by_cases hok : ts ≤ readTs ∨ x.flags TxnFlag.tsRoundRead = true
  · have hgo : ¬(readTs < ts ∧ x.flags TxnFlag.tsRoundRead = false) := by
      rintro ⟨hlt, hno⟩
      exact hok.elim (Nat.not_le.mpr hlt) (by simp [hno])
    rw [if_neg hgo]
    refine ⟨rfl, ?_, fun b hb => ?_⟩
    · simp only [true_and]
      split_ifs <;> omega
    · cases hrun : x.flags TxnFlag.running <;> simp [hok, hb, update_apply]
  · obtain ⟨hlt, hno⟩ := not_or.mp hok
    rw [if_pos ⟨Nat.not_le.mp hlt, eq_false_of_ne_true hno⟩]
    simp [hlt, hno]

/-- A call that is refused before it takes the lock. -/
lemma of_not_admitted (h : ¬x.Admitted) :
    (x.txnSetReadTimestamp g readTs).1.readLocks = x.readLocks ∧
      (x.txnSetReadTimestamp g readTs).1.flags = x.flags := by
  unfold txnSetReadTimestamp
  dsimp only
  split_ifs with hprepared hiso honce
  · exact ⟨rfl, rfl⟩
  · exact ⟨rfl, rfl⟩
  · exact ⟨rfl, rfl⟩
  all_goals exact absurd ⟨hprepared, hiso, eq_false_of_ne_true honce⟩ h

/-- The transaction with the lock, after the helper has returned. -/
def asked : ReadTxn :=
  ⟨update x.flags tsAlreadyLocked false, true, x.readTimestamp, x.readLocks + 1⟩

lemma of_admitted (h : x.Admitted) (hflag : x.flags TxnFlag.tsReadBeforeOldest = true) :
    x.txnSetReadTimestamp g readTs =
      match txnGetPinnedTimestamp g (update x.flags tsAlreadyLocked true) with
      | none => (x.asked, .notFound)
      | some tsOldest => x.asked.publishRead readTs tsOldest := by
  unfold txnSetReadTimestamp
  rw [if_neg h.1, if_neg h.2.1]
  simp only [h.2.2, Bool.false_eq_true, if_false, hflag, if_true, update_idem]
  rfl

/-- **Reading before the oldest timestamp** works exactly if the flags of the transaction are
harmless as flags of the helper, whenever the call gets that far. -/
theorem readsBeforeOldest_iff (hflag : x.flags TxnFlag.tsReadBeforeOldest = true) :
    ReadsBeforeOldest g readTs x ↔ (x.Admitted → HelperAgrees g readTs x) := by
  by_cases hadm : x.Admitted
  swap
  · obtain ⟨hlocks, hflags⟩ := of_not_admitted g readTs x hadm
    exact iff_of_true ⟨hlocks, fun b _ => congrFun hflags b, fun h => absurd h hadm⟩
      fun h => absurd h hadm
  have hcall := of_admitted g readTs x hadm hflag
  rcases g.getPinned_spec (update x.flags tsAlreadyLocked true) with
    ⟨hts, hfinds⟩ | ⟨ts, hts, hfinds, hle⟩ <;> rw [hts] at hcall
  · -- the lock is still held
    refine iff_of_false (fun h => ?_) fun h => hfinds (h hadm).finds
    have hlocks := h.locks
    rw [hcall] at hlocks
    exact Nat.succ_ne_self _ hlocks
  · obtain ⟨hlocks, haccepts, hflags⟩ := publishRead_spec readTs x.asked ts
    dsimp only at hcall
    rw [← hcall] at hlocks haccepts hflags
    rw [hle] at haccepts
    constructor
    · intro h hadm
      refine ⟨?_, hfinds, haccepts.symm.trans (h.accepts hadm), fun hsnap => ?_⟩
      · rw [← h.flags TxnFlag.autocommit (by decide), hflags _ (by decide)]
        rfl
      · rw [← h.flags TxnFlag.hasSnapshot (by decide), hflags _ (by decide)]
        exact if_pos ⟨rfl, hsnap.1, hsnap.2.imp_left (hle readTs).mpr⟩
    · intro h
      obtain ⟨hauto, -, hsame, hsnap⟩ := h hadm
      refine ⟨hlocks, fun b hb => ?_, fun _ => haccepts.trans hsame⟩
      rw [hflags b hb]
      split_ifs with hb'
      · rw [hb'.1]
        exact (hsnap ⟨hb'.2.1, hb'.2.2.imp_left (hle readTs).mp⟩).symm
      · by_cases hzero : b = tsAlreadyLocked
        · rw [hzero]
          exact hauto.symm
        · exact update_of_ne hzero false x.flags

/-- A transaction that has begun, with these flags. -/
def begun (flags : List (Fin 32)) : ReadTxn := ⟨fun b => flags.contains b, true, 0, 0⟩

theorem readsBeforeOldest_iff_begun :
    ReadsBeforeOldest ⟨some 20, 0, [10]⟩ 12 (begun [2, 15]) ↔
      ((begun [2, 15]).Admitted → HelperAgrees ⟨some 20, 0, [10]⟩ 12 (begun [2, 15])) :=
  readsBeforeOldest_iff _ _ _ (by decide)

/-- Without an id and without another reader the call returns with the lock held. -/
theorem read_keeps_lock : ¬ ReadsBeforeOldest ⟨some 20, 0, [0]⟩ 25 (begun [15]) := by
  intro h
  exact absurd h.locks (by decide)

end ReadTxn

end WiredTiger
