/-
# The invariant of the global transaction state

The oldest id is no later than any id in the global table, and than the pinned id of any snapshot;
the pinned timestamp is no later than any timestamp that is read at, and than the oldest timestamp.
What a session does with its own entry keeps that.
-/
import WiredTiger.Txn.GlobalState
import WiredTiger.Txn.ReadTimestamp
import WiredTiger.Txn.SnapshotInv

namespace WiredTiger

open Lib List Option

/-! ### The invariant -/

/-- All that a snapshot does not see is at or behind `p`, but for checkpoints. -/
structure Pins (checkpointIds : List ℕ) (p : ℕ) (s : Snapshot) : Prop where
  le_max : p ≤ s.snapMax
  le_ids : ∀ id ∈ s.ids, p ≤ id ∨ id ∈ checkpointIds

lemma Pins.mono {ids ids' : List ℕ} {p : ℕ} {s : Snapshot} (h : Pins ids p s)
    (hids : ∀ id ∈ ids, id ∈ ids') : Pins ids' p s :=
  ⟨h.le_max, fun id hid => (h.le_ids id hid).imp_right (hids id)⟩

/-- What holds of the global values. -/
structure TxnCore.Inv (c : TxnCore) : Prop where
  oldest_pos : 0 < c.oldestId
  oldest_le : c.oldestId ≤ c.current
  current_le : c.current ≤ txnAborted
  ordered : c.ts.Ordered
  oldestTs_pos : ∀ o ∈ c.ts.oldest, 0 < o
  pinned_le : ∀ p ∈ c.pinned, ∃ o ∈ c.ts.oldest, p ≤ o
  committed : ∀ u ∈ c.committed, u.startTs ≤ u.durableTs ∧ u.txnid ∉ c.checkpointIds ∧
    u.txnid < c.current
  checkpoint : c.checkpointShared.id ≠ txnNone → c.checkpointShared.id ∈ c.checkpointIds
  checkpoint_le : c.checkpointShared.pinnedId ≤ c.current
  checkpointIds_lt : ∀ id ∈ c.checkpointIds, id < c.current

/-- What holds of a session, at place `i` of the table. -/
structure SessionInv (c : TxnCore) (i : ℕ) (x : TxnSession) : Prop where
  tableId : x.shared.id ≠ txnNone → c.oldestId ≤ x.shared.id ∧ x.hasId = true ∧ x.id = x.shared.id
  ownId : x.hasId = true → x.id < c.current ∧ (∀ u ∈ c.committed, u.txnid ≠ x.id) ∧
    (c.checkpointId ≠ some i → x.id ∉ c.checkpointIds)
  pin : c.checkpointId ≠ some i → ∀ s, x.snap = some s → c.oldestId ≤ x.shared.pinnedId ∧
    Pins c.checkpointIds x.shared.pinnedId s ∧ 0 < s.snapMin ∧ s.snapMin ≤ x.shared.pinnedId ∧
    s.snapMax ≤ c.current
  checkpointPin : c.checkpointId = some i → ∀ s, x.snap = some s →
    c.checkpointShared.pinnedId ≠ txnNone ∧ Pins c.checkpointIds c.checkpointShared.pinnedId s
  checkpointBelow : c.checkpointId.isSome = true → c.checkpointShared.pinnedId ≠ txnNone →
    x.shared.id ≠ txnNone → c.checkpointShared.pinnedId ≤ x.shared.id
  read : x.shared.readTimestamp ≠ tsNone → ∀ p ∈ c.pinned, p ≤ x.shared.readTimestamp
  tsRead : x.sharedTsRead = true → x.shared.readTimestamp ≠ tsNone

/-- What holds of a session, at place `i` of the table, and another one. -/
structure PairInv (c : TxnCore) (i : ℕ) (x y : TxnSession) : Prop where
  uniq : x.hasId = true → y.hasId = true → x.id ≠ y.id
  below : c.checkpointId ≠ some i → x.snap.isSome = true → y.shared.id ≠ txnNone →
    x.shared.pinnedId ≤ y.shared.id

structure TxnGlobal.Inv (g : TxnGlobal) : Prop where
  core : g.toTxnCore.Inv
  session : ∀ i x, g.sessions[i]? = some x → SessionInv g.toTxnCore i x
  pair : ∀ i j x y, g.sessions[i]? = some x → g.sessions[j]? = some y → i ≠ j →
    PairInv g.toTxnCore i x y

lemma TxnGlobal.inv_init : TxnGlobal.init.Inv where
  core := by
    refine ⟨by decide, by decide, by decide, ?_, ?_, ?_, ?_, ?_, by decide, ?_⟩
    · rintro o ⟨⟩
    · rintro o ⟨⟩
    · rintro p ⟨⟩
    · rintro u ⟨⟩
    · exact fun h => absurd rfl h
    · rintro id ⟨⟩
  session := by
    intro i x h
    simp [init] at h
  pair := by
    intro i j x y h
    simp [init] at h

namespace TxnGlobal

variable {g g' : TxnGlobal} {c : TxnCore} {i : ℕ} {x x' : TxnSession}

/-! ### The scans -/

/-- A walk that only makes a value smaller ends at or below what it has come by. -/
lemma foldl_descends {σ α : Type} {f : σ → α → σ} {m : σ → ℕ} {P : α → Prop} {v : α → ℕ}
    (hf : ∀ s a, m (f s a) ≤ m s ∧ (P a → m (f s a) ≤ v a)) (l : List α) (s : σ) :
    m (l.foldl f s) ≤ m s ∧ ∀ a ∈ l, P a → m (l.foldl f s) ≤ v a := by
  induction l generalizing s with
  | nil => simp
  | cons a l ih =>
    obtain ⟨hle, hl⟩ := ih (f s a)
    rw [foldl_cons]
    exact ⟨hle.trans (hf s a).1, forall_mem_cons.mpr ⟨fun h => hle.trans ((hf s a).2 h), hl⟩⟩

lemma le_foldl_min {ids : List ℕ} {m k : ℕ} (hm : k ≤ m) (hids : ∀ id ∈ ids, k ≤ id) :
    k ≤ ids.foldl min m := by
  induction ids generalizing m with
  | nil => exact hm
  | cons a ids ih =>
    rw [foldl_cons]
    exact ih (le_min hm (hids a mem_cons_self)) fun id hid =>
      hids id (mem_cons_of_mem _ hid)

/-- What the walk of a snapshot collects is in the table, with another session. -/
lemma mem_snapshotIds {id : ℕ} (h : id ∈ g.snapshotIds i) :
    g.oldestId ≤ id ∧ id < g.current ∧ id ≠ txnNone ∧
      ∃ j y, j ≠ i ∧ g.sessions[j]? = some y ∧ y.shared.id = id := by
  unfold snapshotIds at h
  split_ifs at h with heq
  · simp at h
  obtain ⟨y, hy, hid⟩ := mem_filterMap.mp h
  split_ifs at hid with hcond
  cases hid
  obtain ⟨j, hj, hne⟩ := mem_eraseIdx_iff_getElem?.mp hy
  exact ⟨hcond.2.1, hcond.2.2, hcond.1, j, y, hj, hne, rfl⟩

/-- The walk of a snapshot finds all ids in the table. -/
lemma mem_snapshotIds_of_table (hg : g.Inv) {j : ℕ} {y : TxnSession} (hj : j ≠ i)
    (hy : g.sessions[j]? = some y) (hid : y.shared.id ≠ txnNone) :
    y.shared.id ∈ g.snapshotIds i := by
  obtain ⟨hle, hhas, heq⟩ := (hg.session j y hy).tableId hid
  have hlt := ((hg.session j y hy).ownId hhas).1
  rw [heq] at hlt
  unfold snapshotIds
  rw [if_neg (by omega)]
  refine mem_filterMap.mpr ⟨y, mem_eraseIdx_iff_getElem?.mpr ⟨j, hj, hy⟩, ?_⟩
  rw [if_pos ⟨hid, hle, hlt⟩]

/-- The oldest id that is scanned is no later than what the table holds. -/
lemma oldestScan_le (g : TxnGlobal) :
    g.oldestScan.oldestId ≤ g.current ∧ ∀ x ∈ g.sessions,
      (x.shared.pinnedId ≠ txnNone → g.oldestScan.oldestId ≤ x.shared.pinnedId) ∧
      (x.shared.id ≠ txnNone → g.oldestId ≤ x.shared.id →
        g.oldestScan.oldestId ≤ x.shared.id) := by
  have hpinned : ∀ (r : OldestScan) (x : TxnSession),
      (oldestScanSession g.oldestId r x).oldestId ≤ r.oldestId ∧ (x.shared.pinnedId ≠ txnNone →
        (oldestScanSession g.oldestId r x).oldestId ≤ x.shared.pinnedId) := by
    intro r x
    unfold oldestScanSession
    dsimp only
    split_ifs <;> omega
  have hrunning : ∀ (r : OldestScan) (x : TxnSession),
      (oldestScanSession g.oldestId r x).lastRunning ≤ r.lastRunning ∧
        (x.shared.id ≠ txnNone ∧ g.oldestId ≤ x.shared.id →
          (oldestScanSession g.oldestId r x).lastRunning ≤ x.shared.id) := by
    intro r x
    unfold oldestScanSession
    dsimp only
    split_ifs <;> omega
  have hold := foldl_descends hpinned g.sessions ⟨g.current, g.current,
    if g.checkpointShared.id = txnNone then g.current else g.checkpointShared.id⟩
  have hrun := foldl_descends hrunning g.sessions ⟨g.current, g.current,
    if g.checkpointShared.id = txnNone then g.current else g.checkpointShared.id⟩
  unfold oldestScan
  dsimp only at hold hrun ⊢
  split_ifs at * with h1 h2
  all_goals
    refine ⟨by omega, fun x hx => ⟨fun hne => ?_, fun hne hle => ?_⟩⟩
    · have := hold.2 x hx hne
      omega
    · have := hrun.2 x hx ⟨hne, hle⟩
      omega

/-- The walk for the pinned timestamp, from one that is set, stays set and is no later than any
timestamp that is read at. -/
lemma foldl_pinnedTimestamp_le (xs : List TxnSession) {ts : ℕ} (hts : 0 < ts) :
    0 < xs.foldl pinnedTimestampSession ts ∧ xs.foldl pinnedTimestampSession ts ≤ ts ∧
      ∀ x ∈ xs, x.shared.readTimestamp ≠ tsNone →
        xs.foldl pinnedTimestampSession ts ≤ x.shared.readTimestamp := by
  have hwalk : xs.foldl pinnedTimestampSession ts =
      pinnedWalk ts (xs.map fun x => x.shared.readTimestamp) := by
    rw [pinnedWalk, foldl_map]
    rfl
  rw [hwalk]
  obtain ⟨hne, hle⟩ := (pinnedWalk_le_iff ts ts _).mpr (.inl ⟨hts.ne', le_rfl⟩)
  refine ⟨Nat.pos_of_ne_zero hne, hle, fun x hx hset => ?_⟩
  exact ((pinnedWalk_le_iff ts _ _).mpr (.inr ⟨_, mem_map_of_mem hx, hset, le_rfl⟩)).2

/-! ### Changes of one session -/

/-- The session may stand at place `i` of the table. -/
structure SessionOk (g : TxnGlobal) (i : ℕ) (x : TxnSession) : Prop where
  inv : SessionInv g.toTxnCore i x
  pair : ∀ j y, j ≠ i → g.sessions[j]? = some y →
    PairInv g.toTxnCore i x y ∧ PairInv g.toTxnCore j y x

lemma Inv.sessionOk (hg : g.Inv) (hi : g.sessions[i]? = some x) : SessionOk g i x where
  inv := hg.session i x hi
  pair j y hj hy := ⟨hg.pair i j x y hi hy hj.symm, hg.pair j i y x hy hi hj⟩

lemma getElem?_set_cases {j : ℕ} {y : TxnSession} (h : (g.sessions.set i x')[j]? = some y) :
    (j = i ∧ y = x') ∨ (j ≠ i ∧ g.sessions[j]? = some y) := by
  rcases eq_or_ne j i with rfl | hj
  · rw [getElem?_set_self'] at h
    obtain ⟨z, -, hz⟩ := map_eq_some_iff.mp h
    exact .inl ⟨rfl, hz.symm⟩
  · rw [getElem?_set_ne hj.symm] at h
    exact .inr ⟨hj, h⟩

/-- A session is replaced, and the global values change. -/
lemma Inv.replace (hg : g.Inv) (hc : c.Inv) (hx : SessionInv c i x')
    (hother : ∀ j y, j ≠ i → g.sessions[j]? = some y → SessionInv c j y)
    (hpair : ∀ j y, j ≠ i → g.sessions[j]? = some y → PairInv c i x' y ∧ PairInv c j y x')
    (hck : ∀ j, j ≠ i → c.checkpointId ≠ some j → g.checkpointId ≠ some j) :
    Inv { g.setSession i x' with toTxnCore := c } where
  core := hc
  session := by
    intro j y hy
    rcases getElem?_set_cases hy with ⟨rfl, rfl⟩ | ⟨hj, hy'⟩
    · exact hx
    · exact hother j y hj hy'
  pair := by
    intro j k y z hy hz hjk
    rcases getElem?_set_cases hy with ⟨rfl, rfl⟩ | ⟨hj, hy'⟩
    · rcases getElem?_set_cases hz with ⟨rfl, rfl⟩ | ⟨hk, hz'⟩
      · exact absurd rfl hjk
      · exact (hpair k z hk hz').1
    · rcases getElem?_set_cases hz with ⟨rfl, rfl⟩ | ⟨hk, hz'⟩
      · exact (hpair j y hj hy').2
      · have h := hg.pair j k y z hy' hz' hjk
        exact ⟨h.uniq, fun hne => h.below (hck j hj hne)⟩

lemma Inv.setSession (hg : g.Inv) (hx : SessionOk g i x') : (g.setSession i x').Inv :=
  hg.replace hg.core hx.inv (fun j y _ => hg.session j y) hx.pair fun _ _ hj => hj

/-- A change that gives up ids, the snapshot or the read timestamp, or keeps them. -/
structure Quiet (x x' : TxnSession) : Prop where
  tableId : x'.shared.id ≠ txnNone → x'.shared.id = x.shared.id ∧ x'.hasId = x.hasId
  ownId : x'.hasId = true → x.hasId = true ∧ x'.id = x.id
  snap : x'.snap.isSome = true → x'.snap = x.snap ∧ x'.shared.pinnedId = x.shared.pinnedId
  read : x'.shared.readTimestamp ≠ tsNone → x'.shared.readTimestamp = x.shared.readTimestamp
  tsRead : x'.sharedTsRead = true → x'.shared.readTimestamp ≠ tsNone

lemma SessionOk.quiet (h : SessionOk g i x) (hq : Quiet x x') : SessionOk g i x' where
  inv := by
    have hsome : ∀ s, x'.snap = some s → x.snap = some s ∧
        x'.shared.pinnedId = x.shared.pinnedId := by
      intro s hs
      obtain ⟨heq, hpin⟩ := hq.snap (by simp [hs])
      exact ⟨heq ▸ hs, hpin⟩
    refine ⟨fun hid => ?_, fun hhas => ?_, fun hc s hs => ?_, fun hc s hs => ?_,
      fun hc hp hid => ?_, fun hr => ?_, hq.tsRead⟩
    · obtain ⟨heq, hhas⟩ := hq.tableId hid
      obtain ⟨hle, hown, hid'⟩ := h.inv.tableId (heq ▸ hid)
      have hown' : x'.hasId = true := hhas.trans hown
      exact ⟨heq ▸ hle, hown', (hq.ownId hown').2.trans (hid'.trans heq.symm)⟩
    · obtain ⟨hown, heq⟩ := hq.ownId hhas
      rw [heq]
      exact h.inv.ownId hown
    · obtain ⟨hs', hpin⟩ := hsome s hs
      rw [hpin]
      exact h.inv.pin hc s hs'
    · exact h.inv.checkpointPin hc s (hsome s hs).1
    · have heq := (hq.tableId hid).1
      rw [heq] at hid ⊢
      exact h.inv.checkpointBelow hc hp hid
    · have heq := hq.read hr
      rw [heq] at hr ⊢
      exact h.inv.read hr
  pair := by
    intro j y hj hy
    obtain ⟨hxy, hyx⟩ := h.pair j y hj hy
    refine ⟨⟨fun hx' hy' => ?_, fun hc hs hid => ?_⟩, ⟨fun hy' hx' => ?_, fun hc hs hid => ?_⟩⟩
    · obtain ⟨hx, heq⟩ := hq.ownId hx'
      rw [heq]
      exact hxy.uniq hx hy'
    · obtain ⟨heq, hpin⟩ := hq.snap hs
      rw [hpin]
      exact hxy.below hc (heq ▸ hs) hid
    · obtain ⟨hx, heq⟩ := hq.ownId hx'
      rw [heq]
      exact hyx.uniq hy' hx
    · have heq := (hq.tableId hid).1
      rw [heq] at hid ⊢
      exact hyx.below hc hs hid

/-- What does not touch the entry, nor the ids and the snapshot. -/
lemma Quiet.of_eq (h : SessionOk g i x) (hshared : x'.shared = x.shared) (hhas : x'.hasId = x.hasId)
    (hid : x'.id = x.id) (hsnap : x'.snap = x.snap) (hts : x'.sharedTsRead = x.sharedTsRead) :
    Quiet x x' where
  tableId _ := ⟨by rw [hshared], hhas⟩
  ownId h' := ⟨hhas ▸ h', hid⟩
  snap _ := ⟨hsnap, by rw [hshared]⟩
  read _ := by rw [hshared]
  tsRead h' := by
    rw [hshared]
    exact h.inv.tsRead (hts ▸ h')

lemma quiet_releaseSnapshot (h : SessionOk g i x) : Quiet x (releaseSnapshot x) where
  tableId _ := ⟨rfl, rfl⟩
  ownId h' := ⟨h', rfl⟩
  snap h' := by simp [releaseSnapshot] at h'
  read _ := rfl
  tsRead h' := h.inv.tsRead h'

lemma quiet_txnRelease : Quiet x (txnRelease x) where
  tableId h' := absurd rfl h'
  ownId h' := by simp [txnRelease] at h'
  snap h' := by simp [txnRelease, releaseSnapshot] at h'
  read h' := absurd rfl h'
  tsRead h' := by simp [txnRelease] at h'

lemma sortSnapshot_min_pos {ids : List ℕ} {m : ℕ} (hm : 0 < m) (hids : ∀ id ∈ ids, id ≠ txnNone) :
    0 < (sortSnapshot ids m).snapMin := by
  unfold sortSnapshot
  dsimp only
  split
  · next id hid =>
    have hmem : id ∈ ids := (mem_insertionSort _).mp (mem_of_mem_head? hid)
    have := Nat.pos_of_ne_zero (hids id hmem)
    split_ifs <;> omega
  · exact hm

/-- The walk of a snapshot pins what it collects. -/
lemma pins_getSnapshot (hg : g.Inv) {p : ℕ} (hp : p ≤ g.current)
    (hids : ∀ id ∈ g.snapshotIds i, p ≤ id) :
    Pins g.checkpointIds p
      (sortSnapshot (g.checkpointSnapshotId x ++ g.snapshotIds i) g.current) where
  le_max := hp
  le_ids := by
    intro id hid
    rw [mem_sortSnapshot_ids] at hid
    rcases mem_append.mp hid with hid | hid
    · unfold checkpointSnapshotId at hid
      split_ifs at hid with hck
      · obtain rfl := mem_singleton.mp hid
        exact .inr (hg.core.checkpoint hck.1)
      · simp at hid
    · exact .inl (hids id hid)

lemma publishReadTimestamp_eq_some {readTs : ℕ} {round : Bool}
    (h : g.publishReadTimestamp readTs round x = some x') :
    readTs ≠ 0 ∧ x' = { x with
      isolation := .snapshot
      sharedTsRead := true
      shared := { x.shared with
        readTimestamp :=
          if readTs < g.ts.oldest.getD 0 then g.ts.oldest.getD 0 else readTs } } := by
  obtain ⟨h1, h⟩ := ite_none_left_eq_some.mp h
  obtain ⟨-, h⟩ := ite_none_left_eq_some.mp h
  exact ⟨fun h0 => h1 (.inl h0), (some.inj h).symm⟩

/-- A timestamp to read at is no earlier than the oldest one, and so than the pinned one. -/
lemma SessionOk.publishRead (hg : g.Inv) (h : SessionOk g i x) {readTs : ℕ} {round : Bool}
    (hx' : g.publishReadTimestamp readTs round x = some x') : SessionOk g i x' := by
  obtain ⟨hpos, rfl⟩ := publishReadTimestamp_eq_some hx'
  have hge : ∀ r, r = (if readTs < g.ts.oldest.getD 0 then g.ts.oldest.getD 0 else readTs) →
      g.ts.oldest.getD 0 ≤ r ∧ r ≠ 0 := by
    intro r hr
    split_ifs at hr <;> omega
  refine ⟨{ h.inv with read := fun _ p hp => ?_, tsRead := fun _ => (hge _ rfl).2 },
    fun j y hj hy => ?_⟩
  · obtain ⟨o, ho, hpo⟩ := hg.core.pinned_le p hp
    have : g.ts.oldest.getD 0 = o := by rw [mem_def.mp ho]; rfl
    exact hpo.trans (this ▸ (hge _ rfl).1)
  · obtain ⟨hxy, hyx⟩ := h.pair j y hj hy
    exact ⟨{ hxy with }, { hyx with }⟩

section SessionOp

variable (hg : g.Inv) (hi : g.checkpointId ≠ some i) (h : SessionOk g i x)
include hg hi h

/-- A session that is not one of a checkpoint may take a snapshot. -/
lemma SessionOk.getSnapshot : SessionOk g i (g.getSnapshotInt true i x) := by
  obtain ⟨hpcur, hpids⟩ := @foldl_descends _ _ min id (fun _ => True) id
    (fun s a => ⟨min_le_left s a, fun _ => min_le_right s a⟩) (g.snapshotIds i) g.current
  simp only [true_imp_iff, id] at hpcur hpids
  have hold : g.oldestId ≤ (g.snapshotIds i).foldl min g.current :=
    le_foldl_min hg.core.oldest_le fun id hid => (mem_snapshotIds hid).1
  have hne : ∀ id ∈ g.checkpointSnapshotId x ++ g.snapshotIds i, id ≠ txnNone := by
    intro id hid
    rcases mem_append.mp hid with hid | hid
    · unfold checkpointSnapshotId at hid
      split_ifs at hid with hck
      · obtain rfl := mem_singleton.mp hid
        exact hck.1
      · simp at hid
    · exact (mem_snapshotIds hid).2.2.1
  have hcur : 0 < g.current := lt_of_lt_of_le hg.core.oldest_pos hg.core.oldest_le
  -- the least of the snapshot is at most the pinned id, which is one of its ids or its bound
  have hmin : (sortSnapshot (g.checkpointSnapshotId x ++ g.snapshotIds i) g.current).snapMin ≤
      (g.snapshotIds i).foldl min g.current := by
    refine le_foldl_min sortSnapshot_min_le fun id hid => ?_
    refine (sortSnapshot _ g.current).min_le id (mem_sortSnapshot_ids.mpr ?_)
    exact mem_append_right _ hid
  refine ⟨{ h.inv with pin := fun _ s hs => ?_, checkpointPin := fun hc => absurd hc hi },
    fun j y hj hy => ?_⟩
  · cases hs
    exact ⟨hold, pins_getSnapshot hg hpcur hpids, sortSnapshot_min_pos hcur hne, hmin, le_rfl⟩
  · obtain ⟨hxy, hyx⟩ := h.pair j y hj hy
    refine ⟨{ hxy with below := fun _ _ hid => ?_ }, { hyx with }⟩
    exact hpids _ (mem_snapshotIds_of_table hg hj hy hid)

lemma SessionOk.setRead {readTs : ℕ} {round : Bool}
    (hx' : g.setReadTimestamp i readTs round x = some x') : SessionOk g i x' := by
  obtain ⟨x₁, hx₁, rfl⟩ := map_eq_some_iff.mp hx'
  have h₁ := h.publishRead hg hx₁
  split_ifs
  · exact h₁.getSnapshot hg hi
  · exact h₁

lemma SessionOk.begin {isolation : Isolation} {autocommit : Bool} {read : Option (ℕ × Bool)}
    (hx' : g.txnBegin i isolation autocommit read x = some x') : SessionOk g i x' := by
  unfold txnBegin at hx'
  split_ifs at hx' with hrun
  obtain ⟨x₁, hx₁, rfl⟩ := map_eq_some_iff.mp hx'
  have h₀ : SessionOk g i { x with isolation := isolation } :=
    h.quiet (.of_eq h rfl rfl rfl rfl rfl)
  have h₁ : SessionOk g i x₁ := by
    cases read with
    | none =>
      cases hx₁
      exact h₀
    | some r => exact h₀.setRead hg hi hx₁
  split_ifs
  · have h₂ := h₁.getSnapshot hg hi
    exact h₂.quiet (.of_eq h₂ rfl rfl rfl rfl rfl)
  · exact h₁.quiet (.of_eq h₁ rfl rfl rfl rfl rfl)

lemma SessionOk.cursorOp : SessionOk g i (g.txnCursorOp i x) := by
  rw [txnCursorOp]
  by_cases hiso : x.isolation = .readUncommitted
  · rw [if_pos hiso]
    refine h.quiet ⟨fun _ => ⟨rfl, rfl⟩, fun h' => ⟨h', rfl⟩, fun h' => ⟨rfl, ?_⟩, fun _ => rfl,
      h.inv.tsRead⟩
    -- a snapshot has its pinned id
    obtain ⟨s, hs⟩ := isSome_iff_exists.mp h'
    have hpin := (h.inv.pin hi s hs).1
    have := hg.core.oldest_pos
    have hne : x.shared.pinnedId ≠ txnNone := by unfold txnNone; omega
    exact if_neg hne
  · rw [if_neg hiso]
    split_ifs
    · exact h.getSnapshot hg hi
    · exact h

/-- What a session does keeps the invariant. -/
lemma SessionOk.sessionOp {op : SessionOp} (hx' : g.sessionOp i x op = some x') :
    SessionOk g i x' := by
  cases op <;> simp only [TxnGlobal.sessionOp] at hx'
  case reconfigure isolation =>
    split_ifs at hx'
    cases hx'
    exact h.quiet (.of_eq h rfl rfl rfl rfl rfl)
  case begin isolation autocommit read => exact h.begin hg hi hx'
  case setReadTimestamp readTs round => exact h.setRead hg hi hx'
  case cursorOp =>
    split_ifs at hx'
    cases hx'
    exact h.cursorOp hg hi
  case readLast =>
    split_ifs at hx'
    · cases hx'
      exact h.quiet (quiet_releaseSnapshot h)
    · cases hx'
      exact h
  case resetSnapshot =>
    split_ifs at hx'
    cases hx'
    exact (h.quiet (quiet_releaseSnapshot h)).getSnapshot hg hi
  case prepare =>
    split_ifs at hx'
    cases hx'
    have h₁ := h.quiet (quiet_releaseSnapshot h)
    refine h₁.quiet ⟨fun h' => absurd rfl h', fun h' => ⟨h', rfl⟩, fun h' => ⟨rfl, rfl⟩,
      fun _ => rfl, h₁.inv.tsRead⟩
  case rollback =>
    split_ifs at hx'
    cases hx'
    exact h.quiet quiet_txnRelease

end SessionOp

end TxnGlobal

end WiredTiger
