/-
# The steps of the global transaction state

The steps that move the global values forward, ids, commits and checkpoints keep the invariant of
the global transaction state.
-/
import WiredTiger.Txn.GlobalInv

namespace WiredTiger

open Lib List Option

namespace TxnGlobal

variable {g g' : TxnGlobal} {i : ℕ} {x x' : TxnSession}

/-! ### What the steps do -/

/-- The pinned timestamp is the one that is scanned, or stays. -/
lemma updatePinnedTimestamp_cases (g : TxnGlobal) :
    g.updatePinnedTimestamp = g ∨ ∃ ts b, g.getPinnedTimestamp = some ts ∧
      (∀ last ∈ g.pinned, last ≤ ts) ∧
      g.updatePinnedTimestamp = { g with pinned := some ts, oldestIsPinned := b } := by
  unfold updatePinnedTimestamp
  split_ifs
  · exact .inl rfl
  split
  · exact .inl rfl
  · next ts hts =>
    split
    · next hnone => exact .inr ⟨ts, _, hts, by simp [hnone], rfl⟩
    · next last hlast =>
      split_ifs with hle
      · exact .inl rfl
      · exact .inr ⟨ts, _, hts, by simpa [hlast] using (not_le.mp hle).le, rfl⟩

/-- The oldest id is the one that is scanned, or stays. -/
lemma updateOldest_cases (g : TxnGlobal) (strict : Bool) :
    ∃ g₁, (g₁ = g ∨ g₁ = g.updatePinnedTimestamp) ∧ (g.updateOldest strict = g₁ ∨
      ∃ o l m, g₁.oldestId ≤ o ∧ (o = g₁.oldestId ∨ o = g₁.oldestScan.oldestId) ∧
        g.updateOldest strict =
          { g₁ with oldestId := o, lastRunning := l, metadataPinned := m }) := by
  refine ⟨if strict then g.updatePinnedTimestamp else g, by split_ifs <;> simp, ?_⟩
  unfold updateOldest
  generalize (if strict then g.updatePinnedTimestamp else g) = g₁
  dsimp only
  split
  · exact .inl rfl
  split
  · exact .inl rfl
  refine .inr ⟨_, _, _, ?_, ?_, rfl⟩
  · split_ifs with h
    · exact h.le
    · exact le_rfl
  · split_ifs
    · exact .inr rfl
    · exact .inl rfl

/-- The oldest timestamp that is stored is a new one that is not zero, or the one before. -/
lemma storeGlobalTimestamp_oldest_pos {t c p : GlobalTs} (ht : ∀ o ∈ t.oldest, 0 < o)
    (h : beginGlobalSetTimestamp false t c = .ok (some p)) :
    ∀ o ∈ (storeGlobalTimestamp false t p).oldest, 0 < o := by
  obtain ⟨-, -, hne⟩ := of_beginGlobalSetTimestamp h
  intro o ho
  rcases (moveForward_spec p.oldest t.oldest).2.2 with heq | heq
  · refine pos_of_ne_zero ?_
    rintro rfl
    exact hne (heq.symm.trans ho)
  · exact ht o (heq ▸ ho)

lemma ordinary_eq_some (h : g.ordinary i = some x) :
    g.checkpointId ≠ some i ∧ g.sessions[i]? = some x := by
  unfold ordinary at h
  split_ifs at h with hck
  exact ⟨hck, h⟩

lemma checkpointPrepare_eq_some {useTimestamp : Bool}
    (h : g.checkpointPrepare i x useTimestamp = some g') :
    ∃ snap, x.snap = some snap ∧ g.checkpointId = none ∧ x.shared.id ≠ txnNone ∧
      x.sharedTsRead = false ∧
      g' = { g.setSession i { x with
          shared := ⟨txnNone, txnNone, txnNone,
            if useTimestamp then x.shared.readTimestamp else tsNone⟩ } with
        checkpointId := some i
        checkpointShared := { x.shared with pinnedId := snap.snapMin }
        checkpointTs := if useTimestamp then g.ts.stable.getD g.checkpointTs else g.checkpointTs
        checkpointIds := x.shared.id :: g.checkpointIds } := by
  rw [TxnGlobal.checkpointPrepare] at h
  split at h
  · cases h
  · next snap hsnap =>
    obtain ⟨hcond, h⟩ := ite_none_right_eq_some.mp h
    exact ⟨snap, hsnap, isNone_iff_eq_none.mp hcond.1, hcond.2.2.1,
      by simpa using hcond.2.2.2, (some.inj h).symm⟩

variable (hg : g.Inv)
include hg

/-! ### Steps that move the global values -/

/-- A change of the global values that sessions do not notice. -/
lemma Inv.setCore {c : TxnCore} (hc : c.Inv)
    (hsession : ∀ i x, SessionInv g.toTxnCore i x → g.sessions[i]? = some x → SessionInv c i x)
    (hck : ∀ i, c.checkpointId ≠ some i → g.checkpointId ≠ some i) :
    Inv { g with toTxnCore := c } where
  core := hc
  session i x hx := hsession i x (hg.session i x hx) hx
  pair i j x y hx hy hij := by
    have h := hg.pair i j x y hx hy hij
    exact ⟨h.uniq, fun hi => h.below (hck i hi)⟩

/-- The timestamp that is scanned is a lower bound. -/
lemma inv_updatePinnedTimestamp : g.updatePinnedTimestamp.Inv := by
  obtain heq | ⟨ts, b, hts, -, heq⟩ := g.updatePinnedTimestamp_cases
  · rwa [heq]
  rw [heq]
  obtain ⟨o, ho, rfl⟩ := map_eq_some_iff.mp hts
  obtain ⟨hpos, hle, hread⟩ := foldl_pinnedTimestamp_le g.sessions (hg.core.oldestTs_pos o ho)
  refine hg.setCore (c := { g.toTxnCore with pinned := _, oldestIsPinned := b }) ?_ ?_
    fun i hi => hi
  · refine { hg.core with pinned_le := ?_ }
    rintro p ⟨⟩
    exact ⟨o, ho, hle⟩
  · intro i x hx hi
    refine { hx with read := ?_ }
    rintro hne p ⟨⟩
    exact hread x (mem_of_getElem? hi) hne

lemma inv_updateOldest (strict : Bool) : (g.updateOldest strict).Inv := by
  obtain ⟨g₁, hg₁, hcases⟩ := g.updateOldest_cases strict
  have hinv : g₁.Inv := by
    rcases hg₁ with rfl | rfl
    · exact hg
    · exact inv_updatePinnedTimestamp hg
  obtain heq | ⟨o, l, m, hge, ho, heq⟩ := hcases
  · rwa [heq]
  rw [heq]
  obtain ⟨hcur, hscan⟩ := g₁.oldestScan_le
  have hc := hinv.core
  have hmax : ∀ n, g₁.oldestId ≤ n → g₁.oldestScan.oldestId ≤ n → o ≤ n := by
    intro n h h'
    rcases ho with rfl | rfl <;> assumption
  refine hinv.setCore (c := { g₁.toTxnCore with
    oldestId := o, lastRunning := l, metadataPinned := m }) ?_ ?_ fun i hi => hi
  · exact { hc with
      oldest_pos := lt_of_lt_of_le hc.oldest_pos hge
      oldest_le := hmax _ hc.oldest_le hcur }
  · intro i x hx hi
    obtain ⟨hpin, hid⟩ := hscan x (mem_of_getElem? hi)
    refine { hx with tableId := fun hne => ?_, pin := fun hck s hs => ?_ }
    · obtain ⟨hle, hrest⟩ := hx.tableId hne
      exact ⟨hmax _ hle (hid hne hle), hrest⟩
    · obtain ⟨hle, hrest⟩ := hx.pin hck s hs
      exact ⟨hmax _ hle (hpin (lt_of_lt_of_le hc.oldest_pos hle).ne'), hrest⟩

lemma inv_setTimestamp {c p : GlobalTs} {b : Bool}
    (h : beginGlobalSetTimestamp false g.ts c = .ok (some p)) :
    Inv { g with ts := storeGlobalTimestamp false g.ts p, oldestIsPinned := b } := by
  have hc := hg.core
  refine hg.setCore
    (c := { g.toTxnCore with ts := storeGlobalTimestamp false g.ts p, oldestIsPinned := b }) ?_ ?_
    fun i hi => hi
  · refine { hc with
      ordered := ordered_store_of_begin h hc.ordered
      oldestTs_pos := storeGlobalTimestamp_oldest_pos hc.oldestTs_pos h
      pinned_le := fun q hq => ?_ }
    obtain ⟨o, ho, hqo⟩ := hc.pinned_le q hq
    obtain ⟨o', ho', hoo⟩ := (moveForward_spec p.oldest g.ts.oldest).1 o ho
    exact ⟨o', ho', hqo.trans hoo⟩
  · intro i x hx _
    exact { hx with }

/-! ### Ids and commits -/

section

variable (hx : g.sessions[i]? = some x)
include hx

lemma inv_txnIdCheck (hi : g.checkpointId ≠ some i) (h : g.txnIdCheck i x = some g') : g'.Inv := by
  obtain ⟨hcond, h⟩ := ite_none_right_eq_some.mp h
  cases h
  have hc := hg.core
  have hxi := hg.session i x hx
  have hsucc := Nat.lt_succ_self g.current
  have hkeep : ∀ (j : ℕ) (y : TxnSession), g.sessions[j]? = some y → y.hasId = true →
      y.id < g.current := fun j y hy h => ((hg.session j y hy).ownId h).1
  have hpin : ∀ (j : ℕ) (y : TxnSession), g.checkpointId ≠ some j → g.sessions[j]? = some y →
      y.snap.isSome = true → y.shared.pinnedId ≤ g.current := by
    intro j y hj hy hsome
    obtain ⟨s, hs⟩ := isSome_iff_exists.mp hsome
    obtain ⟨-, hp, -, -, hmax⟩ := (hg.session j y hy).pin hj s hs
    exact hp.le_max.trans hmax
  refine hg.replace (c := { g.toTxnCore with current := g.current + 1 }) ?_ ?_ ?_ ?_
    fun _ _ hj => hj
  · refine { hc with
      oldest_le := hc.oldest_le.trans hsucc.le
      current_le := hcond.2.2.2
      committed := fun u hu => ?_
      checkpoint_le := hc.checkpoint_le.trans hsucc.le
      checkpointIds_lt := fun id hid => (hc.checkpointIds_lt id hid).trans hsucc }
    obtain ⟨hts, hck, hlt⟩ := hc.committed u hu
    exact ⟨hts, hck, hlt.trans hsucc⟩
  · refine ⟨fun _ => ⟨hc.oldest_le, rfl, rfl⟩, fun _ => ⟨hsucc, fun u hu => ?_, fun _ hid => ?_⟩,
      fun _ s hs => ?_, fun hck => absurd hck hi, fun _ _ _ => hc.checkpoint_le, hxi.read,
      hxi.tsRead⟩
    · exact (hc.committed u hu).2.2.ne
    · exact lt_irrefl _ (hc.checkpointIds_lt _ hid)
    · obtain ⟨h1, h2, h3, h4, h5⟩ := hxi.pin hi s hs
      exact ⟨h1, h2, h3, h4, h5.trans hsucc.le⟩
  · intro j y _ hy
    have hyj := hg.session j y hy
    refine { hyj with ownId := fun hhas => ?_, pin := fun hj s hs => ?_ }
    · obtain ⟨hlt, hrest⟩ := hyj.ownId hhas
      exact ⟨hlt.trans hsucc, hrest⟩
    · obtain ⟨h1, h2, h3, h4, h5⟩ := hyj.pin hj s hs
      exact ⟨h1, h2, h3, h4, h5.trans hsucc.le⟩
  · intro j y hj hy
    refine ⟨⟨fun _ hhas => (hkeep j y hy hhas).ne', ?_⟩, ⟨fun hhas _ => (hkeep j y hy hhas).ne, ?_⟩⟩
    · exact (hg.pair i j x y hx hy hj.symm).below
    · intro hck hsome _
      exact hpin j y hck hy hsome

lemma inv_txnCommit (hi : g.checkpointId ≠ some i) {timestamps : List (ℕ × ℕ)}
    (h : g.txnCommit i x timestamps = some g') : g'.Inv := by
  obtain ⟨hcond, h⟩ := ite_none_right_eq_some.mp h
  cases h
  have hc := hg.core
  have hxi := hg.session i x hx
  have hnew : ∀ u ∈ timestamps.map (fun ts => (⟨x.id, ts.1, ts.2⟩ : CommittedUpdate)),
      x.hasId = true ∧ u.txnid = x.id ∧ u.startTs ≤ u.durableTs := by
    intro u hu
    obtain ⟨ts, hts, rfl⟩ := mem_map.mp hu
    refine ⟨hcond.2.1.resolve_right ?_, rfl, hcond.2.2 ts hts⟩
    rintro rfl
    simp at hts
  have hquiet := (hg.sessionOk hx).quiet (quiet_txnRelease (x := x))
  refine hg.replace (c := { g.toTxnCore with
    committed := timestamps.map (fun ts => ⟨x.id, ts.1, ts.2⟩) ++ g.committed }) ?_ ?_ ?_ ?_
    fun _ _ hj => hj
  · refine { hc with committed := fun u hu => ?_ }
    rcases mem_append.mp hu with hu | hu
    · obtain ⟨hhas, hid, hts⟩ := hnew u hu
      obtain ⟨hlt, -, hck⟩ := hxi.ownId hhas
      exact ⟨hts, hid ▸ hck hi, hid ▸ hlt⟩
    · exact hc.committed u hu
  · exact { hquiet.inv with ownId := fun hhas => by simp [txnRelease] at hhas }
  · intro j y hj hy
    have hyj := hg.session j y hy
    refine { hyj with ownId := fun hhas => ?_ }
    obtain ⟨hlt, hcom, hck⟩ := hyj.ownId hhas
    refine ⟨hlt, fun u hu => ?_, hck⟩
    rcases mem_append.mp hu with hu | hu
    · obtain ⟨hhas', hid, -⟩ := hnew u hu
      rw [hid]
      exact (hg.pair i j x y hx hy hj.symm).uniq hhas' hhas
    · exact hcom u hu
  · intro j y hj hy
    obtain ⟨hxy, hyx⟩ := hquiet.pair j y hj hy
    exact ⟨{ hxy with }, { hyx with }⟩

/-! ### Checkpoints -/

/-- The entry of a checkpoint leaves the table: its snapshot is pinned beside it, and what is in the
table is at or behind the pin. -/
lemma inv_checkpointPrepare {useTimestamp : Bool}
    (h : g.checkpointPrepare i x useTimestamp = some g') : g'.Inv := by
  obtain ⟨s, hsnap, hnone, hid, htsr, rfl⟩ := checkpointPrepare_eq_some h
  have hno : ∀ j, g.checkpointId ≠ some j := fun j => by simp [hnone]
  have hc := hg.core
  have hxi := hg.session i x hx
  obtain ⟨-, hhas, heq⟩ := hxi.tableId hid
  obtain ⟨hlt, hcom, -⟩ := hxi.ownId hhas
  obtain ⟨-, hpins, hpos, hmin, hmax⟩ := hxi.pin (hno i) s hsnap
  have hne : s.snapMin ≠ txnNone := hpos.ne'
  refine hg.replace (c := { g.toTxnCore with
      checkpointId := some i
      checkpointShared := { x.shared with pinnedId := s.snapMin }
      checkpointTs := _
      checkpointIds := x.shared.id :: g.checkpointIds }) ?_ ?_ ?_ ?_ fun j _ _ => hno j
  · refine { hc with
      committed := fun u hu => ?_
      checkpoint := fun _ => mem_cons_self
      checkpoint_le := hmin.trans (hpins.le_max.trans hmax)
      checkpointIds_lt := fun id hid => ?_ }
    · obtain ⟨hts, hck, hltu⟩ := hc.committed u hu
      refine ⟨hts, ?_, hltu⟩
      rw [mem_cons, not_or]
      exact ⟨heq ▸ hcom u hu, hck⟩
    · rcases mem_cons.mp hid with rfl | hid
      · exact heq ▸ hlt
      · exact hc.checkpointIds_lt id hid
  · refine ⟨fun h' => absurd rfl h', fun _ => ⟨hlt, hcom, fun h' => absurd rfl h'⟩,
      fun h' => absurd rfl h', fun _ s' hs' => ?_, fun _ _ h' => absurd rfl h', fun h' => ?_,
      fun h' => ?_⟩
    · obtain rfl := some.inj (hsnap.symm.trans hs')
      exact ⟨hne, hmin.trans hpins.le_max, fun id hid => .inl (s.min_le id hid)⟩
    · split_ifs at h' ⊢
      · exact hxi.read h'
      · exact absurd rfl h'
    · exact absurd (htsr.symm.trans h') Bool.false_ne_true
  · intro j y hj hy
    have hyj := hg.session j y hy
    refine { hyj with
      ownId := fun hhasy => ?_
      pin := fun _ s' hs' => ?_
      checkpointPin := fun h' => absurd (some.inj h') hj.symm
      checkpointBelow := fun _ _ hidy => ?_ }
    · obtain ⟨hlty, hcomy, hcky⟩ := hyj.ownId hhasy
      refine ⟨hlty, hcomy, fun _ => ?_⟩
      rw [mem_cons, not_or]
      exact ⟨heq ▸ (hg.pair j i y x hy hx hj).uniq hhasy hhas, hcky (hno j)⟩
    · obtain ⟨h1, h2, h3, h4, h5⟩ := hyj.pin (hno j) s' hs'
      exact ⟨h1, h2.mono fun id => mem_cons_of_mem _, h3, h4, h5⟩
    · exact hmin.trans ((hg.pair i j x y hx hy hj.symm).below (hno i) (by simp [hsnap]) hidy)
  · intro j y hj hy
    refine ⟨⟨(hg.pair i j x y hx hy hj.symm).uniq, fun h' => absurd rfl h'⟩,
      ⟨(hg.pair j i y x hy hx hj).uniq, fun _ _ h' => absurd rfl h'⟩⟩

lemma inv_checkpointOp (hi : g.checkpointId = some i) {op : CheckpointOp}
    (h : g.checkpointOp i x op = some g') : g'.Inv := by
  have hc := hg.core
  have hok := hg.sessionOk hx
  have hno : ∀ j, j ≠ i → g.checkpointId ≠ some j := by
    intro j hj h'
    exact hj (some.inj (h'.symm.trans hi))
  cases op with
  | bumpSnapshot =>
    simp only [TxnGlobal.checkpointOp] at h
    split_ifs at h with hsome
    cases h
    obtain ⟨s, hs⟩ := isSome_iff_exists.mp hsome
    obtain ⟨hne, -⟩ := hok.inv.checkpointPin hi s hs
    refine hg.setSession ⟨{ hok.inv with
      pin := fun h' => absurd hi h'
      checkpointPin := fun _ s' hs' => ⟨hne, ?_⟩ }, fun j y hj hy => ?_⟩
    · cases hs'
      refine pins_getSnapshot hg hc.checkpoint_le fun id hid => ?_
      obtain ⟨-, -, hidne, j, y, -, hy, rfl⟩ := mem_snapshotIds hid
      exact (hg.session j y hy).checkpointBelow (by simp [hi]) hne hidne
    · obtain ⟨hxy, hyx⟩ := hok.pair j y hj hy
      exact ⟨{ hxy with below := fun h' => absurd hi h' }, { hyx with }⟩
  | releaseSnapshot =>
    cases h
    have hquiet := hok.quiet (quiet_releaseSnapshot hok)
    refine hg.replace (c := { g.toTxnCore with
        checkpointShared := { g.checkpointShared with pinnedId := txnNone }
        checkpointTs := tsNone }) ?_ ?_ ?_ ?_ fun _ _ h' => h'
    · exact { hc with checkpoint_le := Nat.zero_le _ }
    · exact { hquiet.inv with
        checkpointPin := fun _ s hs => by cases hs
        checkpointBelow := fun _ h' => absurd rfl h' }
    · intro j y hj hy
      exact { hg.session j y hy with
        checkpointPin := fun h' => absurd h' (hno j hj)
        checkpointBelow := fun _ h' => absurd rfl h' }
    · intro j y hj hy
      obtain ⟨hxy, hyx⟩ := hquiet.pair j y hj hy
      exact ⟨{ hxy with }, { hyx with }⟩
  | release =>
    cases h
    have hquiet := hok.quiet (quiet_txnRelease (x := x))
    refine hg.replace (c := { g.toTxnCore with
        checkpointId := none
        checkpointShared := { g.checkpointShared with id := txnNone } }) ?_ ?_ ?_ ?_
        fun j hj _ => hno j hj
    · exact { hc with checkpoint := fun h' => absurd rfl h' }
    · exact { hquiet.inv with
        ownId := fun h' => by simp [txnRelease] at h'
        pin := fun _ s hs => by cases hs
        checkpointPin := fun h' => by cases h'
        checkpointBelow := fun h' => by cases h' }
    · intro j y hj hy
      have hyj := hg.session j y hy
      refine { hyj with
        ownId := fun h' => ?_
        pin := fun _ => hyj.pin (hno j hj)
        checkpointPin := fun h' => by cases h'
        checkpointBelow := fun h' => by cases h' }
      obtain ⟨hlt, hcom, hck⟩ := hyj.ownId h'
      exact ⟨hlt, hcom, fun _ => hck (hno j hj)⟩
    · intro j y hj hy
      obtain ⟨hxy, hyx⟩ := hquiet.pair j y hj hy
      exact ⟨{ hxy with below := fun _ h' => by cases h' },
        { hyx with below := fun _ => hyx.below (hno j hj) }⟩

end

/-! ### Runs -/

lemma inv_openSession : Inv { g with sessions := g.sessions ++ [.idle] } := by
  have hcases : ∀ {j : ℕ} {y : TxnSession}, (g.sessions ++ [TxnSession.idle])[j]? = some y →
      g.sessions[j]? = some y ∨ y = .idle := by
    intro j y hy
    rw [getElem?_append] at hy
    split_ifs at hy
    · exact .inl hy
    · exact .inr (mem_singleton.mp (mem_of_getElem? hy))
  refine ⟨hg.core, fun i x hx => ?_, fun i j x y hx hy hij => ?_⟩
  · rcases hcases hx with hx | rfl
    · exact hg.session i x hx
    · exact ⟨fun h => absurd rfl h, fun h => (by cases h), fun _ s hs => (by cases hs),
        fun _ s hs => (by cases hs), fun _ _ h => absurd rfl h, fun h => absurd rfl h,
        fun h => (by cases h)⟩
  · rcases hcases hx with hx | rfl
    · rcases hcases hy with hy | rfl
      · exact hg.pair i j x y hx hy hij
      · exact ⟨fun _ h => (by cases h), fun _ _ h => absurd rfl h⟩
    · exact ⟨fun h => (by cases h), fun _ h => (by cases h)⟩

lemma inv_checkpointDone (hnone : g.checkpointId = none) :
    Inv { g with checkpointShared := { g.checkpointShared with pinnedId := txnNone } } := by
  have hc := hg.core
  refine hg.setCore (c := { g.toTxnCore with
    checkpointShared := { g.checkpointShared with pinnedId := txnNone } }) ?_ ?_ fun _ h => h
  · exact { hc with checkpoint_le := Nat.zero_le _ }
  · intro i x hx _
    exact { hx with
      checkpointPin := fun h => absurd (hnone.symm.trans h) (by simp)
      checkpointBelow := fun _ h => absurd rfl h }

/-- Every step keeps the invariant. -/
lemma inv_step {a : TxnAction} (h : g.step a = some g') : g'.Inv := by
  cases a with
  | openSession =>
    cases h
    exact inv_openSession hg
  | session i op =>
    obtain ⟨x, hx, h⟩ := bind_eq_some_iff.mp h
    obtain ⟨hi, hx⟩ := ordinary_eq_some hx
    obtain ⟨x', hx', rfl⟩ := map_eq_some_iff.mp h
    exact hg.setSession ((hg.sessionOk hx).sessionOp hg hi hx')
  | idCheck i =>
    obtain ⟨x, hx, h⟩ := bind_eq_some_iff.mp h
    obtain ⟨hi, hx⟩ := ordinary_eq_some hx
    exact inv_txnIdCheck hg hx hi h
  | commit i timestamps =>
    obtain ⟨x, hx, h⟩ := bind_eq_some_iff.mp h
    obtain ⟨hi, hx⟩ := ordinary_eq_some hx
    exact inv_txnCommit hg hx hi h
  | setTimestamp c =>
    simp only [step] at h
    split at h
    · next p hp =>
      cases h
      exact inv_setTimestamp hg hp
    · cases h
      exact hg
  | updatePinnedTimestamp =>
    cases h
    exact inv_updatePinnedTimestamp hg
  | updateOldest strict =>
    cases h
    exact inv_updateOldest hg strict
  | checkpointPrepare i useTimestamp =>
    obtain ⟨x, hx, h⟩ := bind_eq_some_iff.mp h
    exact inv_checkpointPrepare hg (ordinary_eq_some hx).2 h
  | checkpoint op =>
    obtain ⟨i, hi, h⟩ := bind_eq_some_iff.mp h
    obtain ⟨x, hx, h⟩ := bind_eq_some_iff.mp h
    exact inv_checkpointOp hg hx hi h
  | checkpointDone =>
    simp only [step] at h
    split_ifs at h with hnone
    cases h
    exact inv_checkpointDone hg (isNone_iff_eq_none.mp hnone)

end TxnGlobal

end WiredTiger
