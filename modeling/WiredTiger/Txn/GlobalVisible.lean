/-
# What is visible to all is seen by all

An update that is visible to all is behind the oldest id and the pinned timestamp.  So every reader
that there is sees it; and since what everybody sees only grows, every reader to come.
-/
import WiredTiger.Txn.GlobalStep

namespace WiredTiger

open Lib Option List

namespace TxnGlobal

variable {g g' : TxnGlobal} {i : ℕ} {x x' : TxnSession} {u : CommittedUpdate}

/-! ### What everybody sees -/

/-- An update is behind the oldest id and the pinned timestamp, and a running checkpoint sees it. -/
structure SeenByAll (g : TxnGlobal) (u : CommittedUpdate) : Prop where
  id : u.txnid < g.oldestId
  ts : u.durableTs = tsNone ∨ ∃ p ∈ g.pinned, u.durableTs ≤ p
  checkpoint : ∀ i x s, g.checkpointId = some i → g.sessions[i]? = some x → x.snap = some s →
    u.txnid ∉ s.ids ∧ u.txnid < s.snapMax

/-- What is before a pin is seen, unless it is a checkpoint. -/
lemma Pins.sees {ids : List ℕ} {p id : ℕ} {s : Snapshot} (h : Pins ids p s) (hid : id < p)
    (hck : id ∉ ids) : id ∉ s.ids ∧ id < s.snapMax := by
  refine ⟨fun hmem => ?_, lt_of_lt_of_le hid h.le_max⟩
  rcases h.le_ids id hmem with hle | hmem
  · exact absurd hid (not_lt.mpr hle)
  · exact hck hmem

lemma lt_of_lt_txnOldestId {id : ℕ} (h : id < g.txnOldestId) :
    id < g.oldestId ∧
      (g.checkpointShared.pinnedId ≠ txnNone → id < g.checkpointShared.pinnedId) := by
  unfold txnOldestId at h
  split_ifs at h with hck
  · rcases hck with hck | hlt
    · exact ⟨h, fun hne => absurd hck hne⟩
    · exact ⟨h, fun _ => h.trans hlt⟩
  · rw [not_or, not_lt] at hck
    exact ⟨lt_of_lt_of_le h hck.2, fun _ => h⟩

lemma exists_pinned_of_le {ts : ℕ} (hne : g.txnPinnedTimestamp ≠ tsNone)
    (h : ts ≤ g.txnPinnedTimestamp) : ∃ p ∈ g.pinned, ts ≤ p := by
  unfold txnPinnedTimestamp at hne h
  split at h
  · next hnone => exact absurd (by rw [hnone]) hne
  · next p hp =>
    refine ⟨p, hp, ?_⟩
    split_ifs at h with hlt <;> omega

/-- What is visible to all is behind the oldest id and the pinned timestamp. -/
lemma seenByAll_of_visibleAll (hg : g.Inv) (hu : u ∈ g.committed)
    (h : txnVisibleAll g.global u.txnid u.durableTs = true) : SeenByAll g u := by
  obtain ⟨hid, hts⟩ := (txnVisibleAll_iff (g := g.global) rfl).mp h
  obtain ⟨hold, hck⟩ := lt_of_lt_txnOldestId hid
  refine ⟨hold, ?_, fun i x s hi hx hs => ?_⟩
  · exact hts.imp_right fun ⟨hne, hle⟩ => exists_pinned_of_le hne hle
  · obtain ⟨hne, hpins⟩ := (hg.session i x hx).checkpointPin hi s hs
    exact Pins.sees hpins (hck hne) (hg.core.committed u hu).2.1

/-- Whoever has a snapshot sees what everybody sees. -/
lemma SeenByAll.visible (hg : g.Inv) (hu : u ∈ g.committed)
    (h : SeenByAll g u) (hx : x ∈ g.sessions) {s : Snapshot} (hs : x.snap = some s) :
    txnVisible (x.view s) u.txnid u.startTs = true := by
  obtain ⟨i, hi⟩ := mem_iff_getElem?.mp hx
  have hxi := hg.session i x hi
  obtain ⟨hts, hck, hlt⟩ := hg.core.committed u hu
  have hsees : u.txnid ∉ s.ids ∧ u.txnid < s.snapMax := by
    by_cases hck' : g.checkpointId = some i
    · exact h.checkpoint i x s hck' hi hs
    · obtain ⟨hle, hpins, -⟩ := hxi.pin hck' s hs
      exact Pins.sees hpins (lt_of_lt_of_le h.id hle) hck
  refine txnVisible_iff.mpr ⟨?_, .inr fun readTs hread => ?_⟩
  · have hvis : txnVisibleIdSnapshot u.txnid s = true := by
      rw [← Bool.not_eq_false, txnVisibleIdSnapshot_eq_false_iff, not_or, not_le]
      exact hsees
    have hab : u.txnid ≠ txnAborted := (lt_of_lt_of_le hlt hg.core.current_le).ne
    unfold txnVisibleId
    split_ifs
    · rfl
    · rfl
    · rfl
    · exact hvis
  · -- the read timestamp is at or behind the pinned one
    have htsr : x.sharedTsRead = true ∧ x.shared.readTimestamp = readTs := by
      simpa [TxnSession.view] using hread
    rcases h.ts with hnone | ⟨p, hp, hle⟩
    · left
      unfold tsNone at hnone ⊢
      omega
    · right
      have := hxi.read (hxi.tsRead htsr.1) p hp
      omega

/-! ### What everybody sees grows -/

/-- The global values have moved forward. -/
structure Forward (g g' : TxnGlobal) : Prop where
  oldestId : g.oldestId ≤ g'.oldestId
  pinned : NotBehind g.pinned g'.pinned
  committed : ∀ u ∈ g.committed, u ∈ g'.committed

lemma Forward.of_eq (h : g'.oldestId = g.oldestId) (hp : g'.pinned = g.pinned)
    (hc : g'.committed = g.committed) : Forward g g' :=
  ⟨h.ge, hp ▸ notBehind_refl _, fun _ hu => hc ▸ hu⟩

lemma forward_updatePinnedTimestamp (g : TxnGlobal) :
    Forward g g.updatePinnedTimestamp ∧ g.updatePinnedTimestamp.sessions = g.sessions ∧
      g.updatePinnedTimestamp.checkpointId = g.checkpointId := by
  obtain heq | ⟨ts, b, -, hle, heq⟩ := g.updatePinnedTimestamp_cases
  · rw [heq]
    exact ⟨.of_eq rfl rfl rfl, rfl, rfl⟩
  · rw [heq]
    exact ⟨⟨le_rfl, fun p hp => ⟨ts, rfl, hle p hp⟩, fun _ hu => hu⟩, rfl, rfl⟩

lemma forward_updateOldest (g : TxnGlobal) (strict : Bool) :
    Forward g (g.updateOldest strict) ∧ (g.updateOldest strict).sessions = g.sessions ∧
      (g.updateOldest strict).checkpointId = g.checkpointId := by
  obtain ⟨g₁, hg₁, hcases⟩ := g.updateOldest_cases strict
  have hstrict : Forward g g₁ ∧ g₁.sessions = g.sessions ∧ g₁.checkpointId = g.checkpointId := by
    rcases hg₁ with rfl | rfl
    · exact ⟨.of_eq rfl rfl rfl, rfl, rfl⟩
    · exact forward_updatePinnedTimestamp g
  obtain heq | ⟨o, l, m, hge, -, heq⟩ := hcases
  · rwa [heq]
  rw [heq]
  obtain ⟨hf, hs, hck⟩ := hstrict
  exact ⟨⟨hf.oldestId.trans hge, hf.pinned, hf.committed⟩, hs, hck⟩

/-- What everybody sees stays so if the global values move forward, and a running checkpoint sees
it. -/
lemma SeenByAll.forward (h : SeenByAll g u) (hf : Forward g g')
    (hck : ∀ i x s, g'.checkpointId = some i → g'.sessions[i]? = some x → x.snap = some s →
      u.txnid ∉ s.ids ∧ u.txnid < s.snapMax) : SeenByAll g' u := by
  refine ⟨lt_of_lt_of_le h.id hf.oldestId, h.ts.imp_right ?_, hck⟩
  rintro ⟨p, hp, hle⟩
  obtain ⟨p', hp', hpp⟩ := hf.pinned p hp
  exact ⟨p', hp', hle.trans hpp⟩

/-- The checkpoint is not concerned by what an ordinary session does. -/
lemma SeenByAll.ordinary (h : SeenByAll g u) (hf : Forward g g')
    (hi : g.checkpointId ≠ some i) (hck : g'.checkpointId = g.checkpointId)
    (hs : g'.sessions = g.sessions.set i x') : SeenByAll g' u := by
  refine h.forward hf fun j y s hj hy hsnap => ?_
  rw [hck] at hj
  rw [hs] at hy
  rcases getElem?_set_cases hy with ⟨rfl, -⟩ | ⟨-, hy⟩
  · exact absurd hj hi
  · exact h.checkpoint j y s hj hy hsnap

/-- Every step keeps what everybody sees. -/
lemma seenByAll_step {a : TxnAction} (hg : g.Inv) (h : g.step a = some g')
    (hu : u ∈ g.committed) (hs : SeenByAll g u) : SeenByAll g' u ∧ u ∈ g'.committed := by
  cases a with
  | openSession =>
    cases h
    refine ⟨hs.forward (.of_eq rfl rfl rfl) fun i x s hi hx hsnap => ?_, hu⟩
    rw [getElem?_append] at hx
    split_ifs at hx
    · exact hs.checkpoint i x s hi hx hsnap
    · obtain rfl := mem_singleton.mp (mem_of_getElem? hx)
      cases hsnap
  | session i op =>
    obtain ⟨x, hx, h⟩ := bind_eq_some_iff.mp h
    obtain ⟨x', -, rfl⟩ := map_eq_some_iff.mp h
    exact ⟨hs.ordinary (.of_eq rfl rfl rfl) (ordinary_eq_some hx).1 rfl rfl, hu⟩
  | idCheck i =>
    obtain ⟨x, hx, h⟩ := bind_eq_some_iff.mp h
    obtain ⟨-, h⟩ := ite_none_right_eq_some.mp h
    cases h
    exact ⟨hs.ordinary (.of_eq rfl rfl rfl) (ordinary_eq_some hx).1 rfl rfl, hu⟩
  | commit i timestamps =>
    obtain ⟨x, hx, h⟩ := bind_eq_some_iff.mp h
    obtain ⟨-, h⟩ := ite_none_right_eq_some.mp h
    cases h
    have hf : ∀ v ∈ g.committed, v ∈ timestamps.map
        (fun ts => (⟨x.id, ts.1, ts.2⟩ : CommittedUpdate)) ++ g.committed :=
      fun v hv => mem_append_right _ hv
    exact ⟨hs.ordinary ⟨le_rfl, notBehind_refl _, hf⟩ (ordinary_eq_some hx).1 rfl rfl, hf u hu⟩
  | setTimestamp c =>
    simp only [step] at h
    split at h
    · cases h
      exact ⟨hs.forward (.of_eq rfl rfl rfl) hs.checkpoint, hu⟩
    · cases h
      exact ⟨hs, hu⟩
  | updatePinnedTimestamp =>
    cases h
    obtain ⟨hf, hsess, hck⟩ := forward_updatePinnedTimestamp g
    refine ⟨hs.forward hf fun i x s hi hx => ?_, hf.committed u hu⟩
    exact hs.checkpoint i x s (hck ▸ hi) (hsess ▸ hx)
  | updateOldest strict =>
    cases h
    obtain ⟨hf, hsess, hck⟩ := forward_updateOldest g strict
    refine ⟨hs.forward hf fun i x s hi hx => ?_, hf.committed u hu⟩
    exact hs.checkpoint i x s (hck ▸ hi) (hsess ▸ hx)
  | checkpointPrepare i useTimestamp =>
    obtain ⟨x, hx, h⟩ := bind_eq_some_iff.mp h
    obtain ⟨hi, hx⟩ := ordinary_eq_some hx
    obtain ⟨s, hsnap, -, -, -, rfl⟩ := checkpointPrepare_eq_some h
    refine ⟨hs.forward (.of_eq rfl rfl rfl) fun j y s' hj hy hs' => ?_, hu⟩
    cases hj
    rcases getElem?_set_cases hy with ⟨-, rfl⟩ | ⟨hne, -⟩
    · -- the snapshot of the checkpoint is pinned at or behind the oldest id
      obtain ⟨hle, hpins, -⟩ := (hg.session i x hx).pin hi s' hs'
      exact Pins.sees hpins (lt_of_lt_of_le hs.id hle) (hg.core.committed u hu).2.1
    · exact absurd rfl hne
  | checkpoint op =>
    obtain ⟨i, hi, h⟩ := bind_eq_some_iff.mp h
    obtain ⟨x, hx, h⟩ := bind_eq_some_iff.mp h
    cases op with
    | bumpSnapshot =>
      simp only [checkpointOp] at h
      split_ifs at h
      cases h
      refine ⟨hs.forward (.of_eq rfl rfl rfl) fun j y s hj hy hsnap => ?_, hu⟩
      obtain rfl := some.inj (hi.symm.trans hj)
      rcases getElem?_set_cases hy with ⟨-, rfl⟩ | ⟨hne, -⟩
      · cases hsnap
        have hpins : Pins g.checkpointIds g.oldestId _ :=
          pins_getSnapshot (i := i) (x := x) hg hg.core.oldest_le fun id hid =>
            (mem_snapshotIds hid).1
        exact Pins.sees hpins hs.id (hg.core.committed u hu).2.1
      · exact absurd rfl hne
    | releaseSnapshot =>
      cases h
      refine ⟨hs.forward (.of_eq rfl rfl rfl) fun j y s hj hy hsnap => ?_, hu⟩
      obtain rfl := some.inj (hi.symm.trans hj)
      rcases getElem?_set_cases hy with ⟨-, rfl⟩ | ⟨hne, -⟩
      · cases hsnap
      · exact absurd rfl hne
    | release =>
      cases h
      exact ⟨hs.forward (.of_eq rfl rfl rfl) fun j y s hj => (by cases hj), hu⟩
  | checkpointDone =>
    simp only [step] at h
    split_ifs at h
    cases h
    exact ⟨hs.forward (.of_eq rfl rfl rfl) hs.checkpoint, hu⟩

end TxnGlobal

open TxnGlobal in
/-- **What is visible to all is seen by all.**  In every run, if an update that has been committed
is visible to all, then every session that has a snapshot, then or after any further steps, sees
it. -/
theorem txnVisibleAll_sound {as as' : List TxnAction} {g g' : TxnGlobal}
    (h : run step .init as = some g) {u : CommittedUpdate} (hu : u ∈ g.committed)
    (hall : txnVisibleAll g.global u.txnid u.durableTs = true)
    (h' : run step g as' = some g') {x : TxnSession} (hx : x ∈ g'.sessions) {s : Snapshot}
    (hs : x.snap = some s) : txnVisible (x.view s) u.txnid u.startTs = true := by
  have hg : g.Inv := run_invariant (fun _ _ _ hg => inv_step hg) inv_init h
  have hstep : ∀ t a t', t.Inv ∧ SeenByAll t u ∧ u ∈ t.committed → step t a = some t' →
      t'.Inv ∧ SeenByAll t' u ∧ u ∈ t'.committed := by
    rintro t a t' ⟨ht, hseen, hut⟩ hstep
    exact ⟨inv_step ht hstep, seenByAll_step ht hstep hut hseen⟩
  obtain ⟨hg', hseen, hu'⟩ :=
    run_invariant hstep ⟨hg, seenByAll_of_visibleAll hg hu hall, hu⟩ h'
  exact hseen.visible hg' hu' hx hs

open TxnGlobal in
/-- A transaction commits at timestamp 10; the oldest timestamp moves to 20, and with it what is
visible to all. -/
def seenState : TxnGlobal :=
  (run step .init [.openSession, .session 0 (.begin .snapshot false none), .idCheck 0,
    .commit 0 [(10, 10)], .setTimestamp ⟨none, some 20, none⟩, .updateOldest true]).getD .init

open TxnGlobal in
/-- A reader begins after that, at timestamp 25. -/
theorem txnVisibleAll_sound_example :
    ∃ g' u x s, u ∈ seenState.committed ∧
      txnVisibleAll seenState.global u.txnid u.durableTs = true ∧
      run step seenState [.session 0 (.begin .snapshot false (some (25, false)))] = some g' ∧
      x ∈ g'.sessions ∧ x.snap = some s ∧ txnVisible (x.view s) u.txnid u.startTs = true := by
  have hrun : run step .init [.openSession, .session 0 (.begin .snapshot false none), .idCheck 0,
      .commit 0 [(10, 10)], .setTimestamp ⟨none, some 20, none⟩, .updateOldest true] =
      some seenState := rfl
  have hu : (⟨1, 10, 10⟩ : CommittedUpdate) ∈ seenState.committed := .head _
  have hall : txnVisibleAll seenState.global 1 10 = true := rfl
  obtain ⟨g', hg', x, hx, s, hs⟩ : ∃ g',
      run step seenState [.session 0 (.begin .snapshot false (some (25, false)))] = some g' ∧
      ∃ x ∈ g'.sessions, ∃ s, x.snap = some s := ⟨_, rfl, _, .head _, _, rfl⟩
  exact ⟨g', _, x, s, hu, hall, hg', hx, hs, txnVisibleAll_sound hrun hu hall hg' hx hs⟩

end WiredTiger
