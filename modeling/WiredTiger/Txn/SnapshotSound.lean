/-
# What snapshots do not leave out

A walk collects an id only from a session whose transaction it is, between the first read of the
id and the second.  So a transaction that has left the global table before a snapshot is begun is
visible to it.  Other than completeness, this holds whatever the oldest id is.
-/
import WiredTiger.Txn.SnapshotComplete

namespace WiredTiger

open Lib

namespace AllocState

variable {n : ℕ} {s t : AllocState n} {i : Fin n} {x' : AllocSession}
variable {id : ℕ}

/-! ### What is published -/

/-- What sessions publish while they allocate ids, and what walks have read of it. -/
structure Sound (s : AllocState n) : Prop where
  pos : 0 < s.current
  alloc : ∀ i, AllocOk s.current (s.session i)
  place : ∀ i w, (s.session i).pc = .snapWalk w → ∀ k : Fin n, k ≠ i → k.val = w.k →
    WalkAt.Ok s.current (s.session k) w.place
  uniq : ∀ i j id, (s.session i).runId = some id → (s.session j).runId = some id → i = j

lemma sound_init (n : ℕ) : (init n).Sound where
  pos := one_pos
  alloc _ := ⟨rfl, .inl ⟨rfl, rfl⟩⟩
  place _ _ h := by cases h
  uniq _ _ _ h := by cases h

/-- A transaction that had an id, and has left the table. -/
structure Gone (s : AllocState n) (id : ℕ) : Prop where
  lt : id < s.current
  ne : ∀ k, (s.session k).runId ≠ some id

/-- The snapshot of a session does not leave out a transaction, nor does the walk for it. -/
structure Past (s : AllocState n) (c : Fin n) (id : ℕ) : Prop where
  snap : ∀ snap, (s.session c).snap = some snap → txnVisibleIdSnapshot id snap = true
  current : ∀ current, (s.session c).pc = .snapCurrent current → id < current
  walk : ∀ w, (s.session c).pc = .snapWalk w → id < w.current ∧ id ∉ w.ids

/-- A session that has no snapshot, and is not taking one. -/
lemma past_of_idle {c : Fin n} (hpc : (s.session c).pc = .idle)
    (hsnap : (s.session c).snap = none) : s.Past c id where
  snap _ h := by simp [hsnap] at h
  current _ h := by simp [hpc] at h
  walk _ h := by simp [hpc] at h

/-! ### A session is replaced -/

namespace Move

variable (hm : Move s t i x')

include hm

lemma sound (hs : s.Sound)
    (hwalk : ∀ w, x'.pc = .snapWalk w → ∀ k : Fin n, k ≠ i → k.val = w.k →
      WalkAt.Ok s.current (s.session k) w.place) : t.Sound where
  pos := lt_of_lt_of_le hs.pos hm.le
  alloc := hm.alloc_ok hs.alloc
  place j w hj k hk hkw := by
    refine hm.place_ok ?_
    rcases eq_or_ne j i with rfl | hji
    · exact hwalk w (hm.self ▸ hj) k hk hkw
    · exact hs.place j w (hm.other hji ▸ hj) k hk hkw
  uniq j k id hj hk := by
    have hlt : ∀ {l : Fin n}, (s.session l).runId = some id → id < s.current :=
      fun h => ((hs.alloc _).of_runId h).2.2
    rcases hm.runId_or hj with hj' | ⟨hji, hjle⟩ <;> rcases hm.runId_or hk with hk' | ⟨hki, hkle⟩
    · exact hs.uniq j k id hj' hk'
    · exact absurd (hlt hj') (not_lt.mpr hkle)
    · exact absurd (hlt hk') (not_lt.mpr hjle)
    · exact hji.trans hki.symm

lemma gone (h : s.Gone id) : t.Gone id where
  lt := lt_of_lt_of_le h.lt hm.le
  ne k hk := by
    rcases hm.runId_or hk with hold | ⟨-, hle⟩
    · exact h.ne k hold
    · exact absurd h.lt (not_lt.mpr hle)

/-- A step that takes a transaction out of the table. -/
lemma gone_self (hs : s.Sound) (hid : (s.session i).runId = some id) (hnone : x'.runId = none) :
    t.Gone id where
  lt := lt_of_lt_of_le ((hs.alloc i).of_runId hid).2.2 hm.le
  ne k hk := by
    rcases eq_or_ne k i with rfl | hki
    · rw [hm.self, hnone] at hk
      cases hk
    · rw [hm.other hki] at hk
      exact hki (hs.uniq k i id hk hid)

/-- The step of another session leaves a snapshot as it is. -/
lemma past_other {c : Fin n} (hc : c ≠ i) (h : s.Past c id) : t.Past c id where
  snap := by
    rw [hm.other hc]
    exact h.snap
  current := by
    rw [hm.other hc]
    exact h.current
  walk := by
    rw [hm.other hc]
    exact h.walk

lemma past_self (hsnap : ∀ snap, x'.snap = some snap → txnVisibleIdSnapshot id snap = true)
    (hcur : ∀ current, x'.pc = .snapCurrent current → id < current)
    (hwalk : ∀ w, x'.pc = .snapWalk w → id < w.current ∧ id ∉ w.ids) : t.Past i id where
  snap := by
    rw [hm.self]
    exact hsnap
  current := by
    rw [hm.self]
    exact hcur
  walk := by
    rw [hm.self]
    exact hwalk

end Move

/-! ### Steps -/

/-- What a step keeps. -/
structure Keeps (s t : AllocState n) : Prop where
  sound : t.Sound
  gone : ∀ id, s.Gone id → t.Gone id
  past : ∀ c id, s.Gone id → s.Past c id → t.Past c id

lemma Keeps.trans {u : AllocState n} (h : Keeps s t) (h' : Keeps t u) : Keeps s u where
  sound := h'.sound
  gone id hg := h'.gone id (h.gone id hg)
  past c id hg hp := h'.past c id (h.gone id hg) (h.past c id hg hp)

/-- It is enough to look at the snapshot of the session that steps. -/
lemma Move.keeps_of (hm : Move s t i x') (hs : s.Sound)
    (hplace : ∀ w, x'.pc = .snapWalk w → ∀ k : Fin n, k ≠ i → k.val = w.k →
      WalkAt.Ok s.current (s.session k) w.place)
    (hpast : ∀ id, s.Gone id → s.Past i id → t.Past i id) : Keeps s t where
  sound := hm.sound hs hplace
  gone _ h := hm.gone h
  past c id hg h := by
    rcases eq_or_ne c i with rfl | hc
    · exact hpast id hg h
    · exact hm.past_other hc h

/-- A snapshot that has been taken, from what the walk has collected. -/
lemma visible_sortSnapshot {current : ℕ} {ids : List ℕ} (hlt : id < current) (hids : id ∉ ids) :
    txnVisibleIdSnapshot id (sortSnapshot ids current) = true := by
  rw [← Bool.not_eq_false]
  intro h
  rcases txnVisibleIdSnapshot_eq_false_iff.mp h with hmem | hle
  · exact hids (mem_sortSnapshot_ids.mp hmem)
  · exact absurd hlt (not_lt.mpr hle)

/-- The walk stays behind what the sessions publish, and collects ids of transactions only. -/
lemma Move.keeps (hm : Move s t i x') (hs : s.Sound) (hstep : SnapStep s i x') : Keeps s t := by
  have hnext : ∀ {w : SnapWalk} {k : Fin n}, (s.session i).pc = .snapWalk w → k.val = w.k →
      _ := fun {w k} hpc hk => nextSnap_cases (hs.alloc k) fun hne => hs.place i w hpc k hne hk
  refine hm.keeps_of hs (fun w' hw' j hj hjk => ?_) fun id hg hp => ?_
  · rcases hstep.walk w' hw' with ⟨c, -, rfl⟩ | ⟨w, k, hpc, hk, rfl⟩
    · trivial
    · rcases hnext hpc hk with ⟨place, heq, hok⟩ | ⟨ids, heq, -⟩ <;> rw [heq] at hjk ⊢
      · obtain rfl : j = k := Fin.ext (hjk.trans hk.symm)
        exact hok
      · trivial
  refine hm.past_self (fun snap hsnap => ?_) (fun c hc => hstep.current c hc ▸ hg.lt)
    fun w' hw' => ?_
  · rcases hstep.snap snap hsnap with hold | ⟨c, hpc, -, rfl⟩ | ⟨w, hpc, -, rfl⟩
    · exact hp.snap snap hold
    · exact visible_sortSnapshot (hp.current c hpc) List.not_mem_nil
    · exact visible_sortSnapshot (hp.walk w hpc).1 (hp.walk w hpc).2
  · rcases hstep.walk w' hw' with ⟨c, hpc, rfl⟩ | ⟨w, k, hpc, hk, rfl⟩
    · exact ⟨hp.current c hpc, List.not_mem_nil⟩
    · obtain ⟨hlt, hnot⟩ := hp.walk w hpc
      rcases hnext hpc hk with
        ⟨place, heq, -⟩ | ⟨ids, heq, ⟨rfl, -⟩ | ⟨id', rfl, hrun⟩⟩ <;> rw [heq]
      · exact ⟨hlt, hnot⟩
      · exact ⟨hlt, hnot⟩
      · refine ⟨hlt, fun hmem => ?_⟩
        rcases List.mem_cons.mp hmem with rfl | hold
        · exact hg.ne k hrun
        · exact hnot hold

/-- **A transaction that is out of the table stays out, and snapshots that are begun after that do
not leave it out**, whatever any session does. -/
theorem keeps_step (hs : s.Sound) {a : Fin n × AllocOp} (h : s.step a = some t) : Keeps s t := by
  obtain ⟨x', hm, hstep⟩ := exists_move hs.pos (hs.alloc _) h
  exact hm.keeps hs hstep

/-- **Snapshots see what has ended.**  Whatever all sessions do next, the snapshot a session takes
sees every transaction that had left the table before it began. -/
theorem snapshot_sees_ended {as bs : List (Fin n × AllocOp)} (hs : run step (init n) as = some s)
    {c : Fin n} (hpc : (s.session c).pc = .idle) (hnone : (s.session c).snap = none)
    (hgone : s.Gone id) (ht : run step s bs = some t) {snap : Snapshot}
    (hsnap : (t.session c).snap = some snap) : txnVisibleIdSnapshot id snap = true := by
  have hsound : s.Sound :=
    run_invariant (fun _ _ _ h hstep => (keeps_step h hstep).sound) (sound_init n) hs
  have hkeeps : Keeps s t :=
    run_invariant (fun _ _ _ h hstep => h.trans (keeps_step h.sound hstep))
      ⟨hsound, fun _ h => h, fun _ _ _ h => h⟩ ht
  exact (hkeeps.past c id hgone (past_of_idle hpc hnone)).snap snap hsnap

theorem snapshot_sees_ended_release : ∃ s t snap,
    run step (init 2) (passedOver.take 10) = some s ∧
      run step s (passedOver.drop 10) = some t ∧ (t.session 1).snap = some snap ∧
      txnVisibleIdSnapshot 1 snap = true :=
  ⟨_, _, _, rfl, rfl, rfl, @snapshot_sees_ended 2 _ _ 1 (passedOver.take 10)
    (passedOver.drop 10) rfl 1 rfl rfl ⟨by decide, by decide⟩ rfl _ rfl⟩

end AllocState

end WiredTiger
