/-
# The LSN of a checkpoint is safe to recover from

Every committed transaction is in the checkpoint or replayed: a commit record below the
checkpoint's LSN was written under the visibility lock before the checkpoint acquired it, so its
transaction was out of the table by then, and the snapshots that are taken afterwards see it.
-/
import WiredTiger.Txn.CheckpointLog

namespace WiredTiger

open Lib AllocState Option Nat Function Pc CommitAt AllocSession

namespace CkptState

variable {n : ℕ} {s s' : CkptState n} {i : Fin n} {c : Ckpt n} {t : AllocState n}

/-! ### The invariant -/

/-- What is in the snapshot of the checkpoint's session, and whether it is being taken. -/
def SnapOk (x : AllocSession) : CkptAt → Prop
  | .begun | .bumping => x.pc.holdsRead = true ∨ x.pc = .idle ∧ x.snap ≠ none
  | .allocating => (x.pc.plain = false ∨ x.pc = .idle) ∧ x.snap ≠ none
  | .cleared | .taken => x.pc = .idle ∧ x.snap ≠ none
  | _ => x.pc = .idle ∧ x.snap = none

/-- A commit record that counts: its transaction was not rolled back. -/
def Counts (s : CkptState n) (r : CommitRecord) : Prop := r ∈ s.records ∧ r.id ∉ s.failed

/-- A checkpoint. -/
structure CkptOk (s : CkptState n) (c : Ckpt n) : Prop where
  own : s.commit c.session = .idle
  lock : c.place = .locked → ∀ i, (s.commit i).holds = false
  lsn_le : c.lsn ≤ s.allocLsn
  snap : SnapOk (s.table.session c.session) c.place
  past : c.place.passed = true → ∀ r, s.Counts r → r.lsn < c.lsn →
    s.table.Gone r.id ∧ s.table.Past c.session r.id

structure Inv (s : CkptState n) : Prop where
  sound : s.table.Sound
  lsn_lt : ∀ r ∈ s.records, r.lsn < s.allocLsn
  gone : ∀ r, s.Counts r → s.table.Gone r.id ∨
    ∃ i, s.commit i = .logged ∧ (s.table.session i).runId = some r.id
  ckpt : ∀ c ∈ s.ckpt, s.CkptOk c

lemma inv_init (n : ℕ) : (init n).Inv where
  sound := sound_init n
  lsn_lt _ h := by cases h
  gone _ h := by cases h.1
  ckpt _ h := by cases h

/-! ### Steps of the table -/

/-- The steps of a session leave the others as they are. -/
lemma session_step_of_ne (ht : t.Sound) {u : AllocState n} {op : AllocState.AllocOp}
    (h : t.step (i, op) = some u) {j : Fin n} (hj : j ≠ i) : u.session j = t.session j := by
  obtain ⟨x', hm, -⟩ := exists_move ht.pos (ht.alloc i) h
  exact hm.other hj

lemma keeps_releaseSnapshot (ht : t.Sound) (hpc : (t.session i).pc = .idle) :
    Keeps t (releaseSnapshot t i) := by
  have hplain : (t.session i).pc.plain = true := by simp [hpc, plain]
  have hm : AllocState.Move t (releaseSnapshot t i) i _ :=
    move_plain (ht.alloc i) hplain hplain rfl (.inl ⟨rfl, rfl⟩)
  exact hm.keeps ht (snapStep_quiet (.inr rfl) (by simp [hpc]) (by simp [hpc]))

lemma keeps_clearEntry (ht : t.Sound) (hpc : (t.session i).pc = .idle) :
    Keeps t (clearEntry t i) := by
  have hplain : (t.session i).pc.plain = true := by simp [hpc, plain]
  have hm : AllocState.Move t (clearEntry t i) i _ :=
    move_plain (ht.alloc i) hplain hplain rfl (.inr ⟨rfl, rfl⟩)
  exact hm.keeps ht (snapStep_quiet (.inl rfl) (by simp [hpc]) (by simp [hpc]))

lemma session_set_self (t : AllocState n) (x : AllocSession) : (t.set i x).session i = x := by
  exact update_self i x t.session

/-- A walk goes on, or leaves a snapshot. -/
lemma advance_of_holdsRead {t u : AllocState n} (h : t.advance i = some u)
    (hx : (t.session i).pc.holdsRead = true) :
    (u.session i).pc.holdsRead = true ∨ (u.session i).pc = .idle ∧ (u.session i).snap ≠ none := by
  have hdone : ∀ current ids, ((t.finishSnapshot i current ids).session i).pc = .idle ∧
      ((t.finishSnapshot i current ids).session i).snap ≠ none := by
    intro current ids
    simp [finishSnapshot, session_set_self]
  unfold advance at h
  dsimp only at h
  cases hpc : (t.session i).pc with
  | snapLocked =>
    rw [hpc] at h
    cases h
    simp [session_set_self, holdsRead]
  | snapCurrent current =>
    rw [hpc] at h
    by_cases hold : t.oldestId = current
    · obtain rfl := some.inj ((if_pos hold).symm.trans h)
      exact .inr (hdone _ _)
    · obtain rfl := some.inj ((if_neg hold).symm.trans h)
      simp [session_set_self, holdsRead]
  | snapWalk w =>
    rw [hpc] at h
    cases h
    unfold advanceSnap
    split
    · simp [session_set_self, holdsRead]
    · exact .inr (hdone _ _)
  | _ => simp [hpc, holdsRead] at hx

/-- Allocating an id goes on, or ends, and leaves the snapshot as it is. -/
lemma advance_of_not_plain {t u : AllocState n} (h : t.advance i = some u)
    (hx : (t.session i).pc.plain = false) :
    ((u.session i).pc.plain = false ∨ (u.session i).pc = .idle) ∧
      (u.session i).snap = (t.session i).snap := by
  unfold advance at h
  dsimp only at h
  cases hpc : (t.session i).pc with
  | allocPublished =>
    rw [hpc] at h
    cases h
    have hself := session_set_self (i := i) t { t.session i with
      runId := some t.current, pc := .allocIncremented t.current }
    rw [hself]
    exact ⟨.inl rfl, rfl⟩
  | allocating | allocRead | allocIncremented | allocRepublished =>
    rw [hpc] at h
    cases h
    simp [session_set_self, plain]
  | _ => simp [hpc, plain] at hx

lemma advance_idle (hpc : (t.session i).pc = .idle) : t.advance i = none := by
  unfold advance
  dsimp only
  rw [hpc]

/-- An access of one of the functions that the checkpoint calls. -/
lemma snapOk_advance {t u : AllocState n} (h : t.step (i, .advance) = some u) {place : CkptAt}
    (hplace : place = .begun ∨ place = .allocating ∨ place = .bumping)
    (hx : SnapOk (t.session i) place) : SnapOk (u.session i) place := by
  change t.advance i = some u at h
  have hidle : (t.session i).pc ≠ .idle := fun hpc => by simp [advance_idle hpc] at h
  rcases hplace with rfl | rfl | rfl
  · exact advance_of_holdsRead h (hx.resolve_right fun h => hidle h.1)
  · obtain ⟨hpc, hsnap⟩ := advance_of_not_plain h (hx.1.resolve_right hidle)
    exact ⟨hpc, hsnap ▸ hx.2⟩
  · exact advance_of_holdsRead h (hx.resolve_right fun h => hidle h.1)

/-- The walk of `__wt_txn_bump_snapshot`. -/
lemma bumpNext_ok {t u : AllocState n} (ht : t.Sound) (h : bumpNext t i = some u)
    (hx : SnapOk (t.session i) .bumping) :
    Keeps t u ∧ (∀ j, j ≠ i → u.session j = t.session j) ∧ SnapOk (u.session i) .bumping := by
  obtain ⟨u', hu', rfl⟩ := map_eq_some_iff.mp h
  have hk := keeps_step ht hu'
  have hok := snapOk_advance hu' (.inr (.inr rfl)) hx
  have hplain : (u'.session i).pc.plain = true := by
    rcases hok with hread | ⟨hidle, -⟩
    · cases hpc : (u'.session i).pc <;> simp_all [holdsRead, plain]
    · simp [hidle, plain]
  have hm : AllocState.Move u'
      (u'.set i { u'.session i with pinnedId := (t.session i).pinnedId }) i _ :=
    move_plain (hk.sound.alloc i) hplain hplain rfl (.inl ⟨rfl, rfl⟩)
  have hsame : Keeps u' (u'.set i { u'.session i with pinnedId := (t.session i).pinnedId }) := by
    refine hm.keeps_of hk.sound (fun w hw => hk.sound.place i w hw) fun id _ hp => ?_
    exact hm.past_self hp.snap hp.current hp.walk
  refine ⟨hk.trans hsame, fun j hj => ?_, ?_⟩
  · rw [hm.other hj]
    exact session_step_of_ne ht hu' hj
  · rw [hm.self]
    exact hok

/-! ### Commits -/

lemma free_iff : s.free i = true ↔ s.commit i = .idle ∧ ∀ c ∈ s.ckpt, c.session ≠ i := by
  simp [free, all_eq_true]

lemma logWrite_eq_some {lsn size : ℕ} (h : s.logWrite lsn size = some s') :
    s.allocLsn ≤ lsn ∧ 0 < size ∧ s' = { s with allocLsn := lsn + size } := by
  obtain ⟨⟨hle, hpos⟩, h⟩ := ite_none_right_eq_some.mp h
  exact ⟨hle, hpos, (some.inj h).symm⟩

section Invariant

variable (hs : s.Inv)
include hs

lemma keeps_refl : Keeps s.table s.table :=
  ⟨hs.sound, fun _ h => h, fun _ _ _ h => h⟩

section

variable {place : CommitAt} (hown : ∀ c ∈ s.ckpt, c.session ≠ i)
  (hlock : place.holds = true → (s.commit i).holds = true ∨ ∀ c ∈ s.ckpt, c.place ≠ .locked)
include hown hlock

/-- A session that does not run the checkpoint takes a step, and is then at another place of its
commit. -/
lemma Inv.commit_step (hk : Keeps s.table t) (hother : ∀ j, j ≠ i → t.session j = s.table.session j)
    (hlogged : s.commit i = .logged →
      ∀ r, s.Counts r → (s.table.session i).runId = some r.id → t.Gone r.id) :
    Inv { s with table := t, commit := update s.commit i place } where
  sound := hk.sound
  lsn_lt := hs.lsn_lt
  gone r hr := by
    rcases hs.gone r hr with hg | ⟨j, hj, hrun⟩
    · exact .inl (hk.gone _ hg)
    · rcases eq_or_ne j i with rfl | hji
      · exact .inl (hlogged hj r hr hrun)
      · refine .inr ⟨j, ?_, ?_⟩
        · exact (update_of_ne hji place s.commit).trans hj
        · exact (congrArg runId (hother j hji)).trans hrun
  ckpt c hc := by
    have hok := hs.ckpt c hc
    have hne := hown c hc
    refine ⟨(update_of_ne hne place s.commit).trans hok.own, fun hl j => ?_, hok.lsn_le,
      ?_, fun hp r hr hlt => ?_⟩
    · rcases eq_or_ne j i with rfl | hji
      · dsimp only
        rw [update_self]
        by_contra hholds
        rcases hlock (eq_true_of_ne_false hholds) with h | h
        · simp [hok.lock hl j] at h
        · exact h c hc hl
      · dsimp only
        rw [update_of_ne hji]
        exact hok.lock hl j
    · rw [hother _ hne]
      exact hok.snap
    · obtain ⟨hg, hpast⟩ := hok.past hp r hr hlt
      exact ⟨hk.gone _ hg, hk.past _ _ hg hpast⟩

/-- The place in the commit changes, and not the table. -/
lemma Inv.setCommit (hlogged : s.commit i ≠ .logged) : (s.setCommit i place).Inv :=
  hs.commit_step hown hlock (keeps_refl hs) (fun _ _ => rfl)
    fun h => absurd h hlogged

end

/-- A session in a logged commit does not run the checkpoint. -/
lemma Inv.session_ne (h : s.commit i ≠ .idle) : ∀ c ∈ s.ckpt, c.session ≠ i := by
  rintro c hc rfl
  exact h (hs.ckpt c hc).own

/-- The counters of the log and of the generations move on. -/
lemma Inv.of_eq (htable : s'.table = s.table) (hcommit : s'.commit = s.commit)
    (hlsn : s.allocLsn ≤ s'.allocLsn) (hrec : s'.records = s.records) (hfail : s'.failed = s.failed)
    (hckpt : s'.ckpt = s.ckpt) : s'.Inv where
  sound := htable ▸ hs.sound
  lsn_lt r hr := lt_of_lt_of_le (hs.lsn_lt r (hrec ▸ hr)) hlsn
  gone r hr := by
    rw [htable, hcommit]
    exact hs.gone r ⟨hrec ▸ hr.1, hfail ▸ hr.2⟩
  ckpt c hc := by
    have hok := hs.ckpt c (hckpt ▸ hc)
    refine ⟨hcommit ▸ hok.own, hcommit ▸ hok.lock, hok.lsn_le.trans hlsn, htable ▸ hok.snap, ?_⟩
    rw [htable]
    exact fun hp r hr => hok.past hp r ⟨hrec ▸ hr.1, hfail ▸ hr.2⟩

/-- The commit record is written: behind the LSN of a checkpoint that has one. -/
lemma Inv.log {lsn size id : ℕ} (hlocked : s.commit i = .locked)
    (hid : (s.table.session i).runId = some id) (hle : s.allocLsn ≤ lsn) (hpos : 0 < size) :
    Inv { s.setCommit i .logged with
      allocLsn := lsn + size, records := ⟨id, lsn⟩ :: s.records } := by
  have hbase : (s.setCommit i .logged).Inv :=
    hs.setCommit (hs.session_ne (by simp [hlocked]))
      (fun _ => .inl (by simp [hlocked, holds])) (by simp [hlocked])
  refine ⟨hs.sound, fun r hr => ?_, fun r hr => ?_, fun c hc => ?_⟩
  · rcases List.mem_cons.mp hr with rfl | hold
    · exact Nat.lt_add_of_pos_right hpos
    · exact lt_of_lt_of_le (hs.lsn_lt r hold) (hle.trans (Nat.le_add_right _ _))
  · rcases List.mem_cons.mp hr.1 with rfl | hold
    · exact .inr ⟨i, update_self i _ s.commit, hid⟩
    · exact hbase.gone r ⟨hold, hr.2⟩
  · obtain ⟨hown, hlock, hlsn, hsnap, hpast⟩ := hbase.ckpt c hc
    refine ⟨hown, hlock, hlsn.trans (hle.trans (Nat.le_add_right _ _)), hsnap,
      fun hp r hr hlt => ?_⟩
    rcases List.mem_cons.mp hr.1 with rfl | hold
    · exact absurd (lt_of_lt_of_le hlt (hlsn.trans hle)) (lt_irrefl _)
    · exact hpast hp r ⟨hold, hr.2⟩ hlt

/-- The commit fails after the record has been written. -/
lemma Inv.fail (hlogged : s.commit i = .logged) :
    Inv { s.setCommit i .idle with failed := (s.table.session i).runId.toList ++ s.failed } := by
  -- the records that still count are not of this session
  have hcounts : ∀ r, r ∈ s.records → r.id ∉ (s.table.session i).runId.toList ++ s.failed →
      s.Counts r ∧ (s.table.session i).runId ≠ some r.id := by
    intro r hr hnot
    rw [List.mem_append, not_or, mem_toList] at hnot
    exact ⟨⟨hr, hnot.2⟩, hnot.1⟩
  have hne := hs.session_ne (i := i) (by simp [hlogged])
  refine ⟨hs.sound, hs.lsn_lt, fun r hr => ?_, fun c hc => ?_⟩
  · obtain ⟨hold, hid⟩ := hcounts r hr.1 hr.2
    refine (hs.gone r hold).imp_right fun ⟨j, hj, hrun⟩ => ⟨j, ?_, hrun⟩
    have hji : j ≠ i := by
      rintro rfl
      exact hid hrun
    exact (update_of_ne hji _ s.commit).trans hj
  · have hok := hs.ckpt c hc
    refine ⟨(update_of_ne (hne c hc) _ s.commit).trans hok.own, fun hl j => ?_, hok.lsn_le,
      hok.snap, fun hp r hr hlt => hok.past hp r (hcounts r hr.1 hr.2).1 hlt⟩
    have := hok.lock hl i
    simp [hlogged, holds] at this

lemma inv_stepCommit {op : CommitOp} (h : s.stepCommit i op = some s') : s'.Inv := by
  cases op with
  | begin =>
    obtain ⟨⟨hfree, hpc, -⟩, h⟩ := ite_none_right_eq_some.mp h
    cases h
    obtain ⟨hidle, hown⟩ := free_iff.mp hfree
    refine hs.commit_step hown (fun h => by cases h) (keeps_releaseSnapshot hs.sound hpc)
      (fun j hj => ?_) fun h => by simp [hidle] at h
    exact update_of_ne hj _ s.table.session
  | readLock =>
    obtain ⟨⟨hbegun, hckpt⟩, h⟩ := ite_none_right_eq_some.mp h
    cases h
    exact hs.setCommit (hs.session_ne (by simp [hbegun])) (fun _ => .inr hckpt) (by simp [hbegun])
  | log lsn size =>
    obtain ⟨hlocked, h⟩ := ite_none_right_eq_some.mp h
    rcases hid : (s.table.session i).runId with _ | id
    · simp [hid] at h
    rcases hw : s.logWrite lsn size with _ | s₁
    · simp [hid, hw] at h
    simp only [hid, hw, some.injEq] at h
    obtain ⟨hle, hpos, rfl⟩ := logWrite_eq_some hw
    subst h
    exact hs.log hlocked hid hle hpos
  | release =>
    obtain ⟨hlogged, h⟩ := ite_none_right_eq_some.mp h
    obtain ⟨t, ht, rfl⟩ := map_eq_some_iff.mp h
    refine hs.commit_step (hs.session_ne (by simp [hlogged]))
      (fun _ => .inl (by simp [hlogged, holds])) (keeps_step hs.sound ht)
      (fun j hj => session_step_of_ne hs.sound ht hj)
      fun _ r _ hrun => ?_
    -- the transaction leaves the table
    obtain ⟨hpc, ht⟩ := ite_none_right_eq_some.mp ht
    cases ht
    have hplain : (s.table.session i).pc.plain = true := by
      simp [hpc, plain]
    have hm : AllocState.Move s.table (s.table.set i { s.table.session i with
        id := txnNone, runId := none, pc := .released }) i _ :=
      move_plain (hs.sound.alloc i) hplain rfl rfl (.inr ⟨rfl, rfl⟩)
    exact hm.gone_self hs.sound hrun rfl
  | releaseNext =>
    obtain ⟨hrel, h⟩ := ite_none_right_eq_some.mp h
    obtain ⟨t, ht, rfl⟩ := map_eq_some_iff.mp h
    exact hs.commit_step (hs.session_ne (by simp [hrel]))
      (fun _ => .inl (by simp [hrel, holds])) (keeps_step hs.sound ht)
      (fun j hj => session_step_of_ne hs.sound ht hj)
      fun h => by simp [hrel] at h
  | readUnlock =>
    obtain ⟨hrel, h⟩ := ite_none_right_eq_some.mp h
    cases h
    exact hs.setCommit (hs.session_ne (by simp [hrel])) (fun h => by cases h) (by simp [hrel])
  | genNext =>
    obtain ⟨hplace, h⟩ := ite_none_right_eq_some.mp h
    cases h
    have hbase : (s.setCommit i .idle).Inv := by
      rcases hplace with hun | hfree
      · exact hs.setCommit (hs.session_ne (by simp [hun])) (fun h => by cases h) (by simp [hun])
      · obtain ⟨hidle, hown⟩ := free_iff.mp hfree
        exact hs.setCommit hown (fun h => by cases h) (by simp [hidle])
    exact hbase.of_eq rfl rfl le_rfl rfl rfl rfl
  | fail =>
    unfold stepCommit at h
    by_cases hlocked : s.commit i = .locked
    · rw [if_pos hlocked] at h
      cases h
      exact hs.setCommit (hs.session_ne (by simp [hlocked])) (fun h => by cases h)
        (by simp [hlocked])
    · obtain ⟨hlogged, h⟩ := ite_none_right_eq_some.mp ((if_neg hlocked).symm.trans h)
      cases h
      exact hs.fail hlogged

/-! ### The checkpoint -/

section Step

variable (hc : s.ckpt = some c) (hk : Keeps s.table t)
  (hother : ∀ j, j ≠ c.session → t.session j = s.table.session j) {c' : Ckpt n}
  (hsession : c'.session = c.session) (hsnap : SnapOk (t.session c.session) c'.place)
include hc hk hother hsession hsnap

/-- The checkpoint goes to another place. -/
lemma Inv.ckpt_step (hlock : c'.place = .locked → ∀ i, (s.commit i).holds = false)
    (hlsn : c'.lsn ≤ s.allocLsn)
    (hpast : c'.place.passed = true → ∀ r, s.Counts r → r.lsn < c'.lsn →
      t.Gone r.id ∧ t.Past c.session r.id) :
    Inv { s with table := t, ckpt := some c' } where
  sound := hk.sound
  lsn_lt := hs.lsn_lt
  gone r hr := by
    rcases hs.gone r hr with hg | ⟨j, hj, hrun⟩
    · exact .inl (hk.gone _ hg)
    · have hne : j ≠ c.session := by
        rintro rfl
        simp [(hs.ckpt c hc).own] at hj
      exact .inr ⟨j, hj, (congrArg runId (hother j hne)).trans hrun⟩
  ckpt d hd := by
    cases hd
    exact ⟨hsession ▸ (hs.ckpt c hc).own, hlock, hlsn, hsession ▸ hsnap, hsession ▸ hpast⟩

/-- The checkpoint has acquired the visibility lock, and goes to another place. -/
lemma Inv.ckpt_next (hp : c.place.passed = true) (hlsn : c'.lsn = c.lsn)
    (hplace : c'.place ≠ .locked) : Inv { s with table := t, ckpt := some c' } := by
  have hok := hs.ckpt c hc
  refine hs.ckpt_step hc hk hother hsession hsnap (fun h => absurd h hplace)
    (hlsn ▸ hok.lsn_le) fun _ r hr hlt => ?_
  obtain ⟨hg, hpast⟩ := hok.past hp r hr (hlsn ▸ hlt)
  exact ⟨hk.gone _ hg, hk.past _ _ hg hpast⟩

end Step

/-- The start record, or the message for it, is written. -/
lemma inv_startCkpt {lsn size : ℕ} {place : CkptAt}
    (hplace : place = .logged ∨ place = .message) (h : s.startCkpt i lsn size place = some s') :
    s'.Inv := by
  obtain ⟨⟨hnone, hfree, hpc, -, hsnap⟩, h⟩ := ite_none_right_eq_some.mp h
  obtain ⟨s₁, hw, rfl⟩ := map_eq_some_iff.mp h
  obtain ⟨hle, hpos, rfl⟩ := logWrite_eq_some hw
  obtain ⟨hidle, -⟩ := free_iff.mp hfree
  refine ⟨hs.sound, fun r hr => ?_, hs.gone, fun c hc => ?_⟩
  · exact lt_of_lt_of_le (hs.lsn_lt r hr) (hle.trans (le_add_right _ _))
  · cases hc
    rcases hplace with rfl | rfl
    · exact ⟨hidle, (fun h => by cases h), le_add_right _ _, ⟨hpc, hsnap⟩, (fun h => by cases h)⟩
    · exact ⟨hidle, (fun h => by cases h), zero_le _, ⟨hpc, hsnap⟩, (fun h => by cases h)⟩

/-- The checkpoint ends. -/
lemma Inv.stop (hc : s.ckpt = some c) (hpc : (s.table.session c.session).pc = .idle) :
    Inv { s with table := releaseSnapshot s.table c.session, ckpt := none } := by
  have hk := keeps_releaseSnapshot hs.sound hpc
  refine ⟨hk.sound, hs.lsn_lt, fun r hr => ?_, fun _ h => by cases h⟩
  refine (hs.gone r hr).imp (hk.gone _) fun ⟨j, hj, hrun⟩ => ⟨j, hj, ?_⟩
  have hne : j ≠ c.session := by
    rintro rfl
    simp [(hs.ckpt c hc).own] at hj
  have hsame : (releaseSnapshot s.table c.session).session j = s.table.session j :=
    update_of_ne hne _ s.table.session
  exact (congrArg runId hsame).trans hrun

/-- The start record, and the lock and the snapshots after it. -/
lemma inv_stepCkpt {op : CkptOp} (h : s.stepCkpt i op = some s') : s'.Inv := by
  unfold stepCkpt at h
  rcases hc : s.ckpt with _ | c
  · rw [hc] at h
    cases op with
    | log lsn size => exact inv_startCkpt hs (.inl rfl) h
    | message lsn size => exact inv_startCkpt hs (.inr rfl) h
    | _ => cases h
  rw [hc] at h
  rw [ite_none_left_eq_some] at h
  obtain ⟨hne, h⟩ := h
  obtain rfl : c.session = i := not_not.mp hne
  have hok := hs.ckpt c hc
  have hsnap := hok.snap
  have hkeep := keeps_refl hs
  have hother : ∀ {op t}, s.table.step (c.session, op) = some t → ∀ j, j ≠ c.session →
      t.session j = s.table.session j := fun ht j hj => session_step_of_ne hs.sound ht hj
  -- one case for each place at which the operation is a step
  split at h
  · rename_i hp
    rw [hp] at hsnap
    obtain ⟨hle, h⟩ := ite_none_right_eq_some.mp h
    cases h
    exact hs.ckpt_step hc hkeep (fun _ _ => rfl) rfl hsnap (fun h => by cases h) hle
      fun h => by cases h
  · rename_i hp
    rw [hp] at hsnap
    obtain ⟨hfree, h⟩ := ite_none_right_eq_some.mp h
    cases h
    refine hs.ckpt_step hc hkeep (fun _ _ => rfl) rfl hsnap (fun _ => hfree) hok.lsn_le
      fun _ r hr _ => ?_
    -- no commit is between its record and the table
    refine ⟨(hs.gone r hr).resolve_right ?_, past_of_idle hsnap.1 hsnap.2⟩
    rintro ⟨j, hj, -⟩
    simpa [hj, holds] using hfree j
  · rename_i hp
    rw [hp] at hsnap
    cases h
    exact hs.ckpt_next hc hkeep (fun _ _ => rfl) rfl hsnap (hp ▸ rfl) rfl (by simp)
  · rename_i hp
    obtain ⟨t, ht, rfl⟩ := map_eq_some_iff.mp h
    refine hs.ckpt_next hc (keeps_step hs.sound ht) (hother ht) rfl ?_ (hp ▸ rfl) rfl (by simp)
    obtain ⟨-, ht⟩ := ite_none_right_eq_some.mp ht
    cases ht
    rw [session_set_self]
    exact .inl rfl
  · rename_i hp
    rw [hp] at hsnap
    obtain ⟨t, ht, rfl⟩ := map_eq_some_iff.mp h
    refine hs.ckpt_next hc (keeps_step hs.sound ht) (hother ht) rfl ?_ (hp ▸ rfl) rfl (by simp)
    obtain ⟨⟨hidle, -⟩, ht⟩ := ite_none_right_eq_some.mp ht
    cases ht
    rw [session_set_self]
    refine ⟨.inl rfl, (hsnap.resolve_left ?_).2⟩
    simp [hidle, holdsRead]
  · rename_i hp
    rw [hp] at hsnap
    obtain ⟨t, ht, rfl⟩ := map_eq_some_iff.mp h
    exact hs.ckpt_next hc (keeps_step hs.sound ht) (hother ht) rfl
      (hp ▸ snapOk_advance ht (.inl rfl) hsnap) (hp ▸ rfl) rfl (by simp [hp])
  · rename_i hp
    rw [hp] at hsnap
    obtain ⟨t, ht, rfl⟩ := map_eq_some_iff.mp h
    exact hs.ckpt_next hc (keeps_step hs.sound ht) (hother ht) rfl
      (hp ▸ snapOk_advance ht (.inr (.inl rfl)) hsnap) (hp ▸ rfl) rfl (by simp [hp])
  · rename_i hp
    rw [hp] at hsnap
    obtain ⟨⟨hidle, -⟩, h⟩ := ite_none_right_eq_some.mp h
    cases h
    refine hs.ckpt_next hc (keeps_clearEntry hs.sound hidle)
      (fun j hj => update_of_ne hj _ s.table.session) rfl ?_ (hp ▸ rfl) rfl (by simp)
    unfold clearEntry
    rw [session_set_self]
    exact ⟨hidle, hsnap.2⟩
  · rename_i hp
    rw [hp] at hsnap
    split_ifs at h with hfast
    · cases h
      exact hs.ckpt_next hc hkeep (fun _ _ => rfl) rfl hsnap (hp ▸ rfl) rfl (by simp)
    · obtain ⟨t, ht, rfl⟩ := map_eq_some_iff.mp h
      refine hs.ckpt_next hc (keeps_step hs.sound ht) (hother ht) rfl ?_ (hp ▸ rfl) rfl (by simp)
      obtain ⟨-, ht⟩ := ite_none_right_eq_some.mp ht
      cases ht
      rw [session_set_self]
      exact .inl rfl
  · rename_i hp
    rw [hp] at hsnap
    obtain ⟨t, ht, rfl⟩ := map_eq_some_iff.mp h
    obtain ⟨hk, hsame, hsnap'⟩ := bumpNext_ok hs.sound ht hsnap
    exact hs.ckpt_next hc hk hsame rfl (hp ▸ hsnap') (hp ▸ rfl) rfl (by simp [hp])
  · rename_i hp
    rw [hp] at hsnap
    obtain ⟨hidle, h⟩ := ite_none_right_eq_some.mp h
    cases h
    refine hs.ckpt_next hc hkeep (fun _ _ => rfl) rfl (hsnap.resolve_left ?_) (hp ▸ rfl) rfl
      (by simp)
    simp [hidle, holdsRead]
  · obtain ⟨hcond, h⟩ := ite_none_left_eq_some.mp h
    cases h
    exact hs.stop hc (not_not.mp (not_or.mp hcond).2)
  · cases h

/-! ### Runs -/

lemma inv_step {a : Fin n × CkptAction} (h : s.step a = some s') : s'.Inv := by
  obtain ⟨i, op⟩ := a
  cases op with
  | table op =>
    obtain ⟨hfree, h⟩ := ite_none_right_eq_some.mp h
    obtain ⟨t, ht, rfl⟩ := map_eq_some_iff.mp h
    obtain ⟨hidle, hown⟩ := free_iff.mp hfree
    have h : Inv { s with table := t, commit := update s.commit i (s.commit i) } :=
      hs.commit_step hown (fun h => .inl h) (keeps_step hs.sound ht)
        (fun j hj => session_step_of_ne hs.sound ht hj) fun h => by simp [hidle] at h
    rwa [update_eq_self] at h
  | commit op => exact inv_stepCommit hs h
  | ckpt op => exact inv_stepCkpt hs h

/-- Recovery from the checkpoint, once it has its snapshot, has every transaction that committed:
its record is replayed, or it is visible to the snapshot. -/
def CkptSafe (s : CkptState n) : Prop :=
  ∀ c ∈ s.ckpt, c.place = .taken → ∃ snap, (s.table.session c.session).snap = some snap ∧
    ∀ r ∈ s.records, r.id ∉ s.failed → r.lsn < c.lsn → txnVisibleIdSnapshot r.id snap = true

lemma Inv.ckptSafe : s.CkptSafe := by
  intro c hc htaken
  obtain ⟨-, -, -, hsnap, hpast⟩ := hs.ckpt c hc
  rw [htaken] at hsnap
  obtain ⟨snap, hsome⟩ := ne_none_iff_exists'.mp hsnap.2
  refine ⟨snap, hsome, fun r hr hfailed hlt => ?_⟩
  obtain ⟨-, hp⟩ := hpast (by simp [htaken, CkptAt.passed]) r ⟨hr, hfailed⟩ hlt
  exact hp.snap snap hsome

end Invariant

/-- **The LSN of a checkpoint is safe to recover from**: along every interleaving of commits,
checkpoints and whatever else sessions do with the global table, each transaction whose commit
record is below the checkpoint's LSN is visible to the snapshot of the checkpoint. -/
theorem checkpoint_lsn_safe (n : ℕ) (as : List (Fin n × CkptAction)) :
    Along step CkptSafe (init n) as :=
  (along_of_invariant (fun _ _ _ hs h => inv_step hs h) (inv_init n) as).mono fun _ => Inv.ckptSafe

/-- Session 0 commits; it has released its transaction, and not yet started the commit generation,
when session 1 takes the snapshot of a checkpoint. -/
def commitThenCheckpoint : List (Fin 2 × CkptAction) :=
  [(0, .table .idAlloc), (0, .table .advance), (0, .table .advance), (0, .table .advance),
    (0, .table .advance), (0, .table .advance),
    (0, .commit .begin), (0, .commit .readLock), (0, .commit (.log 128 256)),
    (1, .ckpt (.log 384 128)),
    (0, .commit .release), (0, .commit .releaseNext), (0, .commit .readUnlock),
    (1, .ckpt .writeLock), (1, .ckpt .writeUnlock), (1, .ckpt .begin), (1, .ckpt .next),
    (1, .ckpt .next), (1, .ckpt .next), (1, .ckpt .next), (1, .ckpt .next),
    (1, .ckpt .idCheck), (1, .ckpt .next), (1, .ckpt .next), (1, .ckpt .next), (1, .ckpt .next),
    (1, .ckpt .next), (1, .ckpt .clear), (1, .ckpt .bump)]

example : (run step (init 2) commitThenCheckpoint).map (fun s => (s.ckpt, s.records)) =
    some (some ⟨1, .taken, 384, 1⟩, [⟨1, 128⟩]) := by
  decide +kernel

end CkptState

end WiredTiger
