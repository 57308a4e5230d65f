/-
# The pinned timestamp (`__wt_txn_update_pinned_timestamp`)

The pinned timestamp moves forward under the write lock, after a walk over what the sessions read at.
A session publishes what it reads at under the read lock, after a walk of its own if it may read
before the oldest timestamp, and gives it up under no lock.  So the table changes below both walks.

A step is one access to the table.  The first walk of an update is left out: it only decides whether
there is a second one.
-/
import WiredTiger.Txn.GlobalTimestamp
import WiredTiger.Txn.ReadTimestamp

namespace WiredTiger

open Lib Option

/-! ### Steps -/

/-- A call of `__wt_txn_set_read_timestamp` that has the read lock. -/
structure ReadCall where
  session : ℕ
  txn : ReadTxn
  readTs : ℕ
  checkpoint : ℕ
  /-- What it has read of the table. -/
  seen : List ℕ

def ReadCall.result (c : ReadCall) (oldest : Option ℕ) : ReadTxn × ReadRet :=
  c.txn.txnSetReadTimestamp ⟨oldest, c.checkpoint, c.seen⟩ c.readTs

structure PinnedState where
  ts : GlobalTsState
  /-- `pinned_timestamp`, with `has_pinned_timestamp`. -/
  pinned : Option ℕ
  /-- What the sessions read at; `0` is nothing. -/
  reads : List ℕ
  calls : List ReadCall
  /-- The update that has the write lock: what its walk has found, and the sessions passed. -/
  walk : Option (ℕ × ℕ)

/-- With so many sessions, and nothing set. -/
def PinnedState.init (n : ℕ) : PinnedState := ⟨unsetGlobalTs, none, List.replicate n 0, [], none⟩

inductive PinnedAction
  /-- `__wt_txn_global_set_timestamp`, not forced, up to the write lock. -/
  | call (c : GlobalTs)
  | store (i : ℕ)
  /-- A transaction begins with a timestamp to read at. -/
  | ask (session : ℕ) (txn : ReadTxn) (readTs checkpoint : ℕ)
  | askNext (k : ℕ)
  | publish (k : ℕ)
  /-- A transaction ends. -/
  | release (i : ℕ)
  | lock
  | walkNext
  | unlock

/-- A step.  A call that returns `WT_NOTFOUND` keeps the lock and others wait for ever; here it lets
the lock go, and they may also go on. -/
def pinnedStep (s : PinnedState) : PinnedAction → Option PinnedState
  | .call c => (globalTsStep s.ts (.call c)).map fun ts => { s with ts := ts }
  | .store i =>
    if s.calls = [] ∧ s.walk = none then
      (globalTsStep s.ts (.store i)).map fun ts => { s with ts := ts }
    else none
  | .ask session txn readTs checkpoint =>
    -- a transaction that begins has not failed
    if s.walk = none ∧ txn.flags TxnFlag.error = false then
      some { s with calls := ⟨session, txn, readTs, checkpoint, []⟩ :: s.calls }
    else none
  | .askNext k =>
    s.calls[k]?.bind fun c => s.reads[c.seen.length]?.map fun r =>
      { s with calls := s.calls.set k { c with seen := c.seen ++ [r] } }
  | .publish k =>
    s.calls[k]?.bind fun c =>
      if c.txn.flags TxnFlag.tsReadBeforeOldest → c.seen.length = s.reads.length then
        let (txn, ret) := c.result s.ts.g.oldest
        some { s with
          calls := s.calls.eraseIdx k
          reads := if ret = .ok then s.reads.set c.session txn.readTimestamp else s.reads }
      else none
  | .release i => some { s with reads := s.reads.set i 0 }
  | .lock =>
    if s.calls = [] ∧ s.walk = none then
      s.ts.g.oldest.map fun oldest => { s with walk := some (oldest, 0) }
    else none
  | .walkNext =>
    s.walk.bind fun w => s.reads[w.2]?.map fun r =>
      { s with walk := some (pinnedWalk w.1 [r], w.2 + 1) }
  | .unlock =>
    s.walk.bind fun w =>
      if w.2 = s.reads.length then
        some { s with walk := none, pinned := moveForward false (some w.1) s.pinned }
      else none

/-! ### The bound -/

/-- The timestamp is no later than the oldest one, nor than those that are read at. -/
def PinsAt (oldest : Option ℕ) (reads : List ℕ) (t : ℕ) : Prop :=
  (∃ o ∈ oldest, t ≤ o) ∧ ∀ r ∈ reads, r ≠ 0 → t ≤ r

lemma PinsAt.set {oldest : Option ℕ} {reads : List ℕ} {t r : ℕ} (h : PinsAt oldest reads t) (i : ℕ)
    (hr : r ≠ 0 → t ≤ r) : PinsAt oldest (reads.set i r) t := by
  refine ⟨h.1, fun r' hr' => ?_⟩
  rcases List.mem_or_eq_of_mem_set hr' with hr' | rfl
  · exact h.2 r' hr'
  · exact hr

/-- What is published is no earlier than what the oldest timestamp and those that were seen are. -/
lemma ReadCall.le_result {c : ReadCall} {oldest : Option ℕ} {t : ℕ} (h0 : oldest ≠ some 0)
    (herr : c.txn.flags TxnFlag.error = false) (h : PinsAt oldest c.seen t)
    (hok : (c.result oldest).2 = .ok) : t ≤ (c.result oldest).1.readTimestamp := by
  have hpub : ∀ (x : ReadTxn) ts, t ≤ ts → (x.publishRead c.readTs ts).2 = .ok →
      t ≤ (x.publishRead c.readTs ts).1.readTimestamp := by
    intro x ts hle hok
    unfold ReadTxn.publishRead at hok ⊢
    dsimp only at hok ⊢
    by_cases hlt : c.readTs < ts ∧ x.flags TxnFlag.tsRoundRead = false
    · simp [hlt] at hok
    · rw [if_neg hlt]
      show t ≤ if c.readTs < ts then ts else c.readTs
      split_ifs <;> omega
  obtain ⟨o, rfl, ho⟩ := h.1
  unfold ReadCall.result ReadTxn.txnSetReadTimestamp at hok ⊢
  dsimp only at hok ⊢
  split_ifs at hok ⊢
  · -- the helper counts the oldest timestamp or what was seen
    rcases TsTable.getPinned_spec ⟨some o, c.checkpoint, c.seen⟩
      (Function.update c.txn.flags tsAlreadyLocked true) with ⟨hts, -⟩ | ⟨ts, hts, hfinds, hle⟩
    · simp [hts] at hok
    rw [hts] at hok ⊢
    refine hpub _ ts ?_ hok
    have hckpt : Function.update c.txn.flags tsAlreadyLocked true tsIncludeCkpt = false := herr
    simp only [TsTable.Finds, TsTable.considered, hckpt, Bool.false_eq_true, if_false,
      List.append_nil, List.mem_append] at hfinds hle
    rcases (hle ts).mp (Nat.le_refl ts) with hzero | ⟨x, hx, hne, hxts⟩
    · split_ifs at hfinds hzero
      · exact absurd (congrArg some (hzero o (by simp))) h0
      · obtain ⟨x, hx, hne⟩ := hfinds
        exact absurd (hzero x (by simpa using hx)) hne
    · refine Nat.le_trans ?_ hxts
      split_ifs at hx
      · rcases List.mem_cons.mp hx with rfl | hx
        · exact ho
        · exact h.2 x hx hne
      · exact h.2 x hx hne
  · exact hpub _ o ho hok

namespace PinnedState

variable {s t : PinnedState}

structure Inv (s : PinnedState) : Prop where
  oldest : s.ts.g.oldest ≠ some 0
  pending : ∀ p ∈ s.ts.pending, p.oldest ≠ some 0
  pinned : ∀ p ∈ s.pinned, PinsAt s.ts.g.oldest s.reads p
  calls : ∀ c ∈ s.calls, c.txn.flags TxnFlag.error = false ∧
    ∀ p ∈ s.pinned, ∀ r ∈ c.seen, r ≠ 0 → p ≤ r
  walk : ∀ w ∈ s.walk, s.calls = [] ∧ w.1 ≠ 0 ∧ PinsAt s.ts.g.oldest (s.reads.take w.2) w.1

lemma forall_mem_of_eq_none {α : Type*} {o : Option α} {P : α → Prop} (h : o = none) :
    ∀ x ∈ o, P x := by
  intro x hx
  cases h ▸ hx

lemma inv_init (n : ℕ) : (init n).Inv where
  oldest h := by cases h
  pending := List.forall_mem_nil _
  pinned := forall_mem_of_eq_none rfl
  calls := List.forall_mem_nil _
  walk := forall_mem_of_eq_none rfl

/-- While a call has the read lock, no update has the write lock. -/
lemma Inv.walk_eq_none (h : s.Inv) {k : ℕ} {c : ReadCall} (hc : s.calls[k]? = some c) :
    s.walk = none := by
  refine eq_none_iff_forall_not_mem.mpr fun w hw => ?_
  rw [(h.walk w hw).1] at hc
  cases hc

lemma Inv.call {c : GlobalTs} (h : s.Inv) (ht : pinnedStep s (.call c) = some t) : t.Inv := by
  obtain ⟨ts, hts, rfl⟩ := map_eq_some_iff.mp ht
  rcases globalTsStep_cases hts with ⟨c', -, rfl | ⟨p, hp, rfl⟩⟩ | ⟨i, p, hcall, -⟩
  · exact h
  · refine { h with pending := List.forall_mem_append.mpr ⟨h.pending, ?_⟩ }
    exact List.forall_mem_singleton.mpr (of_beginGlobalSetTimestamp hp).2.2
  · cases hcall

/-- The oldest timestamp only moves forward. -/
lemma Inv.store {i : ℕ} (h : s.Inv) (ht : pinnedStep s (.store i) = some t) : t.Inv := by
  obtain ⟨⟨-, hwalk⟩, ht⟩ := ite_none_right_eq_some.mp ht
  obtain ⟨ts, hts, rfl⟩ := map_eq_some_iff.mp ht
  rcases globalTsStep_cases hts with ⟨c, hcall, -⟩ | ⟨j, p, -, hp, rfl⟩
  · cases hcall
  obtain ⟨hfwd, -, hor⟩ := moveForward_spec p.oldest s.ts.g.oldest
  refine { h with
    oldest := ?_
    pending := fun q hq => h.pending q (List.mem_of_mem_eraseIdx hq)
    pinned := fun q hq => ?_
    walk := forall_mem_of_eq_none hwalk }
  · rcases hor with heq | heq
    · exact fun h0 => h.pending p (List.mem_of_getElem? hp) (heq.symm.trans h0)
    · exact fun h0 => h.oldest (heq.symm.trans h0)
  · obtain ⟨⟨o, ho, hle⟩, hreads⟩ := h.pinned q hq
    obtain ⟨o', ho', hoo⟩ := hfwd o ho
    exact ⟨⟨o', ho', Nat.le_trans hle hoo⟩, hreads⟩

lemma Inv.ask {session readTs checkpoint : ℕ} {txn : ReadTxn} (h : s.Inv)
    (ht : pinnedStep s (.ask session txn readTs checkpoint) = some t) : t.Inv := by
  obtain ⟨⟨hwalk, herr⟩, ht⟩ := ite_none_right_eq_some.mp ht
  cases ht
  exact { h with
    calls := List.forall_mem_cons.mpr ⟨⟨herr, fun _ _ => List.forall_mem_nil _⟩, h.calls⟩
    walk := forall_mem_of_eq_none hwalk }

lemma Inv.askNext {k : ℕ} (h : s.Inv) (ht : pinnedStep s (.askNext k) = some t) : t.Inv := by
  obtain ⟨c, hc, ht⟩ := bind_eq_some_iff.mp ht
  obtain ⟨r, hr, rfl⟩ := map_eq_some_iff.mp ht
  obtain ⟨herr, hseen⟩ := h.calls c (List.mem_of_getElem? hc)
  refine { h with
    calls := fun c' hc' => ?_
    walk := forall_mem_of_eq_none (h.walk_eq_none hc) }
  rcases List.mem_or_eq_of_mem_set hc' with hc' | rfl
  · exact h.calls c' hc'
  · exact ⟨herr, fun p hp => List.forall_mem_append.mpr ⟨hseen p hp,
      List.forall_mem_singleton.mpr ((h.pinned p hp).2 r (List.mem_of_getElem? hr))⟩⟩

lemma Inv.publish {k : ℕ} (h : s.Inv) (ht : pinnedStep s (.publish k) = some t) : t.Inv := by
  simp only [pinnedStep] at ht
  obtain ⟨c, hc, ht⟩ := bind_eq_some_iff.mp ht
  obtain ⟨-, ht⟩ := ite_none_right_eq_some.mp ht
  cases ht
  obtain ⟨herr, hseen⟩ := h.calls c (List.mem_of_getElem? hc)
  refine { h with
    pinned := fun p hp => ?_
    calls := fun c' hc' => h.calls c' (List.mem_of_mem_eraseIdx hc')
    walk := forall_mem_of_eq_none (h.walk_eq_none hc) }
  have hpin := h.pinned p hp
  dsimp only
  split_ifs with hok
  · exact hpin.set _ fun _ => ReadCall.le_result h.oldest herr ⟨hpin.1, hseen p hp⟩ hok
  · exact hpin

/-- A session that a walk has passed may still give up what it reads at. -/
lemma Inv.release {i : ℕ} (h : s.Inv) (ht : pinnedStep s (.release i) = some t) : t.Inv := by
  cases ht
  refine { h with
    pinned := fun p hp => (h.pinned p hp).set i fun h0 => absurd rfl h0
    walk := fun w hw => ?_ }
  obtain ⟨hcalls, hne, hw⟩ := h.walk w hw
  refine ⟨hcalls, hne, ?_⟩
  rw [List.take_set]
  exact hw.set i fun h0 => absurd rfl h0

lemma Inv.lock (h : s.Inv) (ht : pinnedStep s .lock = some t) : t.Inv := by
  obtain ⟨⟨hcalls, -⟩, ht⟩ := ite_none_right_eq_some.mp ht
  obtain ⟨o, ho, rfl⟩ := map_eq_some_iff.mp ht
  refine { h with walk := fun w hw => ?_ }
  cases hw
  exact ⟨hcalls, fun h0 => h.oldest (h0 ▸ ho), ⟨o, ho, Nat.le_refl o⟩, List.forall_mem_nil _⟩

lemma Inv.walkNext (h : s.Inv) (ht : pinnedStep s .walkNext = some t) : t.Inv := by
  obtain ⟨w, hw, ht⟩ := bind_eq_some_iff.mp ht
  obtain ⟨r, hr, rfl⟩ := map_eq_some_iff.mp ht
  obtain ⟨hcalls, hne, ⟨o, ho, hle⟩, hreads⟩ := h.walk w hw
  have hstep : pinnedWalk w.1 [r] ≠ 0 ∧ pinnedWalk w.1 [r] ≤ w.1 ∧
      (r ≠ 0 → pinnedWalk w.1 [r] ≤ r) := by
    simp only [pinnedWalk, List.foldl_cons, List.foldl_nil]
    split_ifs <;> omega
  refine { h with walk := fun w' hw' => ?_ }
  cases hw'
  refine ⟨hcalls, hstep.1, ⟨o, ho, Nat.le_trans hstep.2.1 hle⟩, ?_⟩
  dsimp only
  rw [List.take_add_one, hr]
  exact List.forall_mem_append.mpr ⟨fun x hx hx0 => Nat.le_trans hstep.2.1 (hreads x hx hx0),
    List.forall_mem_singleton.mpr hstep.2.2⟩

/-- A walk that is at the end has seen all that is read at. -/
lemma Inv.unlock (h : s.Inv) (ht : pinnedStep s .unlock = some t) : t.Inv := by
  obtain ⟨w, hw, ht⟩ := bind_eq_some_iff.mp ht
  obtain ⟨hend, ht⟩ := ite_none_right_eq_some.mp ht
  cases ht
  obtain ⟨hcalls, -, hpin⟩ := h.walk w hw
  refine { h with
    pinned := fun p hp => ?_
    calls := fun c hc => ?_
    walk := forall_mem_of_eq_none rfl }
  · rcases (moveForward_spec (some w.1) s.pinned).2.2 with heq | heq
    · cases heq.symm.trans hp
      rwa [hend, List.take_length] at hpin
    · exact h.pinned p (heq ▸ hp)
  · rw [hcalls] at hc
    cases hc

lemma Inv.step {a : PinnedAction} (h : s.Inv) (ht : pinnedStep s a = some t) : t.Inv := by
  cases a with
  | call c => exact h.call ht
  | store i => exact h.store ht
  | ask session txn readTs checkpoint => exact h.ask ht
  | askNext k => exact h.askNext ht
  | publish k => exact h.publish ht
  | release i => exact h.release ht
  | lock => exact h.lock ht
  | walkNext => exact h.walkNext ht
  | unlock => exact h.unlock ht

/-- Only the end of an update changes the pinned timestamp. -/
lemma notBehind_pinnedStep {a : PinnedAction} (ht : pinnedStep s a = some t) :
    NotBehind s.pinned t.pinned := by
  cases a <;>
    simp only [pinnedStep, bind_eq_some_iff, map_eq_some_iff, ite_none_right_eq_some,
      some.injEq] at ht
  case unlock =>
    obtain ⟨w, -, -, rfl⟩ := ht
    exact (moveForward_spec (some w.1) s.pinned).1
  all_goals grind [notBehind_refl]

end PinnedState

/-- **The pinned timestamp is a bound.**  In every run it is no later than the oldest timestamp, nor
than the read timestamp of a transaction that is active; and it never moves backward. -/
theorem pinnedTimestamp_bound {n : ℕ} {as as' : List PinnedAction} {s t : PinnedState}
    (h : run pinnedStep (.init n) as = some s) (h' : run pinnedStep s as' = some t) :
    (∀ p ∈ s.pinned, (∃ o ∈ s.ts.g.oldest, p ≤ o) ∧ ∀ r ∈ s.reads, r ≠ 0 → p ≤ r) ∧
      NotBehind s.pinned t.pinned := by
  have hs : s.Inv := run_invariant (fun _ _ _ h ht => h.step ht) (PinnedState.inv_init n) h
  have hstep : ∀ u a v, NotBehind s.pinned u.pinned → pinnedStep u a = some v →
      NotBehind s.pinned v.pinned :=
    fun _ _ _ hle hv => hle.trans (PinnedState.notBehind_pinnedStep hv)
  exact ⟨hs.pinned, run_invariant hstep (notBehind_refl _) h'⟩

/-- A transaction reads at timestamp 25, and ends while an update passes over its session. -/
def releaseRun : List PinnedAction :=
  [.call ⟨none, some 20, none⟩, .store 0, .ask 0 (.begun []) 25 0, .publish 0, .lock, .walkNext,
    .release 0, .unlock]

/-- An update after the oldest timestamp has been set to 30. -/
def updateRun : List PinnedAction :=
  [.call ⟨none, some 30, none⟩, .store 0, .lock, .walkNext, .unlock]

theorem pinnedTimestamp_bound_release :
    ∃ s t, run pinnedStep (.init 1) releaseRun = some s ∧ run pinnedStep s updateRun = some t ∧
      s.pinned = some 20 ∧ t.pinned = some 30 ∧
      (∀ p ∈ s.pinned, (∃ o ∈ s.ts.g.oldest, p ≤ o) ∧ ∀ r ∈ s.reads, r ≠ 0 → p ≤ r) ∧
      NotBehind s.pinned t.pinned := by
  obtain ⟨s, hs, hs20, t, ht, ht30⟩ : ∃ s, run pinnedStep (.init 1) releaseRun = some s ∧
      s.pinned = some 20 ∧ ∃ t, run pinnedStep s updateRun = some t ∧ t.pinned = some 30 := by
    refine ⟨_, rfl, rfl, ?_⟩
    exact ⟨_, rfl, rfl⟩
  exact ⟨s, t, hs, ht, hs20, ht30, pinnedTimestamp_bound hs ht⟩

end WiredTiger
