/-
# The global timestamps (`__wt_txn_global_set_timestamp`)

The oldest timestamp is to be no later than the stable one, whenever both are set.  A call checks
its timestamps against the global ones under the read lock, lets the lock go, and stores them under
the write lock; other calls may store in between, and the second lock is not followed by a second
check of the order.
-/
import WiredTiger.Lib.Run

namespace WiredTiger

open Lib Option List

/-! ### The call -/

/-- The global timestamps; `none` is one that is not set.  The same for the timestamps of a call,
with `none` for one the call does not set. -/
structure GlobalTs where
  durable : Option ℕ
  oldest : Option ℕ
  stable : Option ℕ
  deriving DecidableEq, Repr

variable {g p : GlobalTs}

/-- The errors of a call, all `EINVAL` but for their texts. -/
inductive GlobalTsError
  /-- `Failed to parse %s timestamp: zero not permitted` -/
  | zeroNotPermitted
  /-- `set_timestamp: oldest timestamp %s must not be later than durable timestamp %s` -/
  | oldestAfterDurable
  /-- `set_timestamp: stable timestamp %s must not be later than durable timestamp %s` -/
  | stableAfterDurable
  /-- `set_timestamp: oldest timestamp %s must not be later than stable timestamp %s` -/
  | oldestAfterStable
  deriving DecidableEq, Repr

/-- Both timestamps are there, and the first is later. -/
def laterThan (a b : Option ℕ) : Bool :=
  match a, b with
  | some x, some y => y < x
  | _, _ => false

/-- It is a no-op to set a timestamp behind the global value. -/
def dropBehind (new cur : Option ℕ) : Option ℕ :=
  match new, cur with
  | some n, some c => if n ≤ c then none else some n
  | _, _ => new

/-- The timestamps of a call without those behind the global ones. -/
def GlobalTs.dropBehind (c g : GlobalTs) : GlobalTs :=
  { c with
    oldest := WiredTiger.dropBehind c.oldest g.oldest
    stable := WiredTiger.dropBehind c.stable g.stable }

/-- The test of the order: a timestamp that is not passed in is taken from the system. -/
def orderFails (g c : GlobalTs) : Bool :=
  (c.oldest.isSome || c.stable.isSome) && laterThan (c.oldest.or g.oldest) (c.stable.or g.stable)

/-- The part of the call under the read lock, for one that is not forced.  There is `none` if there
is nothing to set. -/
def checkGlobalTimestamp (g c : GlobalTs) : Except GlobalTsError (Option GlobalTs) :=
  let c := c.dropBehind g
  if c.durable.isSome && laterThan (c.oldest.or g.oldest) c.durable then
    .error .oldestAfterDurable
  else if c.durable.isSome && laterThan (c.stable.or g.stable) c.durable then
    .error .stableAfterDurable
  else if orderFails g c then .error .oldestAfterStable
  else if c.durable.isNone && c.oldest.isNone && c.stable.isNone then .ok none
  else .ok (some c)

/-- The call up to the write lock. -/
def beginGlobalSetTimestamp (force : Bool) (g c : GlobalTs) :
    Except GlobalTsError (Option GlobalTs) :=
  if c.durable.isNone && c.oldest.isNone && c.stable.isNone then .ok none
  else if c.durable = some 0 ∨ c.oldest = some 0 ∨ c.stable = some 0 then .error .zeroNotPermitted
  else if force then .ok (some c)
  else checkGlobalTimestamp g c

/-- A timestamp moves forward, or anywhere if it is forced to. -/
def moveForward (force : Bool) (new cur : Option ℕ) : Option ℕ :=
  match new, cur with
  | some n, some c => if force || c < n then some n else some c
  | some n, none => some n
  | none, _ => cur

/-- The part of the call under the write lock.  The durable timestamp may move backward. -/
def storeGlobalTimestamp (force : Bool) (g c : GlobalTs) : GlobalTs where
  durable := c.durable.or g.durable
  oldest := moveForward force c.oldest g.oldest
  stable := moveForward force c.stable g.stable

/-! ### Concurrent calls -/

/-- The global timestamps, and the calls that have let go the read lock and are to store. -/
structure GlobalTsState where
  g : GlobalTs
  pending : List GlobalTs
  deriving DecidableEq, Repr

inductive GlobalTsAction
  /-- A call is made, up to the write lock. -/
  | call (c : GlobalTs)
  /-- A pending call stores. -/
  | store (i : ℕ)
  deriving DecidableEq, Repr

/-- A step of calls that are not forced. -/
def globalTsStep (s : GlobalTsState) : GlobalTsAction → Option GlobalTsState
  | .call c =>
    match beginGlobalSetTimestamp false s.g c with
    | .ok (some p) => some { s with pending := s.pending ++ [p] }
    | _ => some s
  | .store i =>
    match s.pending[i]? with
    | some p => some ⟨storeGlobalTimestamp false s.g p, s.pending.eraseIdx i⟩
    | none => none

/-! ### The order of the oldest and the stable timestamp -/

/-- The oldest timestamp is no later than the stable one. -/
def GlobalTs.Ordered (g : GlobalTs) : Prop :=
  ∀ o ∈ g.oldest, ∀ s ∈ g.stable, o ≤ s

/-- A timestamp that is set stays so, and does not move backward. -/
def NotBehind (cur new : Option ℕ) : Prop :=
  ∀ c ∈ cur, ∃ n ∈ new, c ≤ n

/-- The order is tested again in storing. -/
def GlobalTsAction.Allowed (s : GlobalTsState) : GlobalTsAction → Prop
  | .call _ => True
  | .store i => ∀ p ∈ s.pending[i]?, orderFails s.g (p.dropBehind s.g) = false

lemma laterThan_eq_false_iff {a b : Option ℕ} :
    laterThan a b = false ↔ ∀ x ∈ a, ∀ y ∈ b, x ≤ y := by
  cases a <;> cases b <;> simp [laterThan]

lemma moveForward_eq (new cur : Option ℕ) :
    moveForward false new cur = (dropBehind new cur).or cur := by
  cases new with
  | none => rfl
  | some n =>
    cases cur with
    | none => rfl
    | some c =>
      rcases Nat.lt_or_ge c n with h | h
      · simp [moveForward, dropBehind, h, Nat.not_le.mpr h]
      · simp [moveForward, dropBehind, h, Nat.not_lt.mpr h]

lemma notBehind_refl (cur : Option ℕ) : NotBehind cur cur := fun c hc => ⟨c, hc, Nat.le_refl c⟩

lemma NotBehind.trans {a b c : Option ℕ} (hab : NotBehind a b) (hbc : NotBehind b c) :
    NotBehind a c := by
  intro x hx
  obtain ⟨y, hy, hxy⟩ := hab x hx
  obtain ⟨z, hz, hyz⟩ := hbc y hy
  exact ⟨z, hz, Nat.le_trans hxy hyz⟩

/-- A timestamp that moves forward reaches the new value as well, and is one of the two. -/
lemma moveForward_spec (new cur : Option ℕ) :
    NotBehind cur (moveForward false new cur) ∧ NotBehind new (moveForward false new cur) ∧
      (moveForward false new cur = new ∨ moveForward false new cur = cur) := by
  cases new with
  | none => exact ⟨notBehind_refl cur, by rintro n ⟨⟩, .inr rfl⟩
  | some n =>
    cases cur with
    | none => exact ⟨by rintro c ⟨⟩, notBehind_refl _, .inl rfl⟩
    | some c =>
      rcases Nat.lt_or_ge c n with h | h
      · have heq : moveForward false (some n) (some c) = some n := by simp [moveForward, h]
        rw [heq]
        refine ⟨?_, notBehind_refl _, .inl rfl⟩
        rintro _ ⟨⟩
        exact ⟨n, rfl, Nat.le_of_lt h⟩
      · have heq : moveForward false (some n) (some c) = some c := by
          simp [moveForward, Nat.not_lt.mpr h]
        rw [heq]
        refine ⟨notBehind_refl _, ?_, .inr rfl⟩
        rintro _ ⟨⟩
        exact ⟨c, rfl, h⟩

/-- Storing keeps the order exactly if the test of the order passes at the store. -/
lemma ordered_store_iff (h : g.Ordered) :
    (storeGlobalTimestamp false g p).Ordered ↔ orderFails g (p.dropBehind g) = false := by
  have hiff : (storeGlobalTimestamp false g p).Ordered ↔
      laterThan ((dropBehind p.oldest g.oldest).or g.oldest)
        ((dropBehind p.stable g.stable).or g.stable) = false := by
    rw [← moveForward_eq, ← moveForward_eq, laterThan_eq_false_iff]
    rfl
  rw [hiff]
  unfold orderFails GlobalTs.dropBehind
  cases ho : dropBehind p.oldest g.oldest with
  | some o => simp
  | none =>
    cases hs : dropBehind p.stable g.stable with
    | some s => simp
    | none =>
      have : laterThan g.oldest g.stable = false := laterThan_eq_false_iff.mpr h
      simp [this]

section

variable {a : GlobalTsAction} {s t : GlobalTsState} (h : globalTsStep s a = some t)
include h

/-- What a step does: nothing, another pending call, or a store. -/
lemma globalTsStep_cases :
    (∃ c, a = .call c ∧ (t = s ∨ ∃ p, beginGlobalSetTimestamp false s.g c = .ok (some p) ∧
      t = { s with pending := s.pending ++ [p] })) ∨
    ∃ i p, a = .store i ∧ s.pending[i]? = some p ∧
      t = ⟨storeGlobalTimestamp false s.g p, s.pending.eraseIdx i⟩ := by
  cases a with
  | call c =>
    refine .inl ⟨c, rfl, ?_⟩
    unfold globalTsStep at h
    dsimp only at h
    split at h
    · next p hp => exact .inr ⟨p, hp, (some.inj h).symm⟩
    · exact .inl (some.inj h).symm
  | store i =>
    refine .inr ?_
    unfold globalTsStep at h
    dsimp only at h
    split at h
    · next p hp => exact ⟨i, p, rfl, hp, (some.inj h).symm⟩
    · cases h

/-- A step moves neither timestamp backward. -/
lemma notBehind_step : NotBehind s.g.oldest t.g.oldest ∧ NotBehind s.g.stable t.g.stable := by
  rcases globalTsStep_cases h with ⟨c, -, rfl | ⟨p, -, rfl⟩⟩ | ⟨i, p, -, -, rfl⟩
  · exact ⟨notBehind_refl _, notBehind_refl _⟩
  · exact ⟨notBehind_refl _, notBehind_refl _⟩
  · exact ⟨(moveForward_spec _ _).1, (moveForward_spec _ _).1⟩

end

/-- **The oldest timestamp and the stable one, under concurrent calls.**  From ordered timestamps,
they stay in order along an interleaving exactly if the test of the order, made under the read
lock, passes at each store as well; and neither moves backward, in any interleaving. -/
theorem globalTimestamps_ordered {s : GlobalTsState} (hs : s.g.Ordered)
    (as : List GlobalTsAction) :
    (Along globalTsStep (fun s => s.g.Ordered) s as ↔
      AllSteps globalTsStep GlobalTsAction.Allowed s as) ∧
    ∀ t, run globalTsStep s as = some t →
      NotBehind s.g.oldest t.g.oldest ∧ NotBehind s.g.stable t.g.stable := by
  constructor
  · refine along_iff_allSteps (I := GlobalTs.Ordered ∘ GlobalTsState.g) (fun s hs => hs) ?_ ?_ hs as
    · intro s a t hs ha hstep
      rcases globalTsStep_cases hstep with ⟨c, -, rfl | ⟨p, -, rfl⟩⟩ | ⟨i, p, rfl, hp, rfl⟩
      · exact hs
      · exact hs
      · exact (ordered_store_iff hs).mpr (ha p hp)
    · intro s a t hs hstep ht
      rcases globalTsStep_cases hstep with ⟨c, rfl, -⟩ | ⟨i, p, rfl, hp, rfl⟩
      · trivial
      · intro p' hp'
        obtain rfl : p = p' := some.inj (hp.symm.trans hp')
        exact (ordered_store_iff hs).mp ht
  · intro t ht
    have hstep : ∀ u a v, NotBehind s.g.oldest u.g.oldest ∧ NotBehind s.g.stable u.g.stable →
        globalTsStep u a = some v →
        NotBehind s.g.oldest v.g.oldest ∧ NotBehind s.g.stable v.g.stable := by
      rintro u a v ⟨ho, hst⟩ hv
      obtain ⟨ho', hst'⟩ := notBehind_step hv
      exact ⟨ho.trans ho', hst.trans hst'⟩
    exact run_invariant hstep ⟨notBehind_refl _, notBehind_refl _⟩ ht

/-- Nothing is set, and no call is made. -/
def unsetGlobalTs : GlobalTsState := ⟨⟨none, none, none⟩, []⟩

lemma unsetGlobalTs_ordered : unsetGlobalTs.g.Ordered := by
  rintro o ⟨⟩

/-- From timestamps that are not set. -/
theorem globalTimestamps_ordered_unset :
    unsetGlobalTs.g.Ordered ∧
      ((Along globalTsStep (fun s => s.g.Ordered) unsetGlobalTs
          [.call ⟨none, some 10, some 20⟩, .store 0] ↔
        AllSteps globalTsStep GlobalTsAction.Allowed unsetGlobalTs
          [.call ⟨none, some 10, some 20⟩, .store 0])) :=
  ⟨unsetGlobalTs_ordered, (globalTimestamps_ordered unsetGlobalTs_ordered _).1⟩

/-- Two calls, one with an oldest timestamp of 20 and the other with a stable one of 10: each finds
the other timestamp not set, and both store. -/
theorem oldest_passes_stable :
    run globalTsStep unsetGlobalTs
        [.call ⟨none, some 20, none⟩, .call ⟨none, none, some 10⟩, .store 0, .store 0] =
      some ⟨⟨none, some 20, some 10⟩, []⟩ ∧
    ¬ (⟨none, some 20, some 10⟩ : GlobalTs).Ordered := by
  constructor
  · decide
  · intro h
    exact absurd (h 20 rfl 10 rfl) (by decide)

/-! ### With a stable timestamp that is set

The order can only be lost while the stable timestamp is not set: after that, what a call has
checked its oldest timestamp against can only move forward. -/

/-- The oldest timestamp of a pending call is no later than the stable one, or than its own. -/
def GlobalTs.Bounded (g p : GlobalTs) : Prop :=
  ∀ o ∈ p.oldest, (∃ s ∈ g.stable, o ≤ s) ∨ ∃ s ∈ p.stable, o ≤ s

structure GlobalTsState.Inv (s : GlobalTsState) : Prop where
  stable : s.g.stable.isSome
  ordered : s.g.Ordered
  bounded : ∀ p ∈ s.pending, s.g.Bounded p

section

variable {c : GlobalTs} (h : beginGlobalSetTimestamp false g c = .ok (some p))
include h

/-- A call that is to store has passed the test of the order, and sets no zero. -/
lemma of_beginGlobalSetTimestamp :
    p = c.dropBehind g ∧ orderFails g p = false ∧ p.oldest ≠ some 0 := by
  unfold beginGlobalSetTimestamp checkGlobalTimestamp at h
  dsimp only at h
  split_ifs at h with h1 h2 h3 h4 h5 hfails h7
  all_goals cases h
  · exact h3.elim
  · refine ⟨rfl, Bool.eq_false_iff.mpr hfails, fun h0 => h2 (.inr (.inl ?_))⟩
    unfold GlobalTs.dropBehind dropBehind at h0
    split at h0
    · split_ifs at h0
      rw [← h0]
      assumption
    · exact h0

lemma bounded_of_begin (hg : g.stable.isSome) : g.Bounded p := by
  have hfails := (of_beginGlobalSetTimestamp h).2.1
  intro o ho
  -- the test has compared the oldest timestamp with the stable one in effect
  have hcmp : laterThan (some o) (p.stable.or g.stable) = false := by
    rw [mem_def] at ho
    simpa [orderFails, ho] using hfails
  rw [laterThan_eq_false_iff] at hcmp
  cases hs : p.stable with
  | some s => exact .inr ⟨s, rfl, hcmp o rfl s (by simp [hs])⟩
  | none =>
    obtain ⟨s, hgs⟩ := isSome_iff_exists.mp hg
    exact .inl ⟨s, hgs, hcmp o rfl s (by simp [hs, hgs])⟩

omit h in
/-- Storing a call that is bounded keeps the order. -/
lemma ordered_store (hg : g.stable.isSome) (h : g.Ordered) (hp : g.Bounded p) :
    (storeGlobalTimestamp false g p).Ordered := by
  intro o ho s hs
  have hle : ∀ {x : ℕ}, (∃ y ∈ (storeGlobalTimestamp false g p).stable, x ≤ y) → x ≤ s := by
    rintro x ⟨y, hy, hxy⟩
    obtain rfl : s = y := some.inj (hs.symm.trans hy)
    exact hxy
  have hcur : ∀ x, (∃ y ∈ g.stable, x ≤ y) → x ≤ s := by
    rintro x ⟨y, hy, hxy⟩
    exact Nat.le_trans hxy (hle ((moveForward_spec p.stable g.stable).1 y hy))
  rcases (moveForward_spec p.oldest g.oldest).2.2 with heq | heq
  · have ho' : o ∈ p.oldest := heq ▸ ho
    rcases hp o ho' with hb | ⟨y, hy, hoy⟩
    · exact hcur o hb
    · exact Nat.le_trans hoy (hle ((moveForward_spec p.stable g.stable).2.1 y hy))
  · have ho' : o ∈ g.oldest := heq ▸ ho
    obtain ⟨y, hy⟩ := isSome_iff_exists.mp hg
    exact hcur o ⟨y, hy, h o ho' y hy⟩

omit h in
lemma globalTsStep_inv {s t : GlobalTsState} {a : GlobalTsAction} (hs : s.Inv)
    (h : globalTsStep s a = some t) : t.Inv := by
  rcases globalTsStep_cases h with ⟨c, -, rfl | ⟨p, hp, rfl⟩⟩ | ⟨i, p, -, hp, rfl⟩
  · exact hs
  · refine ⟨hs.stable, hs.ordered, fun q hq => ?_⟩
    rcases mem_append.mp hq with hq | hq
    · exact hs.bounded q hq
    · rw [mem_singleton.mp hq]
      exact bounded_of_begin hp hs.stable
  · have hfwd := (moveForward_spec p.stable s.g.stable).1
    refine ⟨?_, ordered_store hs.stable hs.ordered
      (hs.bounded p (mem_of_getElem? hp)), fun q hq o ho => ?_⟩
    · obtain ⟨y, hy⟩ := isSome_iff_exists.mp hs.stable
      obtain ⟨z, hz, -⟩ := hfwd y hy
      exact isSome_iff_exists.mpr ⟨z, hz⟩
    · rcases hs.bounded q (mem_of_mem_eraseIdx hq) o ho with ⟨y, hy, hoy⟩ | hb
      · obtain ⟨z, hz, hyz⟩ := hfwd y hy
        exact .inl ⟨z, hz, Nat.le_trans hoy hyz⟩
      · exact .inr hb

omit h in
lemma dropBehind_dropBehind (new cur : Option ℕ) :
    dropBehind (dropBehind new cur) cur = dropBehind new cur := by
  cases new with
  | none => rfl
  | some n =>
    cases cur with
    | none => rfl
    | some c =>
      rcases Nat.lt_or_ge c n with h | h
      · simp [dropBehind, Nat.not_le.mpr h]
      · simp [dropBehind, h]

/-- A call that nothing comes between keeps the order. -/
lemma ordered_store_of_begin (hg : g.Ordered) : (storeGlobalTimestamp false g p).Ordered := by
  obtain ⟨rfl, hfails, -⟩ := of_beginGlobalSetTimestamp h
  rw [ordered_store_iff hg]
  have : (c.dropBehind g).dropBehind g = c.dropBehind g := by
    simp [GlobalTs.dropBehind, dropBehind_dropBehind]
  rw [this]
  exact hfails

end

/-- **Once the stable timestamp is set** the oldest one does not pass it, in any interleaving of
calls that begin after that. -/
theorem globalTimestamps_ordered_of_stable (hg : g.stable.isSome) (h : g.Ordered)
    (as : List GlobalTsAction) : Along globalTsStep (fun s => s.g.Ordered) ⟨g, []⟩ as := by
  have hinv : Along globalTsStep GlobalTsState.Inv ⟨g, []⟩ as :=
    along_of_invariant (fun _ _ _ => globalTsStep_inv) ⟨hg, h, by simp⟩ as
  exact hinv.mono fun s hs => hs.ordered

theorem globalTimestamps_ordered_of_stable_crossing :
    Along globalTsStep (fun s => s.g.Ordered) ⟨⟨none, some 10, some 20⟩, []⟩
      [.call ⟨none, some 20, none⟩, .call ⟨none, none, some 15⟩, .store 1, .store 0] :=
  globalTimestamps_ordered_of_stable rfl (by rintro _ ⟨⟩ _ ⟨⟩; decide) _

end WiredTiger
