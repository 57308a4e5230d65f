/-
# Which snapshots are complete

A snapshot is complete if it does not see any other transaction that is still running.  That is
lost exactly if a walk passes over a published id older than the oldest id, or is not made for want
of older ids, while the session has already got an id that the snapshot should have collected.
-/
import WiredTiger.Txn.IdAlloc
import WiredTiger.Txn.SnapshotInv

namespace WiredTiger

open Lib Option Nat Function Pc

/-- The session is not in the middle of allocating an id. -/
def Pc.plain : Pc → Bool
  | .allocating | .allocRead _ | .allocPublished | .allocIncremented _ | .allocRepublished => false
  | _ => true

namespace AllocState

variable {n current id : ℕ} {s t : AllocState n} {i k : Fin n} {a : Fin n × AllocOp}
  {x x' : AllocSession} {place : WalkAt} {w : SnapWalk}

/-! ### Complete snapshots -/

/-- No snapshot sees a transaction of another session that is running; and a walk has collected
those of the sessions behind it. -/
structure Complete (s : AllocState n) : Prop where
  snap : ∀ i snap, (s.session i).snap = some snap → ∀ k, k ≠ i → ∀ id ∈ (s.session k).runId,
    txnVisibleIdSnapshot id snap = false
  walk : ∀ i w, (s.session i).pc = .snapWalk w → ∀ k, k ≠ i → k.val < w.k →
    ∀ id ∈ (s.session k).runId, id < w.current → id ∈ w.ids

/-- A walk that is not made, or that passes over an id older than the oldest id, has nothing to
collect there. -/
def Allowed (s : AllocState n) (a : Fin n × AllocOp) : Prop :=
  a.2 = .advance →
    (∀ current, (s.session a.1).pc = .snapCurrent current → s.oldestId = current →
      ∀ k, k ≠ a.1 → ∀ id ∈ (s.session k).runId, current ≤ id) ∧
    ∀ w, (s.session a.1).pc = .snapWalk w → w.place = .load → ∀ k : Fin n, k.val = w.k → k ≠ a.1 →
      (s.session k).id ≠ txnNone → (s.session k).id < w.prevOldestId →
      ∀ id ∈ (s.session k).runId, w.current ≤ id ∨ id ∈ w.ids

/-! ### The invariant -/

/-- What a session has published, at each place of allocating an id. -/
def AllocOk (current : ℕ) (x : AllocSession) : Prop :=
  match x.pc with
  | .allocating => x.isAllocating = true ∧ x.id = txnNone ∧ x.runId = none
  | .allocRead c =>
    x.isAllocating = true ∧ x.id = txnNone ∧ x.runId = none ∧ c ≠ txnNone ∧ c ≤ current
  | .allocPublished =>
    x.isAllocating = true ∧ x.id ≠ txnNone ∧ x.runId = none ∧ x.id ≤ current
  | .allocIncremented id =>
    x.isAllocating = true ∧ x.id ≠ txnNone ∧ x.runId = some id ∧ x.id ≤ id ∧ id < current
  | .allocRepublished =>
    x.isAllocating = true ∧ x.id ≠ txnNone ∧ x.runId = some x.id ∧ x.id < current
  | _ => x.isAllocating = false ∧
      ((x.id = txnNone ∧ x.runId = none) ∨
        (x.id ≠ txnNone ∧ x.runId = some x.id ∧ x.id < current))

/-- What a walk has read of a session is behind, once it is not allocating: what the session
publishes after that is later. -/
def WalkAt.Ok (current : ℕ) (x : AllocSession) : WalkAt → Prop
  | .load => True
  | .allocating id => id ≠ txnNone ∧ (id < current ∨ x.pc = .allocPublished ∧ x.id = id)
  | .reload id => id ≠ txnNone ∧ id < current ∧
      match x.pc with
      | .allocRead c => id < c
      | .allocPublished | .allocIncremented _ => id < x.id
      | _ => True

/-- The walk of session `i`. -/
structure WalkOk (s : AllocState n) (i : Fin n) (w : SnapWalk) : Prop where
  current_le : w.current ≤ s.current
  collected : ∀ k, k ≠ i → k.val < w.k → ∀ id ∈ (s.session k).runId, id < w.current → id ∈ w.ids
  place : ∀ k : Fin n, k ≠ i → k.val = w.k → WalkAt.Ok s.current (s.session k) w.place

structure Inv (s : AllocState n) : Prop where
  pos : 0 < s.current
  alloc : ∀ i, AllocOk s.current (s.session i)
  snap : ∀ i snap, (s.session i).snap = some snap → snap.snapMax ≤ s.current ∧
    ∀ k, k ≠ i → ∀ id ∈ (s.session k).runId, txnVisibleIdSnapshot id snap = false
  current_le : ∀ i c, (s.session i).pc = .snapCurrent c → c ≤ s.current
  walk : ∀ i w, (s.session i).pc = .snapWalk w → WalkOk s i w

lemma Inv.complete (h : s.Inv) : s.Complete :=
  ⟨fun i snap hs => (h.snap i snap hs).2, fun i w hw => (h.walk i w hw).collected⟩

lemma inv_init (n : ℕ) : (init n).Inv where
  pos := one_pos
  alloc _ := ⟨rfl, .inl ⟨rfl, rfl⟩⟩
  snap _ _ h := by cases h
  current_le _ _ h := by cases h
  walk _ _ h := by cases h

/-! ### What a session publishes -/

/-- The published id of a running transaction is no later than its own. -/
lemma AllocOk.of_runId (h : AllocOk current x) (hid : x.runId = some id) :
    x.id ≠ txnNone ∧ x.id ≤ id ∧ id < current := by
  unfold AllocOk at h
  split at h
  all_goals simp_all

lemma AllocOk.mono {current' : ℕ} (h : AllocOk current x) (hle : current ≤ current') :
    AllocOk current' x := by
  unfold AllocOk at h ⊢
  split at h
  · exact h
  · exact ⟨h.1, h.2.1, h.2.2.1, h.2.2.2.1, h.2.2.2.2.trans hle⟩
  · exact ⟨h.1, h.2.1, h.2.2.1, h.2.2.2.trans hle⟩
  · exact ⟨h.1, h.2.1, h.2.2.1, h.2.2.2.1, lt_of_lt_of_le h.2.2.2.2 hle⟩
  · exact ⟨h.1, h.2.1, h.2.2.1, lt_of_lt_of_le h.2.2.2 hle⟩
  · exact ⟨h.1, h.2.imp_right fun h' => ⟨h'.1, h'.2.1, lt_of_lt_of_le h'.2.2 hle⟩⟩

lemma WalkAt.Ok.mono {current' : ℕ} (h : WalkAt.Ok current x place) (hle : current ≤ current') :
    WalkAt.Ok current' x place := by
  cases place with
  | load => trivial
  | allocating id => exact ⟨h.1, h.2.imp_left fun h' => lt_of_lt_of_le h' hle⟩
  | reload id => exact ⟨h.1, lt_of_lt_of_le h.2.1 hle, h.2.2⟩

lemma allocOk_plain (h : x.pc.plain = true) :
    AllocOk current x ↔ x.isAllocating = false ∧ ((x.id = txnNone ∧ x.runId = none) ∨
      (x.id ≠ txnNone ∧ x.runId = some x.id ∧ x.id < current)) := by
  unfold AllocOk
  split
  all_goals first
    | rfl
    | next hpc => simp [hpc, plain] at h

/-- A walk that has not read the flag yet has read an id that is given out, unless the session has
just published the current one. -/
lemma WalkAt.Ok.id_lt (h : WalkAt.Ok current x (.allocating id)) (hpc : x.pc ≠ .allocPublished) :
    id < current :=
  h.2.resolve_right fun h' => hpc h'.1

/-- What a walk has read of a session stays behind, if it does so when it has read the flag. -/
lemma WalkAt.Ok.imp (h : WalkAt.Ok current x place) (hpc : x.pc ≠ .allocPublished)
    (hreload : ∀ id, WalkAt.Ok current x (.reload id) → WalkAt.Ok current x' (.reload id)) :
    WalkAt.Ok current x' place := by
  cases place with
  | load => trivial
  | allocating id => exact ⟨h.1, .inl (h.id_lt hpc)⟩
  | reload id => exact hreload id h

/-- The session goes from one place outside of allocating an id to another. -/
lemma WalkAt.Ok.plain (h : WalkAt.Ok current x place) (hx : x.pc.plain = true)
    (hx' : x'.pc.plain = true) : WalkAt.Ok current x' place := by
  refine h.imp (fun hpc => by simp [hpc, Pc.plain] at hx) fun id h => ⟨h.1, h.2.1, ?_⟩
  cases hpc : x'.pc <;> simp_all [Pc.plain]

/-! ### What a step does -/

/-- What a step makes of a session, for what the session publishes. -/
structure Move (s t : AllocState n) (i : Fin n) (x' : AllocSession) : Prop where
  eq : t = ⟨t.current, t.oldestId, update s.session i x'⟩
  le : s.current ≤ t.current
  alloc : AllocOk t.current x'
  run : ∀ id, x'.runId = some id → (s.session i).runId = some id ∨ s.current ≤ id
  place : ∀ place, WalkAt.Ok s.current (s.session i) place → WalkAt.Ok t.current x' place

namespace Move

variable (hm : Move s t i x')

include hm

lemma self : t.session i = x' := by
  rw [hm.eq]
  exact update_self i x' s.session

lemma other {j : Fin n} (hj : j ≠ i) : t.session j = s.session j := by
  rw [hm.eq]
  exact update_of_ne hj x' s.session

/-- The id of a transaction is older than the step, or new. -/
lemma runId_or (h : (t.session k).runId = some id) :
    (s.session k).runId = some id ∨ k = i ∧ s.current ≤ id := by
  rcases eq_or_ne k i with rfl | hk
  · rw [hm.self] at h
    exact (hm.run id h).imp_right fun hle => ⟨rfl, hle⟩
  · rw [hm.other hk] at h
    exact .inl h

/-- What walks have read of the sessions stays behind. -/
lemma place_ok (h : WalkAt.Ok s.current (s.session k) place) :
    WalkAt.Ok t.current (t.session k) place := by
  rcases eq_or_ne k i with rfl | hk
  · rw [hm.self]
    exact hm.place _ h
  · rw [hm.other hk]
    exact h.mono hm.le

lemma alloc_ok (h : ∀ j, AllocOk s.current (s.session j)) (j : Fin n) :
    AllocOk t.current (t.session j) := by
  rcases eq_or_ne j i with rfl | hj
  · rw [hm.self]
    exact hm.alloc
  · rw [hm.other hj]
    exact (h j).mono hm.le

end Move

/-- What a step makes of a session, for the snapshot that it takes. -/
structure SnapStep (s : AllocState n) (i : Fin n) (x' : AllocSession) : Prop where
  snap : ∀ snap, x'.snap = some snap → (s.session i).snap = some snap ∨
    (∃ c, (s.session i).pc = .snapCurrent c ∧ s.oldestId = c ∧ snap = sortSnapshot [] c) ∨
    ∃ w, (s.session i).pc = .snapWalk w ∧ n ≤ w.k ∧ snap = sortSnapshot w.ids w.current
  current : ∀ c, x'.pc = .snapCurrent c → c = s.current
  walk : ∀ w', x'.pc = .snapWalk w' →
    (∃ c, (s.session i).pc = .snapCurrent c ∧ w' = ⟨c, s.oldestId, 0, [], .load⟩) ∨
    ∃ w, ∃ k : Fin n, (s.session i).pc = .snapWalk w ∧ k.val = w.k ∧ w' = s.nextSnap i k w

/-- A step that takes no snapshot, and does nothing to the one there is but to give it up. -/
lemma snapStep_quiet (hsnap : x'.snap = (s.session i).snap ∨ x'.snap = none)
    (hcur : ∀ c, x'.pc ≠ .snapCurrent c) (hwalk : ∀ w, x'.pc ≠ .snapWalk w) :
    SnapStep s i x' where
  snap snap h := by
    rcases hsnap with heq | hnone
    · exact .inl (heq ▸ h)
    · simp [hnone] at h
  current c h := absurd h (hcur c)
  walk w h := absurd h (hwalk w)

/-- A session goes from one place outside of allocating an id to another, with the ids it has or
without any. -/
lemma move_plain {oldestId' : ℕ} (halloc : AllocOk s.current (s.session i))
    (hx : (s.session i).pc.plain = true) (hx' : x'.pc.plain = true)
    (hflag : x'.isAllocating = (s.session i).isAllocating)
    (hids : x'.id = (s.session i).id ∧ x'.runId = (s.session i).runId ∨
      x'.id = txnNone ∧ x'.runId = none) :
    Move s ⟨s.current, oldestId', update s.session i x'⟩ i x' := by
  rw [allocOk_plain hx] at halloc
  refine ⟨rfl, le_rfl, (allocOk_plain hx').mpr ⟨hflag.trans halloc.1, ?_⟩, fun id hid => ?_,
    fun place h => h.plain hx hx'⟩
  · rcases hids with ⟨hid, hrun⟩ | hnone
    · rw [hid, hrun]
      exact halloc.2
    · exact .inl hnone
  · rcases hids with ⟨-, hrun⟩ | ⟨-, hnone⟩
    · exact .inl (hrun ▸ hid)
    · rw [hnone] at hid
      cases hid

/-- The steps of `__wt_txn_id_alloc`: the ids that are published are in order, and later than what
walks have read of the session. -/
lemma exists_move_alloc (hpos : 0 < s.current) (hx : AllocOk s.current (s.session i))
    (hplain : (s.session i).pc.plain = false) (h : s.advance i = some t) :
    ∃ x', Move s t i x' ∧ x'.snap = (s.session i).snap ∧ x'.pc.holdsRead = false := by
  unfold AllocOk at hx
  unfold advance at h
  dsimp only at h
  cases hpc : (s.session i).pc <;> rw [hpc] at h hx
  case allocating =>
    cases h
    exact ⟨_, ⟨rfl, le_rfl, ⟨hx.1, hx.2.1, hx.2.2, hpos.ne', le_rfl⟩, fun _ => .inl,
      fun place h => h.imp (by simp [hpc]) fun id h => ⟨h.1, h.2.1, h.2.1⟩⟩, rfl, rfl⟩
  case allocRead c =>
    cases h
    refine ⟨_, ⟨rfl, le_rfl, ⟨hx.1, hx.2.2.2.1, hx.2.2.1, hx.2.2.2.2⟩, fun _ => .inl,
      fun place h => h.imp (by simp [hpc]) fun id h => ?_⟩, rfl, rfl⟩
    obtain ⟨h1, h2, h3⟩ := h
    rw [hpc] at h3
    exact ⟨h1, h2, h3⟩
  case allocPublished =>
    cases h
    refine ⟨_, ⟨rfl, le_succ _, ⟨hx.1, hx.2.1, rfl, hx.2.2.2, lt_succ_self _⟩,
      fun id h => .inr (some.inj h).le, fun place h => ?_⟩, rfl, rfl⟩
    cases place with
    | load => trivial
    | allocating id =>
      refine ⟨h.1, .inl ?_⟩
      rcases h.2 with h' | ⟨-, h'⟩
      · exact lt_succ_of_lt h'
      · exact lt_succ_of_le (h' ▸ hx.2.2.2)
    | reload id =>
      obtain ⟨h1, h2, h3⟩ := h
      rw [hpc] at h3
      exact ⟨h1, lt_succ_of_lt h2, h3⟩
  case allocIncremented id =>
    cases h
    have hne : id ≠ txnNone := by
      unfold txnNone at *
      omega
    exact ⟨_, ⟨rfl, le_rfl, ⟨hx.1, hne, hx.2.2.1, hx.2.2.2.2⟩, fun _ => .inl,
      fun place h => h.imp (by simp [hpc]) fun id h => ⟨h.1, h.2.1, trivial⟩⟩, rfl, rfl⟩
  case allocRepublished =>
    cases h
    exact ⟨_, ⟨rfl, le_rfl, ⟨rfl, .inr hx.2⟩, fun _ => .inl,
      fun place h => h.imp (by simp [hpc]) fun id h => ⟨h.1, h.2.1, trivial⟩⟩, rfl, rfl⟩
  all_goals simp [hpc, plain] at hplain

/-- The next access of a session outside of allocating an id. -/
lemma exists_move_plain (halloc : AllocOk s.current (s.session i))
    (hplain : (s.session i).pc.plain = true) (h : s.advance i = some t) :
    ∃ x', Move s t i x' ∧ SnapStep s i x' := by
  unfold advance at h
  dsimp only at h
  cases hpc : (s.session i).pc <;> rw [hpc] at h
  case idle =>
    cases h
  case snapLocked =>
    cases h
    exact ⟨_, move_plain halloc hplain rfl rfl (.inl ⟨rfl, rfl⟩), nofun,
      fun _ h => (snapCurrent.inj h).symm, nofun⟩
  case snapCurrent current =>
    dsimp only at h
    split_ifs at h with hold <;> cases h
    · refine ⟨_, move_plain halloc hplain rfl rfl (.inl ⟨rfl, rfl⟩), fun snap h => ?_, nofun, nofun⟩
      exact .inr (.inl ⟨current, hpc, hold, (some.inj h).symm⟩)
    · refine ⟨_, move_plain halloc hplain rfl rfl (.inl ⟨rfl, rfl⟩), fun _ => .inl, nofun,
        fun w h => ?_⟩
      exact .inl ⟨current, hpc, (snapWalk.inj h).symm⟩
  case snapWalk w =>
    cases h
    unfold advanceSnap
    split_ifs with hk
    · refine ⟨_, move_plain halloc hplain rfl rfl (.inl ⟨rfl, rfl⟩), fun _ => .inl, nofun,
        fun w' h => ?_⟩
      exact .inr ⟨w, ⟨w.k, hk⟩, hpc, rfl, (snapWalk.inj h).symm⟩
    · refine ⟨_, move_plain halloc hplain rfl rfl (.inl ⟨rfl, rfl⟩), fun snap h => ?_, nofun, nofun⟩
      exact .inr (.inr ⟨w, hpc, not_lt.mp hk, (some.inj h).symm⟩)
  case oldestLocked | oldestPrev =>
    cases h
    exact ⟨_, move_plain halloc hplain rfl rfl (.inl ⟨rfl, rfl⟩),
      snapStep_quiet (.inl rfl) nofun nofun⟩
  case oldestWalk w =>
    cases h
    unfold advanceOldest
    split_ifs <;> exact ⟨_, move_plain halloc hplain rfl rfl (.inl ⟨rfl, rfl⟩),
      snapStep_quiet (.inl rfl) nofun nofun⟩
  case released =>
    cases h
    exact ⟨_, move_plain halloc hplain rfl rfl (.inl ⟨rfl, rfl⟩),
      snapStep_quiet (.inr rfl) nofun nofun⟩
  all_goals simp [hpc, plain] at hplain

/-- **What a step can do**: it replaces the session that takes it. -/
lemma exists_move (hpos : 0 < s.current) (halloc : AllocOk s.current (s.session a.1))
    (h : s.step a = some t) : ∃ x', Move s t a.1 x' ∧ SnapStep s a.1 x' := by
  obtain ⟨i, op⟩ := a
  have hidle : (s.session i).pc = .idle → (s.session i).pc.plain = true := fun h => by rw [h]; rfl
  cases op with
  | idAlloc =>
    obtain ⟨⟨hpc, hrun⟩, h⟩ := ite_none_right_eq_some.mp h
    cases h
    have hid : (s.session i).id = txnNone := by
      rcases ((allocOk_plain (hidle hpc)).mp halloc).2 with h | h
      · exact h.1
      · simp [hrun] at h
    exact ⟨_, ⟨rfl, le_rfl, ⟨rfl, hid, hrun⟩, fun _ => .inl,
      fun place h => h.imp (by simp [hpc]) fun id h => ⟨h.1, h.2.1, trivial⟩⟩,
      snapStep_quiet (.inl rfl) nofun nofun⟩
  | getSnapshot | updateOldest =>
    obtain ⟨hc, h⟩ := ite_none_right_eq_some.mp h
    cases h
    exact ⟨_, move_plain halloc (hidle hc.1) rfl rfl (.inl ⟨rfl, rfl⟩),
      snapStep_quiet (.inl rfl) nofun nofun⟩
  | giveUp =>
    obtain ⟨hc, h⟩ := ite_none_right_eq_some.mp h
    cases h
    exact ⟨_, move_plain halloc (by rw [hc]; rfl) rfl rfl (.inl ⟨rfl, rfl⟩),
      snapStep_quiet (.inl rfl) nofun nofun⟩
  | release =>
    obtain ⟨hc, h⟩ := ite_none_right_eq_some.mp h
    cases h
    exact ⟨_, move_plain halloc (hidle hc) rfl rfl (.inr ⟨rfl, rfl⟩),
      snapStep_quiet (.inl rfl) nofun nofun⟩
  | advance =>
    cases hplain : (s.session i).pc.plain with
    | true => exact exists_move_plain halloc hplain h
    | false =>
      obtain ⟨x', hm, hsnap, hreads⟩ := exists_move_alloc hpos halloc hplain h
      exact ⟨x', hm, snapStep_quiet (.inl hsnap) (fun c hc => by simp [hc, holdsRead] at hreads)
        fun w hw => by simp [hw, holdsRead] at hreads⟩

/-! ### The walk at a session -/

/-- An id that is published is given out, but for the one that is published before the increment. -/
lemma AllocOk.id_lt (h : AllocOk current x) (hid : x.id ≠ txnNone) :
    x.id < current ∨ x.pc = .allocPublished := by
  unfold AllocOk at h
  split at h
  · exact absurd h.2.1 hid
  · exact absurd h.2.1 hid
  · next hpc => exact .inr hpc
  · exact .inl (lt_of_le_of_lt h.2.2.2.1 h.2.2.2.2)
  · exact .inl h.2.2.2
  · rcases h.2 with h' | h'
    · exact absurd h'.1 hid
    · exact .inl h'.2.2

/-- A session that is not allocating is outside of allocating an id. -/
lemma AllocOk.plain (h : AllocOk current x) (hflag : x.isAllocating = false) :
    x.pc.plain = true := by
  unfold AllocOk at h
  split at h
  all_goals first
    | exact absurd (hflag.symm.trans h.1) Bool.false_ne_true
    | skip
  cases hpc : x.pc <;> simp_all [Pc.plain]

/-- What a walk reads twice, with the session not allocating in between, is its id. -/
lemma runId_of_reload (h : AllocOk current x) (hplace : WalkAt.Ok current x (.reload id))
    (hid : x.id = id) : x.runId = some id := by
  obtain ⟨hne, -, hlt⟩ := hplace
  unfold AllocOk at h
  split at h
  · exact absurd (hid.symm.trans h.2.1) hne
  · exact absurd (hid.symm.trans h.2.1) hne
  · next hpc =>
    rw [hpc] at hlt
    exact absurd hid hlt.ne'
  · next hpc =>
    rw [hpc] at hlt
    exact absurd hid hlt.ne'
  · exact hid ▸ h.2.2.1
  · rcases h.2 with h' | h'
    · exact absurd (hid.symm.trans h'.1) hne
    · exact hid ▸ h'.2.1

/-- The walk stays at the session, behind what it publishes, or goes on: past itself, past an id
that it is not to collect, or with the id of the session. -/
lemma nextSnap_cases (hx : AllocOk s.current (s.session k))
    (hplace : k ≠ i → WalkAt.Ok s.current (s.session k) w.place) :
    (∃ place, s.nextSnap i k w = { w with place := place } ∧
      WalkAt.Ok s.current (s.session k) place) ∨
    ∃ ids, s.nextSnap i k w = { w with k := w.k + 1, ids := ids, place := .load } ∧
      (ids = w.ids ∧ (k ≠ i → w.place = .load ∧ ¬((s.session k).id ≠ txnNone ∧
        w.prevOldestId ≤ (s.session k).id ∧ (s.session k).id < w.current)) ∨
      ∃ id, ids = id :: w.ids ∧ (s.session k).runId = some id) := by
  unfold nextSnap
  by_cases hself : k = i
  · rw [if_pos hself]
    exact .inr ⟨w.ids, rfl, .inl ⟨rfl, fun hne => absurd hself hne⟩⟩
  rw [if_neg hself]
  have hplace := hplace hself
  cases hat : w.place with
  | load =>
    dsimp only [visit]
    split_ifs with hcond
    · exact .inl ⟨_, rfl, hcond.1, (hx.id_lt hcond.1).imp_right fun h => ⟨h, rfl⟩⟩
    · exact .inr ⟨w.ids, rfl, .inl ⟨rfl, fun _ => ⟨rfl, hcond⟩⟩⟩
  | allocating id =>
    rw [hat] at hplace
    dsimp only [visit]
    split_ifs with hflag
    · exact .inl ⟨_, rfl, trivial⟩
    · have hkp := hx.plain (Bool.eq_false_iff.mpr hflag)
      refine .inl ⟨_, rfl, hplace.1, hplace.id_lt fun h => ?_, ?_⟩
      · simp [h, plain] at hkp
      · cases hpck : (s.session k).pc <;> simp_all [plain]
  | reload id =>
    rw [hat] at hplace
    dsimp only [visit]
    split_ifs with heq
    · exact .inr ⟨_, rfl, .inr ⟨id, rfl, runId_of_reload hx hplace heq⟩⟩
    · exact .inl ⟨_, rfl, trivial⟩

/-! ### The invariant is kept -/

/-- The walk goes on, behind or at session `k`. -/
lemma walkOk_next (h : WalkOk s i w) (hk : k.val = w.k) {ids : List ℕ}
    (hids : ∀ id ∈ w.ids, id ∈ ids)
    (hnew : k ≠ i → ∀ id ∈ (s.session k).runId, id < w.current → id ∈ ids) :
    WalkOk s i { w with k := w.k + 1, ids := ids, place := .load } where
  current_le := h.current_le
  collected := by
    intro j hj hlt id hid hidlt
    rcases eq_or_ne j k with rfl | hjk
    · exact hnew hj id hid hidlt
    · have : j.val ≠ k.val := fun heq => hjk (Fin.ext heq)
      have hjw : j.val < w.k := by
        dsimp only at hlt
        omega
      exact hids id (h.collected j hj hjw id hid hidlt)
  place := fun _ _ _ => trivial

lemma walkOk_again (h : WalkOk s i w) (hk : k.val = w.k)
    (hplace : WalkAt.Ok s.current (s.session k) place) : WalkOk s i { w with place := place } where
  current_le := h.current_le
  collected := h.collected
  place := by
    intro j _ hj
    obtain rfl : j = k := Fin.ext (hj.trans hk.symm)
    exact hplace

/-- The walk at a session, if it does not pass over an id that it should have collected. -/
lemma walkOk_nextSnap (hw : WalkOk s i w) (hk : k.val = w.k) (hx : AllocOk s.current (s.session k))
    (hallowed : w.place = .load → k ≠ i → (s.session k).id ≠ txnNone →
      (s.session k).id < w.prevOldestId → ∀ id ∈ (s.session k).runId,
        w.current ≤ id ∨ id ∈ w.ids) : WalkOk s i (s.nextSnap i k w) := by
  rcases nextSnap_cases hx fun hne => hw.place k hne hk with
    ⟨place, heq, hok⟩ | ⟨ids, heq, ⟨rfl, hpass⟩ | ⟨id, rfl, hrun⟩⟩
  · rw [heq]
    exact walkOk_again hw hk hok
  · rw [heq]
    refine walkOk_next hw hk (fun _ h => h) fun hne id hid hlt => ?_
    -- the published id is older than the oldest id, or later than the snapshot
    obtain ⟨hat, hcond⟩ := hpass hne
    obtain ⟨hid0, hle, -⟩ := hx.of_runId hid
    rcases lt_or_ge (s.session k).id w.prevOldestId with hold | hold
    · exact (hallowed hat hne hid0 hold id hid).resolve_left (not_le.mpr hlt)
    · exact absurd ⟨hid0, hold, lt_of_le_of_lt hle hlt⟩ hcond
  · rw [heq]
    refine walkOk_next hw hk (fun _ h => List.mem_cons_of_mem _ h) fun _ id' hid' _ => ?_
    cases hrun.symm.trans hid'
    exact List.mem_cons_self

/-- A session is replaced, while the current id may move forward. -/
lemma Inv.update (hs : s.Inv) (hm : Move s t i x')
    (hsnap : ∀ snap, x'.snap = some snap → snap.snapMax ≤ s.current ∧
      ∀ k, k ≠ i → ∀ id ∈ (s.session k).runId, txnVisibleIdSnapshot id snap = false)
    (hcur : ∀ c, x'.pc = .snapCurrent c → c ≤ s.current)
    (hwalk : ∀ w, x'.pc = .snapWalk w → WalkOk s i w) : t.Inv := by
  refine ⟨lt_of_lt_of_le hs.pos hm.le, hm.alloc_ok hs.alloc, fun j snap hj => ?_, fun j c hj => ?_,
    fun j w hj => ?_⟩
  · -- what was to be seen is seen, and a new id is too late for the snapshot
    obtain ⟨hmax, hvis⟩ : snap.snapMax ≤ s.current ∧
        ∀ k, k ≠ j → ∀ id ∈ (s.session k).runId, txnVisibleIdSnapshot id snap = false := by
      rcases eq_or_ne j i with rfl | hji
      · exact hsnap snap (hm.self ▸ hj)
      · exact hs.snap j snap (hm.other hji ▸ hj)
    refine ⟨hmax.trans hm.le, fun k hk id hid => ?_⟩
    rcases hm.runId_or hid with hold | ⟨-, hnew⟩
    · exact hvis k hk id hold
    · exact txnVisibleIdSnapshot_eq_false_iff.mpr (.inr (hmax.trans hnew))
  · refine le_trans ?_ hm.le
    rcases eq_or_ne j i with rfl | hji
    · exact hcur c (hm.self ▸ hj)
    · exact hs.current_le j c (hm.other hji ▸ hj)
  · obtain ⟨hcle, hcoll, hat⟩ : WalkOk s j w := by
      rcases eq_or_ne j i with rfl | hji
      · exact hwalk w (hm.self ▸ hj)
      · exact hs.walk j w (hm.other hji ▸ hj)
    refine ⟨hcle.trans hm.le, fun k hk hlt id hid hidlt => ?_,
      fun k hk heq => hm.place_ok (hat k hk heq)⟩
    rcases hm.runId_or hid with hold | ⟨-, hnew⟩
    · exact hcoll k hk hlt id hold hidlt
    · exact absurd (lt_of_lt_of_le hidlt (hcle.trans hnew)) (lt_irrefl _)

/-- A snapshot that has been taken, from what the walk has collected. -/
lemma invisible_sortSnapshot {ids : List ℕ} (h : id < current → id ∈ ids) :
    txnVisibleIdSnapshot id (sortSnapshot ids current) = false := by
  rw [txnVisibleIdSnapshot_eq_false_iff, mem_sortSnapshot_ids]
  exact (lt_or_ge id current).imp_left h

/-- A step keeps the invariant if it does not pass over an id that should be collected. -/
lemma inv_step (hs : s.Inv) (ha : s.Allowed a) (h : s.step a = some t) : t.Inv := by
  obtain ⟨x', hm, hstep⟩ := exists_move hs.pos (hs.alloc _) h
  have hadv : ∀ {pc}, (s.session a.1).pc = pc → pc.holdsRead = true → a.2 = .advance := by
    intro pc hpc hread
    obtain ⟨i, op⟩ := a
    cases op with
    | advance => rfl
    | giveUp | release =>
      obtain ⟨hc, -⟩ := ite_none_right_eq_some.mp h
      rw [← hpc, hc] at hread
      cases hread
    | idAlloc | getSnapshot | updateOldest =>
      obtain ⟨⟨hc, -⟩, -⟩ := ite_none_right_eq_some.mp h
      rw [← hpc, hc] at hread
      cases hread
  refine hs.update hm (fun snap hsnap => ?_) (fun c hc => (hstep.current c hc).le) fun w' hw' => ?_
  · rcases hstep.snap snap hsnap with hold | ⟨c, hpc, hold, rfl⟩ | ⟨w, hpc, hk, rfl⟩
    · exact hs.snap a.1 snap hold
    · refine ⟨hs.current_le _ c hpc, fun k hk id hid => invisible_sortSnapshot fun hlt => ?_⟩
      exact absurd ((ha (hadv hpc rfl)).1 c hpc hold k hk id hid) (not_le.mpr hlt)
    · have hw := hs.walk _ w hpc
      refine ⟨hw.current_le, fun k hne id hid => invisible_sortSnapshot fun hlt => ?_⟩
      exact hw.collected k hne (lt_of_lt_of_le k.isLt hk) id hid hlt
  · rcases hstep.walk w' hw' with ⟨c, hpc, rfl⟩ | ⟨w, k, hpc, hk, rfl⟩
    · exact ⟨hs.current_le _ c hpc, fun k _ hlt => absurd hlt (not_lt_zero _),
        fun _ _ _ => trivial⟩
    · exact walkOk_nextSnap (hs.walk _ w hpc) hk (hs.alloc k) fun hat =>
        (ha (hadv hpc rfl)).2 w hpc hat k hk

/-- A step that passes over an id that should be collected leaves an incomplete snapshot, or a walk
that has missed it. -/
lemma allowed_of_complete (h : s.step a = some t) (ht : t.Complete) : s.Allowed a := by
  obtain ⟨i, op⟩ := a
  rintro rfl
  change s.advance i = some t at h
  unfold advance at h
  dsimp only at h ⊢
  refine ⟨fun current hpc hold k hk id hid => ?_, fun w hpc hat k hkw hk hne hlt id hid => ?_⟩
  · rw [hpc] at h
    obtain rfl := some.inj ((if_pos hold).symm.trans h)
    have hvis := ht.snap i (sortSnapshot [] current) (by simp [finishSnapshot, set]) k hk id
      (by simpa [finishSnapshot, set, update_of_ne hk] using hid)
    rw [txnVisibleIdSnapshot_eq_false_iff, mem_sortSnapshot_ids] at hvis
    exact hvis.resolve_left List.not_mem_nil
  · rw [hpc] at h
    cases h
    have hkn : w.k < n := hkw ▸ k.isLt
    obtain rfl : (⟨w.k, hkn⟩ : Fin n) = k := Fin.ext hkw.symm
    -- the walk passes over the session
    have hnext : s.nextSnap i ⟨w.k, hkn⟩ w = { w with k := w.k + 1, place := .load } := by
      have hcond : ¬((s.session ⟨w.k, hkn⟩).id ≠ txnNone ∧
          w.prevOldestId ≤ (s.session ⟨w.k, hkn⟩).id ∧ (s.session ⟨w.k, hkn⟩).id < w.current) :=
        fun h => absurd h.2.1 (not_le.mpr hlt)
      unfold nextSnap
      rw [if_neg hk, hat]
      dsimp only [visit]
      rw [if_neg hcond]
    rcases lt_or_ge id w.current with hidlt | hidge
    · refine .inr (ht.walk i { w with k := w.k + 1, place := .load } ?_ ⟨w.k, hkn⟩ hk
        (lt_succ_self _) id ?_ hidlt)
      · simp [advanceSnap, dif_pos hkn, set, hnext]
      · simpa [advanceSnap, dif_pos hkn, set, update_of_ne hk] using hid
    · exact .inl hidge

/-- **Snapshots are complete** along every run, with any number of sessions, exactly if no walk
passes over an id older than the oldest id, and none is left out for a current oldest id, while
the session has got an id below the snapshot's. -/
theorem snapshots_complete (n : ℕ) (as : List (Fin n × AllocOp)) :
    Along step Complete (init n) as ↔ AllSteps step Allowed (init n) as :=
  along_iff_allSteps (fun _ hs => hs.complete) (fun _ _ _ hs ha h => inv_step hs ha h)
    (fun _ _ _ _ h ht => allowed_of_complete h ht) (inv_init n) as

/-- Session 0 reads the current id and is held up while session 1 runs a transaction and moves the
oldest id past it.  The published id of session 0 is then older than the oldest id, and session 1
takes a snapshot that does not wait for its new one. -/
def passedOver : List (Fin 2 × AllocOp) :=
  [(0, .idAlloc), (0, .advance)] ++
  [(1, .idAlloc), (1, .advance), (1, .advance), (1, .advance), (1, .advance), (1, .advance),
    (1, .release), (1, .advance)] ++
  [(1, .updateOldest), (1, .advance), (1, .advance), (1, .advance), (1, .advance), (1, .advance),
    (1, .advance), (1, .advance)] ++
  [(0, .advance), (0, .advance)] ++
  [(1, .getSnapshot), (1, .advance), (1, .advance), (1, .advance), (1, .advance), (1, .advance)]

/-- The snapshot sees the transaction of session 0, which is running. -/
theorem snapshot_sees_running : ∃ s, run step (init 2) passedOver = some s ∧
    (s.session 0).runId = some 2 ∧
      ∃ snap, (s.session 1).snap = some snap ∧ txnVisibleIdSnapshot 2 snap = true :=
  ⟨_, rfl, rfl, _, rfl, rfl⟩

end AllocState

end WiredTiger
