/-
# First updater wins

A transaction puts an update on the chain of a key only if it sees the newest version there is, in
memory or on the page.  So of two transactions that wrote the key and did not roll back, the later
one's snapshot shows the earlier one.
-/
import WiredTiger.Txn.WorldRun

namespace WiredTiger

open Lib List Option World

namespace World

variable {w w' w₀ : World}

/-- The newest version of the key, as the conflict check looks for it, is visible to a transaction:
the first update that is not rolled back, or else the version the page tells of. -/
def NewestVisible (w : World) (view : View) : Prop :=
  (∀ A n B, w.updates = A ++ n :: B → (∀ a ∈ A, a.txnid = txnAborted) → n.txnid ≠ txnAborted →
      txnUpdVisibleType view n = .ok .true) ∧
    ((∀ u ∈ w.updates, u.txnid = txnAborted) → ∀ c, w.cell = some c →
      txnVisible view c.tw.newest.1 c.tw.newest.2 = true)

/-- The check that passes has seen the newest version. -/
lemma newestVisible_of_check {x : Txn} (hiso : x.view.isolation = .snapshot)
    (h : w.modifyCheck x = .ok true) : w.NewestVisible x.view := by
  rw [w.modifyCheck_eq hiso] at h
  rcases modifyCheckChain_pass h with ⟨A, n, B, hsplit, hA, hn⟩ | ⟨hall, hcell⟩
  · have hna : n.txnid ≠ txnAborted := txnVisible_ne_aborted (txnUpdVisibleType_eq_true hn).1
    refine ⟨?_, ?_⟩
    · intro A' m B' hsplit' hA' hm
      have hfirst : n = m := by
        have hdrop := congrArg (List.dropWhile fun u => u.txnid == txnAborted)
          (hsplit.symm.trans hsplit')
        rw [dropWhile_append_of_pos (by simpa using hA),
          dropWhile_append_of_pos (by simpa using hA'),
          dropWhile_cons_of_neg (by simpa using hna),
          dropWhile_cons_of_neg (by simpa using hm)] at hdrop
        exact (List.cons.inj hdrop).1
      rw [← hfirst]
      exact hn
    · intro hall
      exact absurd (hall n (by rw [hsplit]; simp)) hna
  · refine ⟨?_, ?_⟩
    · intro A n B hsplit _ hna
      exact absurd (hall n (by rw [hsplit]; simp)) hna
    · intro _ c hc
      exact hcell c.tw (by rw [cellTimeWindow, hc])

/-- **First updater wins.**  In every run of transactions on a key, from any chain of committed and
rolled back updates over any value on the page: an update is put on the chain by a transaction that
sees the newest version, in the chain or on the page if the chain has none; and in whatever order
the versions of the key came, a transaction that wrote one and is not rolled back sees, by its
snapshot, every older version of another transaction that is not rolled back. -/
theorem firstUpdaterWins (h₀ : w₀.Initial) {as : List Action} (hrun : run step w₀ as = some w) :
    (∀ a w', w.step a = some w' → w.chain.length < w'.chain.length →
      ∃ (t : ℕ) (x : Txn) (n : Node), a.actor = some t ∧ w.txns[t]? = some x ∧
        w'.chain = n :: w.chain ∧ n.upd.txnid = x.view.id ∧ w.NewestVisible x.view) ∧
    (∀ A u B v C, w.versions = A ++ u :: (B ++ v :: C) → v.txnid ≠ txnAborted →
      ∀ x ∈ w.txns, x.phase = .committed → x.owns u = true → v.txnid ≠ u.txnid →
        txnVisibleIdSnapshot v.txnid x.view.snap = true) := by
  have hinv : w.Inv w₀.current := h₀.inv.run hrun
  refine ⟨?_, ?_⟩
  · intro a w' hstep hlen
    -- a step that makes the chain longer has swapped an update in, on a chain the check passed
    cases step_effect hstep with
    | prepend t x data ha hx hrun hid hpend =>
      have hxmem := mem_of_getElem? hx
      have hcheck := (hinv.pending x hxmem _ hpend).2 rfl
      exact ⟨t, x, _, ha, hx, rfl, (x.newUpdate_spec data).1,
        newestVisible_of_check (hinv.txns.isolation x hxmem) hcheck⟩
    | begin | allocId | advance => exact absurd hlen (lt_irrefl _)
    | resolve | truncate | evict => simp at hlen
  · intro A u B v C hsplit hva x hx _ hown hne
    have hpair : PairOk w₀.current w.txns u v := by
      have hp := hinv.pairs
      rw [hsplit] at hp
      exact (pairwise_cons.mp (pairwise_append.mp hp).2.1).1 v (by simp)
    have hu := hinv.txns.le_txnid hx hown
    have hua : u.txnid ≠ txnAborted := by
      have := hinv.cap
      omega
    rcases hpair hua hva with ⟨hlt, -⟩ | ⟨y, hy, hyown, hsees⟩
    · omega
    obtain rfl := hinv.txns.owner_eq hx hy hown hyown
    rcases hsees with hself | ⟨-, hlt | hvis⟩
    · exact absurd (hself.trans (Txn.owns_iff.mp hown).2.symm) hne
    · exact hinv.txns.old x hx _ hlt
    · exact hvis

end World

/-- Two transactions that write one key one after the other: the first commits, its version goes to
the page and leaves the chain, then the second begins. -/
def twoWriters : List Action :=
  [.begin none false, .txn 0 .allocId, .txn 0 .check, .txn 0 (.cas (.standard [1])),
    .txn 0 .commit, .txn 0 .release, .evict 0 [1],
    .begin none false, .txn 1 .allocId, .txn 1 .check, .txn 1 (.cas (.standard [2])),
    .txn 1 .commit, .txn 1 .release]

/-- A key that was inserted and is on no page, before any transaction. -/
def insertedKey : World := ⟨1, [], [], none, none, 0, []⟩

lemma insertedKey_initial : insertedKey.Initial :=
  ⟨by decide, by decide, rfl, rfl, by simp [insertedKey, updates], by simp [insertedKey]⟩

theorem firstUpdaterWins_twoWriters :
    ∃ w, run step insertedKey twoWriters = some w ∧
      ∃ x ∈ w.txns, x.phase = .committed ∧ x.view.id = 2 ∧
        txnVisibleIdSnapshot 1 x.view.snap = true := by
  obtain ⟨w, hw⟩ : ∃ w, run step insertedKey twoWriters = some w :=
    isSome_iff_exists.mp (by decide)
  have hversions : (run step insertedKey twoWriters).map versions =
      some [⟨2, 0, 0, .standard [2], .init, false, false⟩,
        ⟨1, 0, 0, .standard [1], .init, false, false⟩] := by decide
  have hsecond : (run step insertedKey twoWriters).bind (fun w => w.txns[1]?.map fun x =>
      (x.phase, x.view.hasId, x.view.id)) = some (.committed, true, 2) := by decide
  simp only [hw, map_some, some.injEq] at hversions
  simp only [hw, bind_some, map_eq_some_iff, Prod.mk.injEq] at hsecond
  obtain ⟨x, hx, hphase, hid, hxid⟩ := hsecond
  refine ⟨w, hw, x, mem_of_getElem? hx, hphase, hxid, ?_⟩
  exact (firstUpdaterWins insertedKey_initial hw).2 [] _ [] _ [] hversions (by decide) x
    (mem_of_getElem? hx) hphase (Txn.owns_iff.mpr ⟨hid, hxid.symm⟩) (by decide)

end WiredTiger
