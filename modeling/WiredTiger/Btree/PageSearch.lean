/-
# The binary search of a page

While a page is searched, `skiplow` is at most what the search key shares with a key that is not
above any candidate, and `skiphigh` at most what it shares with a key that is not below one; so a
candidate shares at least the smaller of the two with the search key, and skipping these bytes
changes nothing.  Going down a page keeps the first fact, since the keys of the child are not below
the separator; the second one is given up and `skiphigh` reset.
-/
import WiredTiger.Btree.RowSearch

namespace WiredTiger

open Lib Or

variable {α β : Type} {P : Platform} {srchKey : Key}

/-- Every comparison in the log has the result it should have. -/
def LogOk (srchKey : Key) (log : List (Key × Ordering)) : Prop :=
  ∀ x ∈ log, x.2 = lexCmp srchKey x.1

lemma LogOk.cons {log : List (Key × Ordering)} (h : LogOk srchKey log) (k : Key) :
    LogOk srchKey ((k, lexCmp srchKey k) :: log) := by
  intro x hx
  rcases List.mem_cons.mp hx with rfl | hx
  · rfl
  · exact h x hx

/-- `skiplow` may be used for keys that are not below `lb`. -/
def LowOk (srchKey : Key) (skiplow : ℕ) (lb : Option Key) : Prop :=
  skiplow = 0 ∨ ∃ low b, lb = some b ∧ skiplow ≤ lcp srchKey low ∧ ¬ b < low

/-- `skiphigh` may be used for keys that are not above `ub`. -/
def HighOk (srchKey : Key) (skiphigh : ℕ) (ub : Option Key) : Prop :=
  skiphigh = 0 ∨ ∃ b, ub = some b ∧ skiphigh ≤ lcp srchKey b

lemma LowOk.mono {skiplow : ℕ} {lb : Option Key} {k : Key} (h : LowOk srchKey skiplow lb)
    (hk : ∀ b, lb = some b → ¬ k < b) : LowOk srchKey skiplow (some k) := by
  rcases h with h | ⟨low, b, hb, hle, hlow⟩
  · exact inl h
  · refine inr ⟨low, k, rfl, hle, fun hlt => ?_⟩
    have hbk := not_lt.mp (hk b hb)
    exact hlow (lt_of_le_of_lt hbk hlt)

lemma lowOk_self (k : Key) : LowOk srchKey (lcp srchKey k) (some k) :=
  inr ⟨k, k, rfl, le_rfl, lt_irrefl _⟩

/-- A key between the bounds may be compared from the smaller count on. -/
lemma LowOk.min_le {skiplow skiphigh : ℕ} {lb ub : Option Key} {k : Key}
    (hlow : LowOk srchKey skiplow lb) (hhigh : HighOk srchKey skiphigh ub)
    (hk : ∀ b, lb = some b → ¬ k < b) (hk' : ∀ b, ub = some b → ¬ b < k) :
    min skiplow skiphigh ≤ lcp srchKey k := by
  rcases hlow with h | ⟨low, b, hb, hle, hlow⟩
  · simp [h]
  rcases hhigh with h | ⟨b', hb', hle'⟩
  · simp [h]
  have hklow : ¬ k < low := fun hlt => hk b hb (lt_of_lt_of_le hlt (not_lt.mp hlow))
  exact le_lcp_of_between hklow (hk' b' hb') (by omega) (by omega)

/-! ### The binary search of a page -/

/-- A comparison from counts that may be used. -/
lemma compareItem_spec {item : Key} {s : Srch} (hsrch : srchKey ≠ []) (hitem : item ≠ [])
    (hmin : compareShortMaxlen < srchKey.length →
      min s.skiplow s.skiphigh ≤ lcp srchKey item) :
    ∃ s', compareItem P srchKey item s = some (lexCmp srchKey item, s') ∧
      s'.log = (item, lexCmp srchKey item) :: s.log ∧ s'.tmp = item ∧
      (s'.skiplow = s.skiplow ∨ lexCmp srchKey item = .gt ∧ s'.skiplow = lcp srchKey item) ∧
      (s'.skiphigh = s.skiphigh ∨ lexCmp srchKey item = .lt ∧ s'.skiphigh = lcp srchKey item) := by
  by_cases hshort : srchKey.length ≤ compareShortMaxlen
  · exact ⟨{ s with tmp := item }.record item (lexCmp srchKey item),
      by simp [compareItem, hshort, lexCompareShort_eq hsrch hitem hshort], rfl, rfl, inl rfl,
      inl rfl⟩
  · refine ⟨_, by simp [compareItem, hshort, lexCompareSkip_eq P (hmin (not_le.mp hshort))]; rfl,
      rfl, rfl, ?_, ?_⟩
    · by_cases hgt : lexCmp srchKey item = .gt
      · exact inr ⟨hgt, by simp [Srch.record, hgt]⟩
      · exact inl (by simp [Srch.record, hgt])
    · by_cases hlt : lexCmp srchKey item = .lt
      · exact inr ⟨hlt, by simp [Srch.record, hlt]⟩
      · exact inl (by simp [Srch.record, hlt])

/-- The greatest key below the candidates from `b` on, when the candidates of the page start at
`base`; in front of them there is the lower bound of the page. -/
def lowerAt (lo : Option Key) (ks : List Key) (base b : ℕ) : Option Key :=
  if b ≤ base then lo else ks[b - 1]?

/-- What holds of the search's state while the candidates from `b` up to `e` are left. -/
structure PageInv (srchKey : Key) (lo : Option Key) (ks : List Key) (base b e : ℕ) (s : Srch) :
    Prop where
  log : LogOk srchKey s.log
  low : LowOk srchKey s.skiplow (lowerAt lo ks base b)
  /-- Short keys are compared as a whole. -/
  high : compareShortMaxlen < srchKey.length → HighOk srchKey s.skiphigh ks[e]?
  /-- While no smaller key was found, the last comparison was with the upper bound. -/
  tmp : b ≤ base → ∀ k, ks[e]? = some k → s.tmp = k

/-- The keys of a page from entry `base` on, as far as the search relies on them. -/
structure KeysOk (lo : Option Key) (ks : List Key) (base : ℕ) : Prop where
  sorted : ∀ i j k k', base ≤ i → i < j → ks[i]? = some k → ks[j]? = some k' → k < k'
  lower : ∀ i k, base ≤ i → ks[i]? = some k → ∀ b, lo = some b → ¬ k < b
  nonempty : ∀ i k, base ≤ i → ks[i]? = some k → k ≠ []

variable {lo : Option Key} {ks : List Key} {base : ℕ}

lemma KeysOk.not_lt_lowerAt (h : KeysOk lo ks base) {b i : ℕ} {k : Key} (hb : b ≤ i)
    (hbase : base ≤ i) (hk : ks[i]? = some k) :
    ∀ c, lowerAt lo ks base b = some c → ¬ k < c := by
  intro c hc
  rw [lowerAt] at hc
  split_ifs at hc with hle
  · exact h.lower i k hbase hk c hc
  · exact (h.sorted (b - 1) i c k (by omega) (by omega) hc hk).not_gt

/-- One comparison in the binary search of a page. -/
lemma PageInv.step (h : KeysOk lo ks base) (hsrch : srchKey ≠ []) {b e i : ℕ} {k : Key} {s : Srch}
    (hinv : PageInv srchKey lo ks base b e s) (hbase : base ≤ b) (hb : b ≤ i) (he : i < e)
    (hk : ks[i]? = some k) :
    ∃ s', compareItem P srchKey k s = some (lexCmp srchKey k, s') ∧
      (lexCmp srchKey k = .gt → PageInv srchKey lo ks base (i + 1) e s') ∧
      (lexCmp srchKey k = .lt → PageInv srchKey lo ks base b i s') ∧
      (lexCmp srchKey k = .eq → LogOk srchKey s'.log ∧ LowOk srchKey s'.skiplow (some k)) ∧
      s'.tmp = k := by
  have hlow := h.not_lt_lowerAt hb (by omega) hk
  have hmin (hlong : compareShortMaxlen < srchKey.length) :
      min s.skiplow s.skiphigh ≤ lcp srchKey k :=
    hinv.low.min_le (hinv.high hlong) hlow fun c hc =>
      (h.sorted i e k c (by omega) he hk hc).not_gt
  obtain ⟨s', hcmp, hlog, htmp, hskiplow, hskiphigh⟩ :=
    compareItem_spec (P := P) hsrch (h.nonempty i k (by omega) hk) hmin
  have hlogok : LogOk srchKey s'.log := hlog ▸ hinv.log.cons k
  have hkeep : LowOk srchKey s.skiplow (some k) := hinv.low.mono hlow
  refine ⟨s', hcmp, fun hgt => ⟨hlogok, ?_, fun hlong => ?_, fun hle => by omega⟩,
    fun hlt => ⟨hlogok, ?_, fun hlong => ?_, fun _ c hc => htmp.trans (Option.some.inj (hk ▸ hc))⟩,
    fun heq => ⟨hlogok, ?_⟩, htmp⟩
  · -- the key that was compared with is the new lower bound
    rw [lowerAt, if_neg (by omega), Nat.add_sub_cancel, hk]
    rcases hskiplow with hs | ⟨-, hs⟩
    · exact hs ▸ hkeep
    · exact hs ▸ lowOk_self k
  · rcases hskiphigh with hs | ⟨hlt, -⟩
    · exact hs ▸ hinv.high hlong
    · exact absurd (hgt.symm.trans hlt) (by simp)
  · rcases hskiplow with hs | ⟨hgt, -⟩
    · exact hs ▸ hinv.low
    · exact absurd (hgt.symm.trans hlt) (by simp)
  · -- or the new upper bound
    rcases hskiphigh with hs | ⟨-, hs⟩
    · rcases hinv.high hlong with h0 | ⟨c, hc, hle⟩
      · exact inl (hs ▸ h0)
      · have hk₁ : ¬ k < srchKey := (lexCmp_eq_lt_iff.mp hlt).not_gt
        have hk₂ : ¬ c < k := (h.sorted i e k c (by omega) he hk hc).not_gt
        have hlen := lcp_le_left srchKey c
        exact inr ⟨k, hk, hs ▸ le_lcp_of_between hk₁ hk₂ (by rw [lcp_self]; omega) hle⟩
    · exact inr ⟨k, hk, hs.le⟩
  · rcases hskiplow with hs | ⟨hgt, -⟩
    · exact hs ▸ hkeep
    · exact absurd (hgt.symm.trans heq) (by simp)

/-- How the search key compares with entry `i`; what is in front of `base` counts as smaller. -/
def ordAt (base : ℕ) (srchKey : Key) (ks : List Key) (i : ℕ) : Ordering :=
  if i < base then .gt else (ks[i]?.map (lexCmp srchKey)).getD .lt

lemma ordAt_eq {i : ℕ} {k : Key} (hi : base ≤ i) (h : ks[i]? = some k) :
    ordAt base srchKey ks i = lexCmp srchKey k := by
  simp [ordAt, h, hi]

/-- **The binary search of a page.**  It finds the search key, or the place where it belongs; all
comparisons are right, and the lower count may be used below the entry that is found. -/
lemma bsearch_page {probe : ℕ → Srch → Option (Ordering × Srch)} (h : KeysOk lo ks base)
    (hsrch : srchKey ≠ [])
    (hprobe : ∀ i k s, ks[i]? = some k → probe i s = compareItem P srchKey k s)
    (hbase : base ≤ ks.length) {s : Srch} (hlog : LogOk srchKey s.log)
    (hlow : LowOk srchKey s.skiplow lo)
    (hhigh : compareShortMaxlen < srchKey.length → s.skiphigh = 0) :
    (∃ i s', bsearch probe base (ks.length - base) s = some (.found i s') ∧ base ≤ i ∧
      ks[i]? = some srchKey ∧ LogOk srchKey s'.log ∧ LowOk srchKey s'.skiplow (some srchKey) ∧
      s'.tmp = srchKey) ∨
    (∃ b s', bsearch probe base (ks.length - base) s = some (.missing b s') ∧ base ≤ b ∧
      b ≤ ks.length ∧ PageInv srchKey lo ks base b b s' ∧
      (∀ j k, base ≤ j → j < b → ks[j]? = some k → k < srchKey) ∧
      (∀ j k, b ≤ j → ks[j]? = some k → srchKey < k)) := by
  have hend : base + (ks.length - base) = ks.length := by omega
  have hget : ∀ i, i < ks.length → ∃ k, ks[i]? = some k := fun i hi =>
    ⟨_, List.getElem?_eq_getElem hi⟩
  have hgreater : ∀ i j, i < j → j < ks.length → ordAt base srchKey ks j = .gt →
      ordAt base srchKey ks i = .gt := by
    intro i j hij hj hgt
    by_cases hi : i < base
    · simp [ordAt, hi]
    obtain ⟨k, hk⟩ := hget i (by omega)
    obtain ⟨k', hk'⟩ := hget j hj
    rw [ordAt_eq (by omega) hk', lexCmp_eq_gt_iff] at hgt
    rw [ordAt_eq (by omega) hk, lexCmp_eq_gt_iff]
    exact (h.sorted i j k k' (by omega) hij hk hk').trans hgt
  have hless : ∀ i j, i < j → j < ks.length → ordAt base srchKey ks i = .lt →
      ordAt base srchKey ks j = .lt := by
    intro i j hij hj hlt
    by_cases hi : i < base
    · simp [ordAt, hi] at hlt
    obtain ⟨k, hk⟩ := hget i (by omega)
    obtain ⟨k', hk'⟩ := hget j hj
    rw [ordAt_eq (by omega) hk, lexCmp_eq_lt_iff] at hlt
    rw [ordAt_eq (by omega) hk', lexCmp_eq_lt_iff]
    exact hlt.trans (h.sorted i j k k' (by omega) hij hk hk')
  have hstep : ∀ b e i s, b ≤ i → i < e → e ≤ ks.length →
      (base ≤ b ∧ PageInv srchKey lo ks base b e s) →
      ∃ s', probe i s = some (ordAt base srchKey ks i, s') ∧
        (ordAt base srchKey ks i = .gt → base ≤ i + 1 ∧ PageInv srchKey lo ks base (i + 1) e s') ∧
        (ordAt base srchKey ks i = .lt → base ≤ b ∧ PageInv srchKey lo ks base b i s') ∧
        (ordAt base srchKey ks i = .eq → LogOk srchKey s'.log ∧
          LowOk srchKey s'.skiplow (some srchKey) ∧ s'.tmp = srchKey) := by
    rintro b e i s hbi hie he ⟨hb, hinv⟩
    obtain ⟨k, hk⟩ := hget i (by omega)
    obtain ⟨s', h₁, h₂, h₃, h₄, htmp⟩ := hinv.step (P := P) h hsrch hb hbi hie hk
    rw [ordAt_eq (by omega) hk, hprobe i k s hk]
    refine ⟨s', h₁, fun hgt => ⟨by omega, h₂ hgt⟩, fun hlt => ⟨hb, h₃ hlt⟩, fun heq => ?_⟩
    obtain rfl := lexCmp_eq_eq_iff.mp heq
    exact ⟨(h₄ heq).1, (h₄ heq).2, htmp⟩
  rcases bsearch_spec (ordAt base srchKey ks)
      (fun b e s => base ≤ b ∧ PageInv srchKey lo ks base b e s)
      (fun _ s => LogOk srchKey s.log ∧ LowOk srchKey s.skiplow (some srchKey) ∧ s.tmp = srchKey)
      hgreater hless hstep hend.le ⟨le_rfl, hlog, by simpa [lowerAt] using hlow,
        fun h => inl (hhigh h), fun _ k hk => by simp [hend] at hk⟩ with
    ⟨i, s', h₁, h₂, h₃, h₄, h₅⟩ | ⟨b, s', h₁, h₂, h₃, h₄, h₅, h₆⟩
  · obtain ⟨k, hk⟩ := hget i (by omega)
    rw [ordAt_eq h₂ hk] at h₄
    exact inl ⟨i, s', h₁, h₂, by rw [hk, lexCmp_eq_eq_iff.mp h₄], h₅⟩
  · refine inr ⟨b, s', h₁, h₂, by omega, h₄.2, fun j k hj hjb hk => ?_,
      fun j k hj hk => ?_⟩
    · have hgt := h₅ j hj hjb
      rw [ordAt_eq hj hk] at hgt
      exact lexCmp_eq_gt_iff.mp hgt
    · have hjl := (List.getElem?_eq_some_iff.mp hk).1
      have hlt := h₆ j hj (by omega)
      rw [ordAt_eq (by omega) hk] at hlt
      exact lexCmp_eq_lt_iff.mp hlt

/-- What the search of a page begins with: the upper count starts over. -/
lemma reset_spec {s s' : Srch} (h : s' = if srchKey.length ≤ compareShortMaxlen then s
      else { s with skiphigh := 0 }) :
    s'.log = s.log ∧ s'.skiplow = s.skiplow ∧
      (compareShortMaxlen < srchKey.length → s'.skiphigh = 0) := by
  split_ifs at h with hshort
  · exact ⟨by rw [h], by rw [h], fun hlong => by omega⟩
  · exact ⟨by rw [h], by rw [h], fun _ => by rw [h]⟩

end WiredTiger
