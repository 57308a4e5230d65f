/-
# A computed modify operation rebuilds the new value

The invariant of `__wt_calc_modify`: applying the entries produced so far to the old value gives
the new value up to `used2`, followed by the old value from `used1` on.  A match moves both marks
over bytes that the two values have in common, and the bytes behind `e1` and `e2` are the same, so
one last entry completes the new value.
-/
import WiredTiger.Modify.Calc
import WiredTiger.Modify.Refine

namespace WiredTiger

open Lib List Or

/-! ### Common bytes -/

/-- The values have `n` bytes in common, at position `i` of the old and `j` of the new one. -/
structure Agree (im : Images) (i j n : ℕ) : Prop where
  old_le : i + n ≤ im.old.length
  new_le : j + n ≤ im.new.length
  eq : slice im.old i n = slice im.new j n

variable {im : Images} {cms : CmState} {i j n m : ℕ}

lemma Agree.zero (hi : i ≤ im.old.length) (hj : j ≤ im.new.length) : Agree im i j 0 :=
  ⟨hi, hj, by simp [slice]⟩

lemma Agree.append (h : Agree im i j n) (h' : Agree im (i + n) (j + n) m) :
    Agree im i j (n + m) := by
  have h₁ := h'.old_le
  have h₂ := h'.new_le
  refine ⟨by omega, by omega, ?_⟩
  rw [← slice_append_slice, ← slice_append_slice, h.eq, h'.eq]

/-- The common bytes without the first `k`. -/
lemma Agree.drop (h : Agree im i j n) {k : ℕ} (hk : k ≤ n) : Agree im (i + k) (j + k) (n - k) := by
  have h₁ := h.old_le
  have h₂ := h.new_le
  refine ⟨by omega, by omega, ?_⟩
  have heq := congrArg (List.drop k) h.eq
  simpa only [slice, drop_take, drop_drop] using heq

/-- The common bytes up to number `k`. -/
lemma Agree.take (h : Agree im i j n) {k : ℕ} (hk : k ≤ n) : Agree im i j k := by
  have h₁ := h.old_le
  have h₂ := h.new_le
  refine ⟨by omega, by omega, ?_⟩
  have heq := congrArg (List.take k) h.eq
  simpa only [slice, take_take, min_eq_left hk] using heq

lemma agree_one_iff {a b : UInt8} (hi : im.old[i]? = some a) (hj : im.new[j]? = some b) :
    Agree im i j 1 ↔ a = b := by
  obtain ⟨hi', hi⟩ := List.getElem?_eq_some_iff.mp hi
  obtain ⟨hj', hj⟩ := List.getElem?_eq_some_iff.mp hj
  have heq : slice im.old i 1 = slice im.new j 1 ↔ a = b := by
    simp [slice, drop_eq_getElem_cons hi', drop_eq_getElem_cons hj', hi, hj,
      take_succ_cons, take_zero, List.cons.injEq, and_true]
  exact ⟨fun h => heq.mp h.eq, fun h => ⟨hi', hj', heq.mpr h⟩⟩

lemma readBlock_eq_some {v : List UInt8} {p n : ℕ} (h : p + n ≤ v.length) :
    readBlock v p n = some (slice v p n) := if_pos h

/-! ### Extending a match -/

lemma cmSkipHalves_spec (im : Images) (fuel p1 p2 : ℕ) (he1 : cms.e1 ≤ im.old.length)
    (he2 : cms.e2 ≤ im.new.length) (hp1 : p1 ≤ cms.e1) (hp2 : p2 ≤ cms.e2)
    (hfuel : cms.e1 - p1 < fuel) :
    ∃ k, cmSkipHalves im cms fuel p1 p2 = some (p1 + k, p2 + k) ∧ p1 + k ≤ cms.e1 ∧
      p2 + k ≤ cms.e2 ∧ Agree im p1 p2 k := by
  induction fuel generalizing p1 p2 with
  | zero => omega
  | succ fuel ih =>
    have hstop : ∃ k, some (p1, p2) = some (p1 + k, p2 + k) ∧ p1 + k ≤ cms.e1 ∧
        p2 + k ≤ cms.e2 ∧ Agree im p1 p2 k :=
      ⟨0, rfl, hp1, hp2, Agree.zero (by omega) (by omega)⟩
    obtain ⟨n, hn⟩ : ∃ n, n = min (cms.e1 - p1) (cms.e2 - p2) / 2 := ⟨_, rfl⟩
    simp only [cmSkipHalves, ← hn]
    split_ifs with h8
    · rw [readBlock_eq_some (by omega), readBlock_eq_some (by omega)]
      simp only [Option.bind_eq_bind, Option.bind_some]
      by_cases heq : slice im.old p1 n = slice im.new p2 n
      · rw [if_pos heq]
        obtain ⟨k, hk, h1, h2, hag⟩ :=
          ih (p1 + n) (p2 + n) (by omega) (by omega) (by omega)
        refine ⟨n + k, ?_, by omega, by omega, Agree.append ⟨by omega, by omega, heq⟩ hag⟩
        rw [hk, add_assoc, add_assoc]
      · rw [if_neg heq]
        exact hstop
    · exact hstop

lemma cmForward_spec (im : Images) (n p1 p2 : ℕ) (h1 : p1 + n ≤ im.old.length)
    (h2 : p2 + n ≤ im.new.length) :
    ∃ k, cmForward im n p1 p2 = some (p1 + k, p2 + k) ∧ k ≤ n ∧ Agree im p1 p2 k ∧
      (0 < n → Agree im p1 p2 1 → 0 < k) := by
  induction n generalizing p1 p2 with
  | zero => exact ⟨0, rfl, le_rfl, Agree.zero (by omega) (by omega), by simp⟩
  | succ n ih =>
    obtain ⟨a, ha⟩ : ∃ a, im.old[p1]? = some a := ⟨_, getElem?_eq_getElem (by omega)⟩
    obtain ⟨b, hb⟩ : ∃ b, im.new[p2]? = some b := ⟨_, getElem?_eq_getElem (by omega)⟩
    simp only [cmForward, ha, hb, Option.bind_eq_bind, Option.bind_some]
    by_cases hab : a = b
    · obtain ⟨k, hk, hle, hag, -⟩ := ih (p1 + 1) (p2 + 1) (by omega) (by omega)
      refine ⟨1 + k, ?_, by omega, ((agree_one_iff ha hb).mpr hab).append hag,
        fun _ _ => by omega⟩
      rw [if_pos hab, hk, Nat.add_assoc, Nat.add_assoc]
    · exact ⟨0, by rw [if_neg hab]; rfl, Nat.zero_le _, Agree.zero (by omega) (by omega),
        fun _ hag => absurd ((agree_one_iff ha hb).mp hag) hab⟩

lemma cmBackward_spec (im : Images) (n m1 m2 : ℕ) (h1 : n ≤ m1) (h2 : n ≤ m2)
    (ho : m1 < im.old.length)
    (hn : m2 < im.new.length) :
    ∃ b, cmBackward im n m1 m2 = some (m1 - b, m2 - b) ∧ b ≤ n ∧
      Agree im (m1 - b + 1) (m2 - b + 1) b ∧ (0 < b → Agree im m1 m2 1) := by
  induction n generalizing m1 m2 with
  | zero => exact ⟨0, rfl, le_rfl, Agree.zero (by omega) (by omega), by simp⟩
  | succ n ih =>
    obtain ⟨x, hx⟩ : ∃ x, im.old[m1]? = some x := ⟨_, getElem?_eq_getElem ho⟩
    obtain ⟨y, hy⟩ : ∃ y, im.new[m2]? = some y := ⟨_, getElem?_eq_getElem hn⟩
    simp only [cmBackward, hx, hy, Option.bind_eq_bind, Option.bind_some]
    by_cases hxy : x = y
    · have hpos : 0 < m1 ∧ 0 < m2 := by omega
      have hone := (agree_one_iff hx hy).mpr hxy
      obtain ⟨b, hb, hle, hag, -⟩ := ih (m1 - 1) (m2 - 1) (by omega) (by omega) (by omega)
        (by omega)
      refine ⟨b + 1, ?_, by omega, ?_, fun _ => hone⟩
      · rw [if_pos hxy]
        simp [hpos, and_self, guard_true, Option.pure_def, Option.bind_some, hb,
          Nat.sub_sub, Nat.add_comm 1 b]
      · rw [show m1 - (b + 1) + 1 = m1 - 1 - b + 1 by omega,
          show m2 - (b + 1) + 1 = m2 - 1 - b + 1 by omega]
        refine hag.append ?_
        rwa [show m1 - 1 - b + 1 + b = m1 by omega, show m2 - 1 - b + 1 + b = m2 by omega]
    · exact ⟨0, by rw [if_neg hxy]; rfl, Nat.zero_le _, Agree.zero (by omega) (by omega),
        by simp⟩

/-- **Extending a match.**  The match goes `b` bytes back and `f` bytes forward; of the range
that was stepped over, the byte in front is given up. -/
lemma cmExtend_spec (im : Images) (cms : CmState) (m1 m2 : ℕ) (he1 : cms.e1 ≤ im.old.length)
    (he2 : cms.e2 ≤ im.new.length)
    (h1 : m1 < cms.e1) (h2 : m2 < cms.e2) :
    ∃ b f, cmExtend im cms m1 m2 = some ⟨m1 - b + 1, m2 - b + 1, b + f - 1⟩ ∧
      b ≤ m1 - cms.used1 ∧ b ≤ m2 - cms.used2 ∧ m1 + f ≤ cms.e1 ∧ m2 + f ≤ cms.e2 ∧
      (0 < b → 0 < f) ∧ Agree im m1 m2 f ∧ Agree im (m1 - b + 1) (m2 - b + 1) (b + f - 1) := by
  obtain ⟨k, hskip, hk1, hk2, hagk⟩ := cmSkipHalves_spec im (cms.e1 - m1 + 1) m1 m2 he1 he2
    h1.le h2.le (by omega)
  obtain ⟨l, hfwd, hl, hagl, hpos⟩ := cmForward_spec im
    (min (cms.e1 - (m1 + k)) (cms.e2 - (m2 + k))) (m1 + k) (m2 + k) (by omega) (by omega)
  obtain ⟨b, hback, hb, hagb, hone⟩ := cmBackward_spec im
    (min (m1 - cms.used1) (m2 - cms.used2)) m1 m2 (by omega) (by omega) (by omega) (by omega)
  have hag : Agree im m1 m2 (k + l) := hagk.append hagl
  -- a byte that was stepped over backward is stepped over forward, too
  have hbf : 0 < b → 0 < k + l := by
    intro h
    by_contra hz
    obtain ⟨rfl, rfl⟩ : k = 0 ∧ l = 0 := by omega
    exact absurd (hpos (by omega) (by simpa using hone h)) (by omega)
  refine ⟨b, k + l, ?_, by omega, by omega, by omega, by omega, hbf, hag, ?_⟩
  · simp only [cmExtend, hskip, hfwd, hback, Option.bind_eq_bind, Option.bind_some]
    split_ifs with h
    · congr 2
      omega
    · congr 2
      omega
  · rcases eq_zero_or_pos b with rfl | hb0
    · rcases eq_zero_or_pos (k + l) with h0 | h0
      · rw [h0]
        exact Agree.zero (by omega) (by omega)
      · simpa using hag.drop h0
    · have h := hagb.append (m := k + l - 1) (by
        rw [show m1 - b + 1 + b = m1 + 1 by omega, show m2 - b + 1 + b = m2 + 1 by omega]
        exact hag.drop (hbf hb0))
      rwa [show b + (k + l - 1) = b + (k + l) - 1 by omega] at h

/-! ### The partially rebuilt value -/

/-- What holds between two steps of `__wt_calc_modify` that was called with `maxdiff`. -/
structure CmInv (im : Images) (maxdiff : ℕ) (cms : CmState) : Prop where
  used1_le : cms.used1 ≤ cms.e1
  used2_le : cms.used2 ≤ cms.e2
  e1_le : cms.e1 ≤ im.old.length
  e2_le : cms.e2 ≤ im.new.length
  /-- The values have the same suffix. -/
  suffix_eq : im.old.drop cms.e1 = im.new.drop cms.e2
  /-- The entries rebuild the new value up to `used2`. -/
  built : splices (padByte false) cms.entries im.old =
    im.new.take cms.used2 ++ im.old.drop cms.used1
  /-- What the entries have used up of `maxdiff`. -/
  budget : (cms.entries.map fun m => m.data.length).sum + cms.maxdiff = maxdiff
  count : cms.entries ≠ [] → (cms.entries.length : ℤ) ≤ cms.maxentries
  pending : cms.entries = [] → cms.used1 < cms.e1

variable {maxdiff : ℕ}

/-- The partially rebuilt value with both marks moved over common bytes. -/
lemma Agree.move_marks {len : ℕ} (h : Agree im i j len) :
    im.new.take j ++ im.old.drop i = im.new.take (j + len) ++ im.old.drop (i + len) := by
  rw [← take_append_slice, ← h.eq, append_assoc, slice_append_drop]

/-- The entry for what lies between the marks and a match. -/
lemma splice_between {m1 m2 : ℕ} (h1 : cms.used1 ≤ m1) (h2 : cms.used2 ≤ m2)
    (hm1 : m1 ≤ im.old.length) (hm2 : m2 ≤ im.new.length) (pad : UInt8) :
    splice pad ⟨slice im.new cms.used2 (m2 - cms.used2), cms.used2, m1 - cms.used1⟩
        (im.new.take cms.used2 ++ im.old.drop cms.used1) =
      im.new.take m2 ++ im.old.drop m1 := by
  have hlen : (im.new.take cms.used2).length = cms.used2 := by
    simp only [length_take]
    omega
  rw [splice_of_le _ (by simp only [length_append, hlen, length_drop]; omega)]
  dsimp only
  rw [take_left' hlen, drop_append, drop_eq_nil_of_le (by omega), nil_append,
    hlen, drop_drop, take_append_slice]
  congr 2
  · omega
  · omega

/-- `__cm_add_modify` either fails or extends the entries so that they rebuild the new value up
to the match. -/
lemma cmAddModify_spec {m1 m2 : ℕ} (h : CmInv im maxdiff cms) (h1 : cms.used1 ≤ m1)
    (h2 : cms.used2 ≤ m2) (hm1 : m1 ≤ cms.e1) (hm2 : m2 ≤ cms.e2) :
    cmAddModify im cms m1 m2 = some .notfound ∨
    ∃ es, es ≠ [] ∧ (es.length : ℤ) ≤ cms.maxentries ∧ m2 - cms.used2 ≤ cms.maxdiff ∧
      cmAddModify im cms m1 m2 =
        some (.ok { cms with maxdiff := cms.maxdiff - (m2 - cms.used2), entries := es }) ∧
      splices (padByte false) es im.old = im.new.take m2 ++ im.old.drop m1 ∧
      (es.map fun m => m.data.length).sum + (cms.maxdiff - (m2 - cms.used2)) = maxdiff := by
  have hg : cms.used1 ≤ m1 ∧ cms.used2 ≤ m2 := ⟨h1, h2⟩
  have he1 := h.e1_le
  have he2 := h.e2_le
  have hbud := h.budget
  simp only [cmAddModify, hg, and_self, guard_true, Option.pure_def, Option.bind_eq_bind,
    Option.bind_some]
  split_ifs with hfull
  · exact inl rfl
  · refine inr ⟨_, by simp, ?_, by omega, rfl, ?_, ?_⟩
    · simp only [length_append, length_singleton]
      omega
    · rw [splices_append, h.built, splices, splices,
        splice_between h1 h2 (by omega) (by omega)]
    · have hlen : (slice im.new cms.used2 (m2 - cms.used2)).length = m2 - cms.used2 :=
        length_slice (by omega)
      simp only [map_append, map_cons, map_nil, sum_append, sum_cons,
        sum_nil, hlen]
      omega

/-- The code at `end` completes the new value. -/
lemma cmEnd_spec (h : CmInv im maxdiff cms) :
    ∃ r, cmEnd im cms = some r ∧ ∀ es, r = .ok es →
      splices (padByte false) es im.old = im.new ∧ (es.length : ℤ) ≤ cms.maxentries ∧
      (es.map fun m => m.data.length).sum ≤ maxdiff := by
  by_cases hleft : cms.used1 < cms.e1 ∨ cms.used2 < cms.e2
  · rcases cmAddModify_spec h h.used1_le h.used2_le le_rfl le_rfl with
      hadd | ⟨es, hne, hcount, hdiff, hadd, hbuilt, hbud⟩
    · exact ⟨.notfound, by simp [cmEnd, hleft, hadd], by simp⟩
    · refine ⟨.ok es, by simp [cmEnd, hleft, hadd], ?_⟩
      rintro es' ⟨⟩
      refine ⟨?_, hcount, by omega⟩
      rw [hbuilt, h.suffix_eq, take_append_drop]
  · -- nothing is left, so there are entries
    have hu1 := h.used1_le
    have hu2 := h.used2_le
    have hbud := h.budget
    have hne : cms.entries ≠ [] := fun hnil => absurd (h.pending hnil) (by omega)
    refine ⟨.ok cms.entries, by simp [cmEnd, hleft], ?_⟩
    rintro es' ⟨⟩
    refine ⟨?_, h.count hne, by omega⟩
    rw [h.built, show cms.used1 = cms.e1 by omega, show cms.used2 = cms.e2 by omega, h.suffix_eq,
      take_append_drop]

/-! ### The walk -/

/-- What holds at the head of the main loop. -/
structure WalkInv (im : Images) (maxdiff : ℕ) (w : CmWalk) : Prop where
  inv : CmInv im maxdiff w.cms
  p1_ge : w.cms.used1 ≤ w.p1
  p2_ge : w.cms.used2 ≤ w.p2
  p2_le : w.p2 ≤ w.cms.e2 + 1
  /-- Once set, the second marker has a whole block of the old value behind it. -/
  marker : w.start = false → w.p1 + w.gap + cmBlocksize < w.cms.e1

variable {w : CmWalk}

lemma cmFingerprint_some {v : List UInt8} {p : ℕ} (h : p + cmBlocksize ≤ v.length) :
    ∃ k, cmFingerprint v p = some k := by
  simp [cmFingerprint, readBlock_eq_some h]

/-- Moving the markers. -/
lemma cmMarkers_spec (h : WalkInv im maxdiff w) :
    cmMarkers im maxdiff w = some (.brk w.cms) ∨ cmMarkers im maxdiff w = some .notfound ∨
    ∃ w', cmMarkers im maxdiff w = some (.next w') ∧ WalkInv im maxdiff w' ∧
      w'.start = false ∧ w'.cms = w.cms ∧ w'.p2 = w.p2 := by
  have he1 := h.inv.e1_le
  have hp1 := h.p1_ge
  by_cases hset : w.start ∨ w.i = w.gap
  · obtain ⟨gap, hgap⟩ : ∃ gap, gap = if w.start then cmStartgap else w.gap * 2 := ⟨_, rfl⟩
    simp only [cmMarkers, if_pos hset, ← hgap]
    by_cases hbrk : w.p1 + w.gap + gap + cmBlocksize ≥ w.cms.e1
    · exact inl (by rw [if_pos hbrk])
    by_cases hmax : gap > maxdiff
    · exact inr (inl (by rw [if_neg hbrk, if_pos hmax]))
    obtain ⟨x, hx⟩ := cmFingerprint_some (v := im.old) (p := w.p1 + w.gap) (by omega)
    obtain ⟨y, hy⟩ := cmFingerprint_some (v := im.old) (p := w.p1 + w.gap + gap) (by omega)
    obtain ⟨z, hz⟩ : ∃ z, cmHstart im w (w.p1 + w.gap) = some z := by
      rw [cmHstart]
      split_ifs
      · exact ⟨x, hx⟩
      · exact ⟨_, rfl⟩
    refine inr (inr ⟨⟨w.cms, w.p1 + w.gap, w.p2, 0, gap, false, z, y⟩, ?_,
      ⟨h.inv, by simp only; omega, h.p2_ge, h.p2_le, fun _ => ?_⟩, rfl, rfl, rfl⟩)
    · simp [if_neg hbrk, if_neg hmax, hz, hy, Option.bind_eq_bind, Option.bind_some]
    · simp only
      omega
  · refine inr (inr ⟨w, by rw [cmMarkers, if_neg hset], h, ?_, rfl, rfl⟩)
    simpa using fun hs => hset (inl hs)

section

variable (h : WalkInv im maxdiff w) (hstart : w.start = false) (hp2 : w.p2 + cmBlocksize ≤ w.cms.e2)
include h hstart hp2

/-- A match at the walk's position that is long enough lies behind the marks. -/
lemma cmMatch_spec :
    ∃ m, cmMatch im w = some m ∧ (0 < m.len → w.cms.used1 ≤ m.m1 ∧ w.cms.used2 ≤ m.m2 ∧
      m.m1 + m.len ≤ w.cms.e1 ∧ m.m2 + m.len ≤ w.cms.e2 ∧ w.p2 ≤ m.m2 + m.len ∧
      Agree im m.m1 m.m2 m.len) := by
  have he1 := h.inv.e1_le
  have he2 := h.inv.e2_le
  have hmark := h.marker hstart
  have hp1 := h.p1_ge
  have hp2' := h.p2_ge
  have hblock : cmBlocksize = 8 := rfl
  obtain ⟨k, hk⟩ := cmFingerprint_some (v := im.new) (p := w.p2) (by omega)
  -- both markers are places to extend a match from
  have hext : ∀ m1, w.cms.used1 ≤ m1 → m1 < w.cms.e1 → ∃ m, cmExtend im w.cms m1 w.p2 = some m ∧
      (0 < m.len → w.cms.used1 ≤ m.m1 ∧ w.cms.used2 ≤ m.m2 ∧ m.m1 + m.len ≤ w.cms.e1 ∧
        m.m2 + m.len ≤ w.cms.e2 ∧ w.p2 ≤ m.m2 + m.len ∧ Agree im m.m1 m.m2 m.len) := by
    intro m1 hge hlt
    obtain ⟨b, f, hm, hb1, hb2, hf1, hf2, hbf, -, hag⟩ :=
      cmExtend_spec im w.cms m1 w.p2 he1 he2 hlt (by omega)
    refine ⟨_, hm, fun hlen => ?_⟩
    simp only at hlen ⊢
    exact ⟨by omega, by omega, by omega, by omega, by omega, hag⟩
  simp only [cmMatch, hk, Option.bind_eq_bind, Option.bind_some]
  split_ifs
  · exact hext w.p1 hp1 (by omega)
  · exact hext (w.p1 + w.gap) (by omega) (by omega)
  · exact ⟨_, rfl, by simp⟩

/-- The loop's body keeps the invariant and moves the walk forward. -/
lemma cmBody_spec :
    cmBody im w = some .notfound ∨
    ∃ w', cmBody im w = some (.next w') ∧ WalkInv im maxdiff w' ∧ w.p2 < w'.p2 ∧
      w'.cms.maxentries = w.cms.maxentries := by
  obtain ⟨m, hm, hlong⟩ := cmMatch_spec h hstart hp2
  have hmatch : cmMinmatch = 64 := rfl
  by_cases hshort : m.len < cmMinmatch
  · -- no match, or one that is too short
    have hp2' := h.p2_ge
    refine inr ⟨{ w with p2 := w.p2 + 1, i := w.i + 1 }, by simp [cmBody, hm, hshort],
      ⟨h.inv, h.p1_ge, by simp only; omega, by simp only; omega, h.marker⟩, by simp, rfl⟩
  · obtain ⟨h1, h2, hm1, hm2, hp, hag⟩ := hlong (by omega)
    rcases cmAddModify_spec h.inv h1 h2 (by omega) (by omega) with
      hadd | ⟨es, hne, hcount, hdiff, hadd, hbuilt, hbud⟩
    · exact inl (by simp [cmBody, hm, hshort, hadd])
    · refine inr ⟨⟨⟨w.cms.e1, w.cms.e2, m.m1 + m.len, m.m2 + m.len,
        w.cms.maxdiff - (m.m2 - w.cms.used2), w.cms.maxentries, es⟩, m.m1 + m.len,
        m.m2 + m.len + 1, w.i + 1, w.gap, true, w.hstart, w.hend⟩,
        by simp [cmBody, hm, hshort, hadd], ⟨⟨hm1, hm2, h.inv.e1_le, h.inv.e2_le,
          h.inv.suffix_eq, ?_, hbud, fun _ => hcount, fun hnil => absurd hnil hne⟩,
          le_rfl, by simp, by simp only; omega, by simp⟩, by simp only; omega, rfl⟩
      rw [hbuilt, hag.move_marks]

end

/-- The main loop ends, with the invariant or without success. -/
lemma cmLoop_spec (fuel : ℕ) (w : CmWalk) (h : WalkInv im maxdiff w)
    (hfuel : im.new.length + 2 ≤ w.p2 + fuel) :
    cmLoop im maxdiff fuel w = some .notfound ∨
    ∃ cms, cmLoop im maxdiff fuel w = some (.ok cms) ∧ CmInv im maxdiff cms ∧
      cms.maxentries = w.cms.maxentries := by
  induction fuel generalizing w with
  | zero =>
    have := h.p2_le
    have := h.inv.e2_le
    omega
  | succ fuel ih =>
    by_cases hgo : w.p1 + cmBlocksize ≤ w.cms.e1 ∧ w.p2 + cmBlocksize ≤ w.cms.e2
    · rcases cmMarkers_spec h with hmark | hmark | ⟨w₁, hmark, h₁, hstart, hcms, hp2⟩
      · exact inr ⟨w.cms, by simp [cmLoop, hgo, hmark], h.inv, rfl⟩
      · exact inl (by simp [cmLoop, hgo, hmark])
      · rcases cmBody_spec h₁ hstart (by rw [hcms, hp2]; exact hgo.2) with
          hbody | ⟨w₂, hbody, h₂, hlt, hmax⟩
        · exact inl (by simp [cmLoop, hgo, hmark, hbody])
        · have hloop : cmLoop im maxdiff (fuel + 1) w = cmLoop im maxdiff fuel w₂ := by
            simp [cmLoop, hgo, hmark, hbody]
          rw [hloop, ← hcms, ← hmax]
          exact ih w₂ h₂ (by omega)
    · exact inr ⟨w.cms, by simp [cmLoop, hgo], h.inv, rfl⟩

/-- Ignoring matches at the beginning and the end establishes the invariant. -/
lemma cmTrim_spec (im : Images) (maxdiff : ℕ) (maxentries : ℤ)
    (hold : cmMinmatch ≤ im.old.length)
    (hnew : cmMinmatch ≤ im.new.length) :
    ∃ cms, cmTrim im ⟨im.old.length, im.new.length, 0, 0, maxdiff, maxentries, []⟩ = some cms ∧
      CmInv im maxdiff cms ∧ cms.maxentries = maxentries := by
  have hmatch : cmMinmatch = 64 := rfl
  obtain ⟨b, f, hm, hb1, -, hf1, hf2, -, hag, -⟩ := cmExtend_spec im
    ⟨im.old.length, im.new.length, 0, 0, maxdiff, maxentries, []⟩ 0 0 le_rfl le_rfl
    (by simp only; omega) (by simp only; omega)
  obtain rfl : b = 0 := by omega
  simp only [Nat.zero_add] at hm hf1 hf2
  have hag₁ : Agree im 0 0 (f - 1) := hag.take (Nat.sub_le _ _)
  obtain ⟨b, g, hm', hb1, hb2, hg1, hg2, hbg, -, hag'⟩ := cmExtend_spec im
    ⟨im.old.length, im.new.length, f - 1, f - 1, maxdiff, maxentries, []⟩ (im.old.length - 1)
    (im.new.length - 1) le_rfl le_rfl (by simp only; omega) (by simp only; omega)
  simp only at hb1 hb2 hg1 hg2
  have hlt : f - 1 < im.old.length ∧ f - 1 < im.new.length := by omega
  refine ⟨⟨im.old.length - (b + g - 1), im.new.length - (b + g - 1), f - 1, f - 1, maxdiff,
    maxentries, []⟩, ?_, ⟨by simp only; omega, by simp only; omega, by simp, by simp, ?_, ?_,
      by simp, by simp, fun _ => by simp only; omega⟩, rfl⟩
  · simp [cmTrim, hm, hlt, hm']
  · -- the suffix: `b` bytes back from the last one, if that is common
    rcases Nat.eq_zero_or_pos g with rfl | hg
    · obtain rfl : b = 0 := by omega
      simp
    · have hdrop : ∀ v : List UInt8, b + g - 1 ≤ v.length →
          slice v (v.length - (b + g - 1)) (b + g - 1) = v.drop (v.length - (b + g - 1)) := by
        intro v hv
        rw [slice, take_of_length_le (by simp [length_drop]; omega)]
      have heq := hag'.eq
      rwa [show im.old.length - 1 - b + 1 = im.old.length - (b + g - 1) by omega,
        show im.new.length - 1 - b + 1 = im.new.length - (b + g - 1) by omega,
        hdrop _ (by omega), hdrop _ (by omega)] at heq
  · have := hag₁.move_marks
    simpa [splices] using this

/-- **A computed operation rebuilds the new value.**  For all values and limits,
`__wt_calc_modify` reads only bytes of the two values; if it succeeds, then applying its entries to
the old value with `__wt_modify_apply_item`, in whatever buffer holds it, gives exactly the new
value; there are at most `maxentries` entries, and their data is at most `maxdiff` bytes long. -/
theorem calcModify_sound (im : Images) (maxdiff : ℕ) (maxentries : ℤ) :
    ∃ r, calcModify im maxdiff maxentries = some r ∧ ∀ es, r = .ok es →
      (∀ (junk : ℕ → UInt8) (it : Item), it.WF → it.value = im.old →
        ∃ it', modifyApplyItem junk .u it (modifyPack es) = some it' ∧ it'.value = im.new) ∧
      (es.length : ℤ) ≤ maxentries ∧ (es.map fun m => m.data.length).sum ≤ maxdiff := by
  by_cases hsmall : im.old.length < cmMinmatch ∨ im.new.length < cmMinmatch
  · exact ⟨.notfound, by simp [calcModify, hsmall], by simp⟩
  obtain ⟨cms, htrim, hinv, hmax⟩ := cmTrim_spec im maxdiff maxentries (by omega)
    (by omega)
  -- either way to `end` completes the new value
  obtain ⟨r, hr, hok⟩ : ∃ r, calcModify im maxdiff maxentries = some r ∧ ∀ es, r = .ok es →
      splices (padByte false) es im.old = im.new ∧ (es.length : ℤ) ≤ maxentries ∧
      (es.map fun m => m.data.length).sum ≤ maxdiff := by
    by_cases hshort : cms.used1 + cmBlocksize ≥ cms.e1 ∨ cms.used2 + cmBlocksize ≥ cms.e2
    · obtain ⟨r, hr, hok⟩ := cmEnd_spec hinv
      exact ⟨r, by simp [calcModify, hsmall, htrim, hshort, hr], hmax ▸ hok⟩
    · have hwalk : WalkInv im maxdiff ⟨cms, cms.used1, cms.used2, 0, 0, true, 0, 0⟩ :=
        ⟨hinv, le_rfl, le_rfl, le_trans hinv.used2_le (Nat.le_succ _), by simp⟩
      rcases cmLoop_spec (im.new.length + 2) _ hwalk (by simp only; omega) with
        hloop | ⟨cms', hloop, hinv', hmax'⟩
      · exact ⟨.notfound, by simp [calcModify, hsmall, htrim, hshort, hloop], by simp⟩
      · obtain ⟨r, hr, hok⟩ := cmEnd_spec hinv'
        refine ⟨r, by simp [calcModify, hsmall, htrim, hshort, hloop, hr], ?_⟩
        rw [hmax', hmax] at hok
        exact hok
  refine ⟨r, hr, fun es hes => ?_⟩
  obtain ⟨hsplices, hcount, hdiff⟩ := hok es hes
  refine ⟨fun junk it hwf hval => ?_, hcount, hdiff⟩
  obtain ⟨it', happly, hval'⟩ := modifyApplyItem_value junk .u es hwf (by simp)
  exact ⟨it', happly, by rw [hval', hval, applyModifies, hsplices]⟩

/-- A value in which eight bytes were inserted. -/
def insertedImages : Images where
  old := (range 70).map UInt8.ofNat
  new := (range 3).map UInt8.ofNat ++ replicate 8 255 ++
    (range' 3 67).map UInt8.ofNat

theorem calcModify_inserted :
    ∃ es, calcModify insertedImages 20 3 = some (.ok es) ∧ (es.length : ℤ) ≤ 3 ∧
      ∃ it', modifyApplyItem (fun _ => 0) .u ⟨[], ⟨[], 0⟩, some insertedImages.old, 70⟩
        (modifyPack es) = some it' ∧ it'.value = insertedImages.new := by
  obtain ⟨r, hr, hok⟩ := calcModify_sound insertedImages 20 3
  have hcalc : calcModify insertedImages 20 3 =
      some (.ok [⟨2 :: replicate 8 255, 2, 1⟩]) := by decide +kernel
  obtain rfl : r = .ok [⟨2 :: replicate 8 255, 2, 1⟩] :=
    Option.some.inj (hr.symm.trans hcalc)
  obtain ⟨happly, hcount, -⟩ := hok _ rfl
  exact ⟨_, hcalc, hcount, happly (fun _ => 0) _ (by decide) (by decide)⟩

end WiredTiger
