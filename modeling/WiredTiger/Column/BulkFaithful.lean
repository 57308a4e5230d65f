/-
# Bulk loads that are faithful

As long as the records of a page end on a byte boundary, the pages of a load are the bytes of the
bitmap one after the other, and a record is read from its bits of the bitmap.
-/
import WiredTiger.Column.BulkBitmap
import WiredTiger.Lib.Pointwise

namespace WiredTiger

open Lib List Nat FixPage

/-! ### Bit strings -/

lemma bitstrSize_le_iff {n m : ℕ} : bitstrSize n ≤ m ↔ n ≤ 8 * m := by
  unfold bitstrSize
  omega

lemma bitstrSize_add {n m : ℕ} (h : n % 8 = 0) :
    bitstrSize (n + m) = bitstrSize n + bitstrSize m := by
  unfold bitstrSize
  omega

@[simp] lemma bitstrSize_zero : bitstrSize 0 = 0 := rfl

lemma bitstrSize_pos {n : ℕ} (h : 0 < n) : 0 < bitstrSize n := by
  unfold bitstrSize
  omega

/-- Bits of a part of a bit string that starts on a byte boundary. -/
lemma bitTest_middle (pre l post : List UInt8) {bit : ℕ} (h : bit < 8 * l.length) :
    bitTest (pre ++ l ++ post) (8 * pre.length + bit) = bitTest l bit := by
  unfold bitTest
  have hdiv : (8 * pre.length + bit) / 8 = pre.length + bit / 8 := by omega
  have hmod : (8 * pre.length + bit) % 8 = bit % 8 := by omega
  rw [hdiv, hmod, append_assoc, getD_append_right _ _ _ _ (Nat.le_add_right _ _),
    Nat.add_sub_cancel_left, getD_append _ _ _ _ (by omega)]

lemma bitGetvFrom_congr {l l' : List UInt8} {width bit bit' : ℕ}
    (h : ∀ b < width, bitTest l (bit + b) = bitTest l' (bit' + b)) :
    bitGetvFrom l width bit = bitGetvFrom l' width bit' := by
  induction width generalizing bit bit' with
  | zero => rfl
  | succ width ih =>
    rw [bitGetvFrom, bitGetvFrom, show bitTest l bit = bitTest l' bit' from h 0 (by omega),
      @ih (bit + 1) (bit' + 1)]
    intro b hb
    have := h (b + 1) (by omega)
    rwa [← add_assoc, add_right_comm, ← add_assoc, add_right_comm bit'] at this

/-- A value is told by its bits. -/
lemma bitGetv_congr {l l' : List UInt8} {entry entry' width : ℕ}
    (h : ∀ b < width, bitTest l (entry * width + b) = bitTest l' (entry' * width + b)) :
    bitGetv l entry width = bitGetv l' entry' width := by
  unfold bitGetv
  split_ifs with hw
  · subst hw
    refine Nat.eq_of_testBit_eq fun b => ?_
    rcases lt_or_ge b 8 with hb | hb
    · have := h b hb
      unfold bitTest at this
      rwa [show (entry * 8 + b) / 8 = entry * 8 / 8 by omega,
        show (entry' * 8 + b) / 8 = entry' * 8 / 8 by omega,
        show (entry * 8 + b) % 8 = b by omega, show (entry' * 8 + b) % 8 = b by omega] at this
    · have hlt : ∀ x : UInt8, x.toNat < 2 ^ b := fun x =>
        x.toNat_lt.trans_le (Nat.pow_le_pow_right (by decide) hb)
      rw [Nat.testBit_lt_two_pow (hlt _), Nat.testBit_lt_two_pow (hlt _)]
  · exact bitGetvFrom_congr h

/-- A value whose first bit is set is not 0. -/
lemma bitGetv_ne_zero {l : List UInt8} {entry width : ℕ} (hw : 0 < width)
    (h : bitTest l (entry * width) = true) : bitGetv l entry width ≠ 0 := by
  unfold bitGetv
  split_ifs with h8
  · intro hzero
    unfold bitTest at h
    rw [hzero, zero_testBit] at h
    cases h
  · obtain ⟨width, rfl⟩ := exists_eq_succ_of_ne_zero hw.ne'
    intro hzero
    rw [bitGetvFrom, h, if_pos rfl, or_eq_zero_iff] at hzero
    exact absurd hzero.1 (by positivity)

lemma bitGetv_eq_zero {l : List UInt8} {entry width : ℕ}
    (h : ∀ b < width, bitTest l (entry * width + b) = false) : bitGetv l entry width = 0 := by
  have hempty : ∀ b < width, bitTest l (entry * width + b) = bitTest [] (0 * width + b) := by
    intro b hb
    rw [h b hb]
    simp [bitTest]
  rw [bitGetv_congr hempty]
  have hfrom : ∀ w bit, bitGetvFrom [] w bit = 0 := by
    intro w
    induction w with
    | zero => exact fun _ => rfl
    | succ w ih =>
      intro bit
      rw [bitGetvFrom, ih]
      simp [bitTest]
  unfold bitGetv
  split_ifs
  · simp
  · exact hfrom _ _

namespace FixBtree

variable {t : FixBtree}

/-! ### Room -/

lemma room_pos : 0 < t.room := by
  have := t.space_pos
  have := t.bitcnt_le
  exact div_pos (by omega) t.bitcnt_pos

lemma room_mul_le : t.room * t.bitcnt ≤ 8 * t.space := by
  rw [mul_comm 8]
  exact div_mul_le_self _ _

/-- The records of a page end on a byte boundary if they fill it. -/
lemma room_mul_mod : t.room * t.bitcnt % 8 = 0 ↔ t.bitcnt ∣ 8 * t.space := by
  have hsum := div_add_mod (t.space * 8) t.bitcnt
  have hlt := mod_lt (t.space * 8) t.bitcnt_pos
  have hle := t.bitcnt_le
  have hroom : t.bitcnt * (t.space * 8 / t.bitcnt) = t.room * t.bitcnt := mul_comm _ _
  rw [hroom] at hsum
  rw [mul_comm 8, dvd_iff_mod_eq_zero]
  omega

lemma room_mul_of_dvd (h : t.bitcnt ∣ 8 * t.space) : t.room * t.bitcnt = 8 * t.space := by
  rw [room, Nat.mul_comm t.space]
  exact Nat.div_mul_cancel h

/-! ### The bytes of the bitmap, one after the other -/

/-- The bytes of the bitmap are on the pages one after the other.  There is a second page only if
records fill a page. -/
structure Loaded (t : FixBtree) (bytes : List UInt8) (c : CursorBulk) : Prop where
  image : c.image.length = t.space
  nrecs : (c.nrecs = 0 ∧ c.entry = 0) ∨ (c.nrecs = t.room ∧ c.entry ≤ t.room)
  full : ∀ k p, c.pages[k]? = some p →
    p.recno = k * t.room + 1 ∧ p.entries = t.room ∧ p.bitf.length = t.space
  fills : c.pages ≠ [] → t.room * t.bitcnt = 8 * t.space
  chunkRecno : c.chunkRecno = c.pages.length * t.room + 1
  recno : c.recno = c.chunkRecno + c.entry
  flat : c.pages.flatMap bitf ++ c.image.take (bitstrSize (c.entry * t.bitcnt)) = bytes

lemma loaded_init (t : FixBtree) : Loaded t [] t.bulkInit where
  image := length_replicate
  nrecs := .inl ⟨rfl, rfl⟩
  full k p h := by cases h
  fills h := absurd rfl h
  chunkRecno := by simp [bulkInit]
  recno := rfl
  flat := by simp [bulkInit]

variable {bytes : List UInt8} {c : CursorBulk}

/-- The pages of a load in terms of the record numbers: the last one may have fewer records. -/
structure PagesOf (t : FixBtree) (bytes : List UInt8) (pages : List FixPage) : Prop where
  recno : ∀ k p, pages[k]? = some p → p.recno = k * t.room + 1 ∧ p.entries ≤ t.room
  value : ∀ k p, pages[k]? = some p → ∀ e < p.entries,
    bitGetv p.bitf e t.bitcnt = bitGetv bytes (k * t.room + e) t.bitcnt

/-- A record is found on its page. -/
lemma PagesOf.readRecno {pages : List FixPage} (h : PagesOf t bytes pages) {k e : ℕ} {p : FixPage}
    (hp : pages[k]? = some p) (he : e < p.entries) :
    t.readRecno pages (k * t.room + e + 1) =
      some (bitGetv bytes (k * t.room + e) t.bitcnt) := by
  obtain ⟨hrecno, hentries⟩ := h.recno k p hp
  obtain ⟨hk, rfl⟩ := List.getElem?_eq_some_iff.mp hp
  have hfind : pages.find? (fun p => p.recno ≤ k * t.room + e + 1 ∧
      k * t.room + e + 1 < p.recno + p.entries) = some pages[k] := by
    rw [find?_eq_some_iff_getElem]
    refine ⟨decide_eq_true ⟨by omega, by omega⟩, k, hk, rfl, ?_⟩
    intro j hj
    obtain ⟨hrecno', hentries'⟩ := h.recno j _ (getElem?_eq_getElem (hj.trans hk))
    have hmul : (j + 1) * t.room ≤ k * t.room := mul_le_mul_right _ hj
    rw [add_mul] at hmul
    simp only [Bool.not_eq_true', decide_eq_false_iff_not]
    omega
  rw [FixBtree.readRecno, hfind, Option.map_some, hrecno]
  rw [show k * t.room + e + 1 - (k * t.room + 1) = e by omega, h.value k _ hp e he]

namespace Loaded

variable (h : Loaded t bytes c)
include h

lemma entry_le : c.entry ≤ t.room := by
  rcases h.nrecs with ⟨-, h⟩ | ⟨-, h⟩ <;> omega

lemma recno_eq : c.recno = c.pages.length * t.room + c.entry + 1 := by
  rw [h.recno, h.chunkRecno, Nat.add_right_comm]

/-- Records fill a page if there is another one. -/
lemma recno_mul_mod :
    (c.recno - 1) * t.bitcnt % 8 = c.entry * t.bitcnt % 8 := by
  rw [h.recno_eq, Nat.add_sub_cancel, Nat.add_mul]
  rcases Nat.eq_zero_or_pos c.pages.length with hzero | hpos
  · rw [hzero]
    simp
  · rw [Nat.mul_assoc, h.fills (length_pos_iff.mp hpos), Nat.add_mod, Nat.mul_left_comm,
      Nat.mul_mod_right]
    simp

/-- The split check keeps the bytes, if the page that is full is filled. -/
lemma splitCheck (hfill : c.entry = t.room → t.room * t.bitcnt = 8 * t.space) :
    Loaded t bytes (t.splitCheck c) ∧ (t.splitCheck c).recno = c.recno ∧
      (t.splitCheck c).nrecs = t.room ∧ (t.splitCheck c).entry < t.room ∧
      ((t.splitCheck c).entry = 0 ∨ (t.splitCheck c).entry = c.entry) := by
  have hroom := @room_pos t
  unfold FixBtree.splitCheck writeChunk
  by_cases heq : c.entry = c.nrecs
  · rw [if_pos heq]
    by_cases hzero : c.entry = 0
    · rw [if_neg (not_not.mpr hzero)]
      refine ⟨⟨h.image, .inr ⟨rfl, Nat.zero_le _⟩, h.full, h.fills, h.chunkRecno, ?_, ?_⟩, rfl,
        rfl, hroom, .inl rfl⟩
      · rw [h.recno, hzero]
      · rw [← h.flat, hzero]
    · rw [if_pos hzero]
      have hentry : c.entry = t.room := by
        rcases h.nrecs with ⟨-, hz⟩ | ⟨hn, -⟩ <;> omega
      have hfilled := hfill hentry
      have hsize : bitstrSize (c.entry * t.bitcnt) = t.space := by
        rw [hentry, hfilled]
        unfold bitstrSize
        omega
      have hbitf : c.image.take (bitstrSize (c.entry * t.bitcnt)) = c.image := by
        rw [hsize, ← h.image, take_length]
      refine ⟨⟨length_replicate, .inr ⟨rfl, Nat.zero_le _⟩, ?_, fun _ => hfilled, ?_, ?_, ?_⟩,
        rfl, rfl, hroom, .inl rfl⟩
      · intro k p hp
        rcases getElem?_concat_cases hp with ⟨-, hp⟩ | ⟨rfl, rfl⟩
        · exact h.full k p hp
        · exact ⟨h.chunkRecno, hentry, by rw [chunk, hbitf, h.image]⟩
      · rw [length_append, length_singleton, h.recno, h.chunkRecno, hentry]
        ring
      · rfl
      · dsimp only [chunk]
        rw [flatMap_append, flatMap_singleton, ← h.flat]
        simp
  · rw [if_neg heq]
    refine ⟨h, rfl, ?_, ?_, .inr rfl⟩
    · rcases h.nrecs with ⟨hn, hz⟩ | ⟨hn, -⟩ <;> omega
    · rcases h.nrecs with ⟨hn, hz⟩ | ⟨hn, hle⟩ <;> omega

/-- Records that start on a byte boundary of the page are copied behind the others. -/
lemma copyRecords (hnrecs : c.nrecs = t.room) (haligned : c.entry * t.bitcnt % 8 = 0)
    (data : List UInt8) {n : ℕ} (hn : c.entry + n ≤ t.room)
    (hdata : bitstrSize (n * t.bitcnt) ≤ data.length) :
    ∃ c', t.copyRecords c data n = .ok c' ∧
      Loaded t (bytes ++ data.take (bitstrSize (n * t.bitcnt))) c' ∧
      c'.recno = c.recno + n ∧ c'.entry = c.entry + n ∧ c'.nrecs = t.room ∧ c'.pages = c.pages := by
  have hsize : bitstrSize ((c.entry + n) * t.bitcnt) =
      bitstrSize (c.entry * t.bitcnt) + bitstrSize (n * t.bitcnt) := by
    rw [add_mul, bitstrSize_add haligned]
  have hroom : bitstrSize (c.entry * t.bitcnt) + bitstrSize (n * t.bitcnt) ≤ c.image.length := by
    rw [← hsize, h.image, bitstrSize_le_iff]
    exact (mul_le_mul_right _ hn).trans room_mul_le
  have hlen : (data.take (bitstrSize (n * t.bitcnt))).length = bitstrSize (n * t.bitcnt) := by
    rw [length_take]
    omega
  unfold FixBtree.copyRecords
  rw [if_pos ⟨hdata, hroom⟩]
  refine ⟨_, rfl, ⟨?_, .inr ⟨hnrecs, hn⟩, h.full, h.fills, h.chunkRecno, ?_, ?_⟩, rfl, rfl, hnrecs,
    rfl⟩
  · exact (length_blit (by rw [hlen]; exact hroom)).trans h.image
  · dsimp only
    rw [h.recno]
    omega
  · rw [hsize, ← h.flat, append_assoc]
    have := @take_blit_end _ c.image (data.take (bitstrSize (n * t.bitcnt)))
      (bitstrSize (c.entry * t.bitcnt)) (by omega)
    rw [hlen] at this
    rw [this]

/-- The loop puts the bytes of a chunk behind those of the others, if records fill a page or all of
them are on the first page. -/
lemma bitmapLoop (data : List UInt8) {fuel n : ℕ} (hfuel : n ≤ fuel)
    (haligned : 0 < n → (c.recno - 1) * t.bitcnt % 8 = 0)
    (hfits : t.bitcnt ∣ 8 * t.space ∨ c.recno - 1 + n ≤ t.room)
    (hdata : data.length = bitstrSize (n * t.bitcnt)) :
    ∃ c', t.bitmapLoop fuel c data n = .ok c' ∧ Loaded t (bytes ++ data) c' ∧
      c'.recno = c.recno + n := by
  induction fuel generalizing bytes c data n with
  | zero =>
    obtain rfl : n = 0 := by omega
    obtain rfl : data = [] := eq_nil_of_length_eq_zero (by simpa using hdata)
    exact ⟨c, rfl, by simpa using h, rfl⟩
  | succ fuel ih =>
    rcases Nat.eq_zero_or_pos n with rfl | hpos
    · obtain rfl : data = [] := eq_nil_of_length_eq_zero (by simpa using hdata)
      exact ⟨c, rfl, by simpa using h, rfl⟩
    have hfill : c.entry = t.room → t.room * t.bitcnt = 8 * t.space := by
      intro hentry
      rcases hfits with hdvd | hle
      · exact room_mul_of_dvd hdvd
      · have := h.recno_eq
        omega
    obtain ⟨h₁, hrecno₁, hnrecs₁, hlt₁, hentry₁⟩ := h.splitCheck hfill
    have haligned₁ : (t.splitCheck c).entry * t.bitcnt % 8 = 0 := by
      rw [← h₁.recno_mul_mod, hrecno₁]
      exact haligned hpos
    set m := min n (t.room - (t.splitCheck c).entry) with hm
    have hmod : m = n ∨ m * t.bitcnt % 8 = 0 := by
      refine (le_or_gt n (t.room - (t.splitCheck c).entry)).imp (fun hle => by omega) ?_
      intro hgt
      -- there is another page, so this one is filled
      have hfilled : t.room * t.bitcnt = 8 * t.space := by
        rcases hfits with hdvd | hle
        · exact room_mul_of_dvd hdvd
        · have := h₁.recno_eq
          omega
      have hsum : m * t.bitcnt + (t.splitCheck c).entry * t.bitcnt = 8 * t.space := by
        rw [← hfilled, ← Nat.add_mul]
        congr 1
        omega
      omega
    have hsize : bitstrSize (n * t.bitcnt) =
        bitstrSize (m * t.bitcnt) + bitstrSize ((n - m) * t.bitcnt) := by
      rcases hmod with heq | hmod
      · simp [heq]
      · rw [← bitstrSize_add hmod, ← Nat.add_mul]
        congr 2
        omega
    obtain ⟨c₂, hc₂, h₂, hrecno₂, -⟩ := h₁.copyRecords hnrecs₁ haligned₁ data
      (n := m) (by omega) (by omega)
    have hrecno : c₂.recno - 1 = c.recno - 1 + m := by
      have := h.recno_eq
      omega
    obtain ⟨c₃, hc₃, h₃, hrecno₃⟩ := ih h₂ (data.drop (bitstrSize (m * t.bitcnt)))
      (n := n - m) (by omega)
      (fun hlt => by
        rcases hmod with heq | hmod
        · omega
        · rw [hrecno, Nat.add_mul, Nat.add_mod, haligned hpos, hmod])
      (hfits.imp_right fun hle => by omega)
      (by rw [length_drop]; omega)
    refine ⟨c₃, ?_, ?_, by omega⟩
    · rw [FixBtree.bitmapLoop, if_neg hpos.ne']
      dsimp only
      rw [hnrecs₁, ← hm, hc₂]
      exact hc₃
    · rwa [append_assoc, take_append_drop] at h₃

/-- Chunks that are accepted are loaded one after the other. -/
lemma load {chunks : List t.BitmapChunk} (hsizes : ∀ b ∈ chunks, b.size < 2 ^ 32)
    (haccepted : ∀ k < chunks.length,
      (c.recno - 1 + ((chunks.map BitmapChunk.size).take k).sum) * t.bitcnt % 8 = 0)
    (hfits : t.bitcnt ∣ 8 * t.space ∨
      c.recno - 1 + (chunks.map BitmapChunk.size).sum ≤ t.room) :
    ∃ c', chunks.foldlM t.bulkInsertFixBitmap c = .ok c' ∧
      Loaded t (bytes ++ chunks.flatMap BitmapChunk.data) c' ∧
      c'.recno = c.recno + (chunks.map BitmapChunk.size).sum := by
  induction chunks generalizing bytes c with
  | nil => exact ⟨c, rfl, by simpa using h, rfl⟩
  | cons b chunks ih =>
    have hb : b.size % 2 ^ 32 = b.size := mod_eq_of_lt (hsizes b mem_cons_self)
    have hstart : (c.recno - 1) * t.bitcnt % 8 = 0 := by
      simpa using haccepted 0 (by simp)
    rw [map_cons, sum_cons] at hfits ⊢
    obtain ⟨c₁, hc₁, h₁, hrecno₁⟩ := h.bitmapLoop b.data (le_refl b.size) (fun _ => hstart)
      (hfits.imp_right fun hle => by omega) b.fits
    have hrecno : c₁.recno - 1 = c.recno - 1 + b.size := by
      have := h.recno_eq
      omega
    have haccepted₁ : ∀ k < chunks.length,
        (c₁.recno - 1 + ((chunks.map BitmapChunk.size).take k).sum) * t.bitcnt % 8 = 0 := by
      intro k hk
      have := haccepted (k + 1) (by simpa using hk)
      rwa [map_cons, take_succ_cons, sum_cons, ← add_assoc, ← hrecno] at this
    obtain ⟨c₂, hc₂, h₂, hrecno₂⟩ := ih h₁ (fun b' hb' => hsizes b' (mem_cons_of_mem _ hb'))
      haccepted₁ (hfits.imp_right fun hle => by omega)
    refine ⟨c₂, ?_, ?_, by omega⟩
    · rw [foldlM_cons, bulkInsertFixBitmap, if_neg (not_not.mpr hstart), hb, hc₁]
      exact hc₂
    · rwa [append_assoc, ← flatMap_cons] at h₂

lemma length_front {k : ℕ} (hk : k ≤ c.pages.length) :
    ((c.pages.take k).flatMap bitf).length = k * t.space := by
  induction k with
  | zero => simp
  | succ k ih =>
    have hp := getElem?_eq_getElem (l := c.pages) (i := k) (by omega)
    rw [take_add_one, hp, flatMap_append, length_append, ih (by omega)]
    have hlen := (h.full k _ hp).2.2
    simp only [Option.toList_some, flatMap_singleton, hlen]
    ring

/-- The pages of a load as they are written at its end: each has its records behind those of the
pages in front of it, which are filled. -/
lemma wrapup_page {k : ℕ} {p : FixPage} (hp : (t.bulkWrapup c)[k]? = some p) :
    k ≤ c.pages.length ∧ p.recno = k * t.room + 1 ∧ p.entries ≤ t.room ∧
      p.entries * t.bitcnt ≤ 8 * p.bitf.length ∧
      ∃ post, (c.pages.take k).flatMap bitf ++ p.bitf ++ post = bytes := by
  have hfull : ∀ q, c.pages[k]? = some q → k ≤ c.pages.length ∧ q.recno = k * t.room + 1 ∧
      q.entries ≤ t.room ∧ q.entries * t.bitcnt ≤ 8 * q.bitf.length ∧
      ∃ post, (c.pages.take k).flatMap bitf ++ q.bitf ++ post = bytes := by
    intro q hq
    obtain ⟨hrecno, hentries, hlen⟩ := h.full k q hq
    obtain ⟨hk, hget⟩ := List.getElem?_eq_some_iff.mp hq
    refine ⟨hk.le, hrecno, hentries.le, ?_, ?_⟩
    · rw [hentries, hlen]
      exact room_mul_le
    · refine ⟨(c.pages.drop (k + 1)).flatMap bitf ++
        c.image.take (bitstrSize (c.entry * t.bitcnt)), ?_⟩
      rw [← h.flat]
      conv_rhs => rw [← take_append_drop k c.pages, drop_eq_getElem_cons hk, hget]
      simp [flatMap_append, flatMap_cons, append_assoc]
  unfold bulkWrapup writeChunk at hp
  split_ifs at hp with hentry
  · rcases getElem?_concat_cases hp with ⟨-, hp⟩ | ⟨rfl, rfl⟩
    · exact hfull p hp
    · rw [chunk]
      refine ⟨le_rfl, h.chunkRecno, h.entry_le, ?_, [], ?_⟩
      · have hle : bitstrSize (c.entry * t.bitcnt) ≤ c.image.length := by
          rw [h.image, bitstrSize_le_iff]
          exact (Nat.mul_le_mul_right _ h.entry_le).trans room_mul_le
        rw [length_take, Nat.min_eq_left hle]
        exact bitstrSize_le_iff.mp le_rfl
      · rw [take_length, append_nil, h.flat]
  · exact hfull p hp

/-- What has been loaded is read back. -/
lemma pagesOf : PagesOf t bytes (t.bulkWrapup c) where
  recno k p hp := by
    obtain ⟨-, hrecno, hentries, -⟩ := h.wrapup_page hp
    exact ⟨hrecno, hentries⟩
  value k p hp e he := by
    obtain ⟨hk, -, -, hlen, post, rfl⟩ := h.wrapup_page hp
    have hfront := h.length_front hk
    have hmul : k * t.room * t.bitcnt = 8 * (k * t.space) := by
      rcases Nat.eq_zero_or_pos k with rfl | hpos
      · simp
      · rw [Nat.mul_assoc, h.fills (length_pos_iff.mp (by omega))]
        ring
    refine bitGetv_congr fun b hb => ?_
    have hbit : e * t.bitcnt + b < 8 * p.bitf.length := by
      have : (e + 1) * t.bitcnt ≤ p.entries * t.bitcnt := Nat.mul_le_mul_right _ he
      rw [Nat.add_mul] at this
      omega
    have := bitTest_middle ((c.pages.take k).flatMap bitf) p.bitf post hbit
    rw [hfront] at this
    rw [← this, Nat.add_mul, hmul, Nat.add_assoc]

/-- Every record that has been loaded is read back. -/
lemma read {i : ℕ} (hi : i < c.recno - 1) :
    t.readRecno (t.bulkWrapup c) (i + 1) = some (bitGetv bytes i t.bitcnt) := by
  have hroom := @room_pos t
  have hrecno := h.recno
  have hchunk := h.chunkRecno
  have hdiv := div_add_mod' i t.room
  have hmod := mod_lt i hroom
  obtain ⟨p, hp, he⟩ : ∃ p, (t.bulkWrapup c)[i / t.room]? = some p ∧ i % t.room < p.entries := by
    unfold bulkWrapup writeChunk
    rcases lt_or_ge (i / t.room) c.pages.length with hk | hk
    · obtain ⟨-, hentries, -⟩ := h.full _ _ (getElem?_eq_getElem hk)
      refine ⟨c.pages[i / t.room], ?_, by omega⟩
      split_ifs
      · exact (getElem?_append_left hk).trans (getElem?_eq_getElem hk)
      · exact getElem?_eq_getElem hk
    · have hmul : c.pages.length * t.room ≤ i / t.room * t.room := mul_le_mul_right _ hk
      have hle := h.entry_le
      have hk' : i / t.room = c.pages.length := by
        refine le_antisymm (le_of_lt_succ ?_) hk
        rw [div_lt_iff_lt_mul hroom, succ_mul]
        omega
      refine ⟨t.chunk c, ?_, ?_⟩
      · rw [if_pos (by omega), hk']
        simp
      · show i % t.room < c.entry
        rw [hk'] at hdiv
        omega
  have := h.pagesOf.readRecno hp he
  rwa [hdiv] at this

end Loaded

/-- Accepted chunks are loaded faithfully if records fill a page or all of them are on the first
page. -/
lemma faithful_of_fits {chunks : List t.BitmapChunk}
    (haccepted : t.Accepted (chunks.map BitmapChunk.size))
    (hsizes : ∀ b ∈ chunks, b.size < 2 ^ 32)
    (hfits : t.bitcnt ∣ 8 * t.space ∨ (chunks.map BitmapChunk.size).sum ≤ t.room) :
    t.Faithful chunks := by
  obtain ⟨c, hc, h, hrecno⟩ := (loaded_init t).load hsizes
    (fun k hk => by simpa [bulkInit] using haccepted k (by simpa using hk))
    (by simpa [bulkInit] using hfits)
  refine ⟨t.bulkWrapup c, ?_, ?_⟩
  · rw [bulkLoad, hc]
    rfl
  · intro i hi
    refine h.read ?_
    rw [hrecno]
    simpa [bulkInit] using hi

end FixBtree

end WiredTiger
