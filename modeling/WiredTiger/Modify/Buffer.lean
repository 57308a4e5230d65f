/-
# Values in buffers

What a packed operation unpacks to, what it means for an item to hold a value, and what applying
one entry does to it.
-/
import WiredTiger.Modify.Apply

namespace WiredTiger

open Lib List Option Modify

/-! ### Packing -/

lemma foreachBegin_pack (es : List Modify) (ws : List ℕ) (ds : List UInt8) :
    foreachBegin es.length ((es.flatMap fun m => [m.data.length, m.offset, m.size]) ++ ws)
      (es.flatMap data ++ ds) = es := by
  induction es with
  | nil => simp [foreachBegin]
  | cons m es ih =>
    simp only [flatMap_cons, length_cons, cons_append, nil_append,
      append_assoc, foreachBegin, take_left, drop_left]
    rw [ih]

@[simp]
lemma foreach_modifyPack (es : List Modify) (k : ℕ) : (modifyPack es).foreach k = es.drop k := by
  have h := foreachBegin_pack es [] []
  simp only [append_nil] at h
  simp [Packed.foreach, modifyPack, h]

lemma foreachReverse_pack (es : List Modify) (k : ℕ) (hk : k ≤ es.length) :
    foreachReverse k (es.flatMap fun m => [m.data.length, m.offset, m.size]).reverse
      (es.flatMap data) = (es.drop (es.length - k)).reverse := by
  induction es using reverseRecOn generalizing k with
  | nil => simp [Nat.le_zero.mp hk, foreachReverse]
  | append_singleton es m ih =>
    cases k with
    | zero => simp [foreachReverse]
    | succ k =>
      have hk' : k ≤ es.length := by simpa using hk
      have hsub : (es ++ [m]).length - (k + 1) = es.length - k := by
        simp
      have hlen : (es.flatMap data ++ m.data).length - m.data.length =
          (es.flatMap data).length := by simp
      rw [hsub, drop_append_of_le_length (by omega)]
      simp only [flatMap_append, flatMap_cons, flatMap_nil, append_nil,
        reverse_append, reverse_cons, reverse_nil, nil_append,
        cons_append, foreachReverse, hlen, drop_left, take_left]
      rw [ih k hk']

lemma foreachRev_modifyPack (es : List Modify) {k : ℕ} (hk : k ≤ es.length) :
    (modifyPack es).foreachRev k (es.flatMap data).length = (es.drop k).reverse := by
  simp only [Packed.foreachRev, modifyPack, take_length]
  rw [foreachReverse_pack es _ (by omega)]
  congr 2
  omega

/-! ### What an item holds -/

/-- Room for the terminating nul of a string. -/
def nulSize (sformat : Bool) : ℕ := if sformat then 1 else 0

/-- The item holds the value `v` in its own memory, with room for the terminating nul of a
string, and no access has reached beyond `hi`. -/
structure Holds (sformat : Bool) (it : Item) (v : List UInt8) (len hi : ℕ) : Prop where
  own : it.page = none
  size_eq : it.size = v.length
  shows : it.region.Shows v len hi
  room : v.length + nulSize sformat ≤ len

variable {sformat : Bool} {it : Item} {v w : List UInt8} {len hi : ℕ} {m : Modify}

lemma memcpy_own (it : Item) (h : it.page = none) {off : ℕ} {d : List UInt8} {r : Region UInt8}
    (hr : it.region.write off d = some r) : it.memcpy off d = some { it with region := r } := by
  simp [Item.memcpy, h, hr]

lemma memmove_own (it : Item) (h : it.page = none) {dst src n : ℕ} {r : Region UInt8}
    (hr : it.region.move dst src n = some r) :
    it.memmove dst src n = some { it with region := r } := by
  simp [Item.memmove, h, hr]

variable (h : Holds sformat it v len hi)
include h

namespace Holds

lemma mono {hi' : ℕ} (hle : hi ≤ hi') : Holds sformat it v len hi' :=
  { h with shows := h.shows.mono hle }

lemma with_top_le {hi' : ℕ} (htop : it.region.top ≤ hi') : Holds sformat it v len hi' :=
  { h with shows.top_le := htop }

lemma value_eq : it.value = v := by
  rw [Item.value, Item.data, h.own, h.size_eq]
  exact h.shows.take_eq

/-- Growing an item's memory does not change what it holds. -/
lemma bufGrow (junk : ℕ → UInt8) (n : ℕ) :
    ∃ it' len', bufGrow junk it n = some it' ∧ Holds sformat it' v len' hi ∧ n ≤ len' := by
  have hlen := h.shows.length_eq
  have hroom := h.room
  by_cases hd : it.dataInItem
  · by_cases hn : n + it.lead.length > it.lead.length + it.region.cells.length
    · exact ⟨{ it with region := it.region.extend junk n }, max len n,
        by simp [WiredTiger.bufGrow, hd, hn],
        ⟨h.own, h.size_eq, h.shows.extend junk n, by omega⟩, by omega⟩
    · exact ⟨it, len, by simp [WiredTiger.bufGrow, hd, hn], h, by omega⟩
  · -- the item has no memory from `data` on, so it holds the empty value
    have hnil : it.region.cells = [] := by
      simpa [Item.dataInItem, h.own, length_pos_iff] using hd
    have hv : v = [] := by
      apply eq_nil_of_length_eq_zero
      simp only [hnil, length_nil] at hlen
      omega
    subst hv
    have hmem : (⟨it.lead ++ it.region.cells, it.region.top⟩ : Region UInt8).Shows []
        it.lead.length hi := ⟨by simp [hnil], by simp, by simp, h.shows.top_le⟩
    obtain ⟨r, hr, hshows⟩ := (hmem.extend junk n).write_inside (i := 0) (d := []) (by simp)
      (by simp)
    refine ⟨⟨[], r, none, it.size⟩, _, ?_, ⟨rfl, h.size_eq, by simpa using hshows, ?_⟩, ?_⟩
    · simp only [WiredTiger.bufGrow, hd, h.value_eq, hr, map_some]
      simp
    · simp only [hnil, length_nil] at hlen
      omega
    · omega

/-- Overwriting bytes that exist in the value. -/
lemma memcpy_inside {i : ℕ} {d : List UInt8} (hd : i + d.length ≤ v.length)
    (hhi : v.length ≤ hi) :
    ∃ it', it.memcpy i d = some it' ∧ Holds sformat it' (blit v i d) len hi := by
  obtain ⟨r, hr, hshows⟩ := h.shows.write_inside hd hhi
  have hlen : (blit v i d).length = v.length := length_blit hd
  exact ⟨_, memcpy_own it h.own hr, h.own, h.size_eq.trans hlen.symm, hshows, hlen ▸ h.room⟩

end Holds

/-! ### One entry -/

/-- The entry goes past the end of the value. -/
lemma modifyAppend_holds (hoff : v.length ≤ m.offset)
    (hroom : m.offset + m.data.length + nulSize sformat ≤ len) :
    ∃ it', modifyAppend sformat it m = some it' ∧
      Holds sformat it' (splice (padByte sformat) m v) len
        (max hi (splice (padByte sformat) m v).length) := by
  have hsize := h.size_eq
  have hspl : splice (padByte sformat) m v = _ := splice_of_ge _ hoff
  have hlen : (splice (padByte sformat) m v).length = m.offset + m.data.length := by
    rw [hspl]
    simp only [length_append, length_replicate]
    omega
  -- the gap, if there is one, is filled first, and then the data follows it
  obtain ⟨r, hgap, h₁⟩ : ∃ r, fillGap sformat it m.offset = some { it with region := r } ∧
      r.Shows (v ++ replicate (m.offset - v.length) (padByte sformat)) len
        (max hi m.offset) := by
    rcases hoff.lt_or_eq with hlt | heq
    · obtain ⟨r, hr, hshows⟩ := h.shows.write_behind
        (d := replicate (m.offset - v.length) (padByte sformat))
        (by simp only [length_replicate]; omega)
      rw [← hsize] at hr
      refine ⟨r, by rw [fillGap, if_pos (by omega), memcpy_own it h.own hr], hshows.mono ?_⟩
      simp only [length_replicate]
      omega
    · refine ⟨it.region, by rw [fillGap, if_neg (by omega)], ?_⟩
      simpa [← heq] using h.shows.mono (le_max_left _ _)
  have hpad : (v ++ replicate (m.offset - v.length) (padByte sformat)).length = m.offset := by
    simp only [length_append, length_replicate]
    omega
  obtain ⟨r', hr', h₂⟩ := h₁.write_behind (d := m.data) (by omega)
  rw [hpad] at hr' h₂
  have hcopy : ({ it with region := r } : Item).memcpy m.offset m.data =
      some { it with region := r' } := memcpy_own { it with region := r } h.own hr'
  refine ⟨{ it with region := r', size := m.offset + m.data.length }, ?_, h.own, hlen.symm,
    hspl ▸ h₂.mono ?_, hlen ▸ hroom⟩
  · simp [modifyAppend, hgap, hcopy, bind_eq_bind, bind_some]
  · rw [hspl] at hlen
    omega

/-- The entry replaces `size` bytes that are all in the value; if it replaces them by equally
many, these are the last ones. -/
lemma modifyReplace_holds (size : ℕ) (hsize : m.offset + size ≤ v.length)
    (hend : m.data.length = size → v.length = m.offset + size)
    (hroom : v.length + m.data.length + nulSize sformat ≤ len) :
    ∃ it', modifyReplace it m size = some it' ∧
      Holds sformat it' (v.take m.offset ++ m.data ++ v.drop (m.offset + size)) len
        (max hi (max v.length (v.length - size + m.data.length))) := by
  have hs := h.size_eq
  have hlen : (v.take m.offset ++ m.data ++ v.drop (m.offset + size)).length =
      v.length + m.data.length - size := by
    simp only [length_append, length_take, length_drop]
    omega
  by_cases heq : m.data.length = size
  · -- the new data ends where the value ended
    obtain ⟨r, hr, hshows⟩ := (h.shows.mono (le_max_left hi (max v.length
      (v.length - size + m.data.length)))).write_inside (i := m.offset) (d := m.data)
      (by omega) (by omega)
    refine ⟨{ it with region := r, size := m.offset + m.data.length }, ?_, h.own, ?_, ?_,
      by omega⟩
    · simp [modifyReplace, heq, memcpy_own it h.own hr, bind_eq_bind,
        bind_some]
    · simp only [hlen]
      omega
    · have hblit : blit v m.offset m.data =
          v.take m.offset ++ m.data ++ v.drop (m.offset + size) := by rw [blit, heq]
      exact hblit ▸ hshows
  · obtain ⟨r₁, r₂, hr₁, hr₂, hshows⟩ := h.shows.replace (d := m.data) hsize (by omega)
    have hmove : it.memmove (m.offset + m.data.length) (m.offset + size)
        (it.size - (m.offset + size)) = some { it with region := r₁ } :=
      memmove_own it h.own (hs ▸ hr₁)
    have hcopy : ({ it with region := r₁ } : Item).memcpy m.offset m.data =
        some { it with region := r₂ } := memcpy_own { it with region := r₁ } h.own hr₂
    refine ⟨{ it with region := r₂, size := it.size + m.data.length - size }, ?_, h.own,
      by simp only [hs, hlen], hshows, by omega⟩
    simp [modifyReplace, heq, hmove, hcopy, bind_eq_bind, bind_some]

/-- **One entry.**  `__modify_apply_one` replaces the value by its splice. -/
lemma modifyApplyOne_holds (junk : ℕ → UInt8) (m : Modify) :
    ∃ it' len', modifyApplyOne junk sformat it m = some it' ∧
      Holds sformat it' (splice (padByte sformat) m v) len'
        (max hi (max v.length (splice (padByte sformat) m v).length)) := by
  obtain ⟨it₁, len₁, hgrow, h₁, hlen₁⟩ := h.bufGrow junk
    (it.itemOffset + max it.size m.offset + m.data.length + (if sformat then 1 else 0))
  have hs := h.size_eq
  have hs₁ := h₁.size_eq
  have hroom : max v.length m.offset + m.data.length + nulSize sformat ≤ len₁ := by
    rw [hs] at hlen₁
    simp only [nulSize]
    omega
  by_cases hfast : v.length > m.offset + m.data.length ∧ m.data.length = m.size
  · -- overwriting a set of bytes that already exist in the buffer
    obtain ⟨it', hcopy, h'⟩ := (h₁.mono (le_max_left hi (max v.length
      (splice (padByte sformat) m v).length))).memcpy_inside (i := m.offset) (d := m.data)
      (by omega) (by omega)
    rw [← splice_eq_blit _ hfast.2 (by omega)] at h'
    refine ⟨it', len₁, ?_, h'⟩
    simp [modifyApplyOne, hgrow, bind_eq_bind, bind_some, hs₁, if_pos hfast,
      hcopy]
  by_cases hpast : v.length ≤ m.offset
  · obtain ⟨it', happ, h'⟩ := modifyAppend_holds h₁ hpast (by omega)
    refine ⟨it', len₁, ?_, h'.mono (by omega)⟩
    simp [modifyApplyOne, hgrow, bind_eq_bind, bind_some, hs₁, if_neg hfast,
      if_pos hpast, happ]
  by_cases hcut : v.length < m.offset + m.size
  · -- the replaced range is cut off at the end of the value
    obtain ⟨it', hrep, h'⟩ := modifyReplace_holds h₁ (m := m) (v.length - m.offset)
      (by omega) (by omega) (by omega)
    have hspl : splice (padByte sformat) m v =
        v.take m.offset ++ m.data ++ v.drop (m.offset + (v.length - m.offset)) := by
      rw [splice_of_lt _ (by omega) (by omega), drop_eq_nil_of_le (by omega), append_nil]
    rw [← hspl] at h'
    refine ⟨it', len₁, ?_, h'.mono ?_⟩
    · simp [modifyApplyOne, hgrow, bind_eq_bind, bind_some, hs₁, if_neg hfast,
        if_neg hpast, if_pos hcut, hrep]
    · rw [hspl]
      simp only [length_append, length_take, length_drop]
      omega
  · obtain ⟨it', hrep, h'⟩ := modifyReplace_holds h₁ (m := m) m.size
      (by omega) (by omega) (by omega)
    have hle : m.offset + m.size ≤ v.length := by omega
    have hlen : (splice (padByte sformat) m v).length + m.size = _ := length_splice_of_le _ hle
    rw [← splice_of_le (padByte sformat) hle] at h'
    refine ⟨it', len₁, ?_, h'.mono (by omega)⟩
    simp [modifyApplyOne, hgrow, bind_eq_bind, bind_some, hs₁, if_neg hfast,
      if_neg hpast, if_neg hcut, hrep]

/-- The loop that applies the entries one by one. -/
lemma modifyApplyLoop_holds (junk : ℕ → UInt8) (ms : List Modify) :
    ∃ it' len', modifyApplyLoop junk sformat ms it = some it' ∧
      Holds sformat it' (splices (padByte sformat) ms v) len'
        (max hi (peak (padByte sformat) ms v)) := by
  induction ms generalizing it v len hi with
  | nil => exact ⟨it, len, rfl, h.mono (le_max_left _ _)⟩
  | cons m ms ih =>
    obtain ⟨it₁, len₁, hone, h₁⟩ := modifyApplyOne_holds h junk m
    obtain ⟨it₂, len₂, hloop, h₂⟩ := ih h₁
    have hpeak := length_le_peak (padByte sformat) ms (splice (padByte sformat) m v)
    refine ⟨it₂, len₂, ?_, h₂.mono ?_⟩
    · simp [modifyApplyLoop, hone, bind_eq_bind, bind_some, hloop]
    · simp only [peak]
      omega

end WiredTiger
