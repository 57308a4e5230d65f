/-
# Applying a modify operation refines splicing

`__wt_modify_apply_item` has three ways to get to the new value; each of them gets to the
value that the entries describe, one after another, as splices.

The interesting one is the pass from right to left.  Suppose the entries `e₁, …, eₖ` are not
applied in place and pass the checks of `__modify_fast_path`.  Write `Gᵢ` for the number of
bytes by which the entries before `eᵢ` make the value longer.  The checks say that this number
never becomes negative: an entry that changes the length may replace at most `Gᵢ` bytes.  So the
value only grows, `eᵢ` replaces bytes of the original value that start at `offset - Gᵢ`, and a
block of the original value is never written to before it has been moved.
-/
import WiredTiger.Modify.Buffer

namespace WiredTiger

open Lib List Option Nat ValueFormat

variable {sformat : Bool} {it : Item} {v w : List UInt8} {len hi : ℕ} {m : Modify}
variable {ms : List Modify}

/-! ### Entries that leave one another alone -/

/-- What the checks of `__modify_fast_path` establish for the entries that are not applied in
place.  The entries before `ms` have made the value longer by `g` bytes, and what follows them
starts at position `pos` of the original value, which has `vlen` bytes. -/
def Fits (vlen : ℕ) : ℕ → ℕ → List Modify → Prop
  | _, _, [] => True
  | g, pos, m :: ms =>
    pos + g ≤ m.offset ∧ m.offset + m.size ≤ vlen ∧ m.size ≤ g + m.data.length ∧
      Fits vlen (g + m.data.length - m.size) (m.offset - g + m.size) ms

/-- By how much all entries make the value longer. -/
def growth : ℕ → List Modify → ℕ
  | g, [] => g
  | g, m :: ms => growth (g + m.data.length - m.size) ms

/-- The new value in terms of the original one: blocks of the original value from position
`pos` on, and between them the data of the entries. -/
def weave (v : List UInt8) : ℕ → ℕ → List Modify → List UInt8
  | _, pos, [] => v.drop pos
  | g, pos, m :: ms =>
    slice v pos (m.offset - g - pos) ++ m.data ++
      weave v (g + m.data.length - m.size) (m.offset - g + m.size) ms

/-- Splicing entries that leave one another alone weaves their data into the value. -/
lemma splices_eq_weave {pad : UInt8} {g pos : ℕ} (hfits : Fits v.length g pos ms)
    (hpos : pos ≤ v.length) (hw : w.length = pos + g) :
    splices pad ms (w ++ v.drop pos) = w ++ weave v g pos ms := by
  induction ms generalizing g pos w with
  | nil => rfl
  | cons m ms ih =>
    obtain ⟨hoff, hend, hsize, hrest⟩ := hfits
    have hlen : (w ++ v.drop pos).length = v.length + g := by
      simp only [length_append, length_drop]
      omega
    have htake : (w ++ v.drop pos).take m.offset = w ++ slice v pos (m.offset - g - pos) := by
      rw [take_append, take_of_length_le (by omega), slice]
      congr 2
      omega
    have hdrop : (w ++ v.drop pos).drop (m.offset + m.size) = v.drop (m.offset - g + m.size) := by
      rw [drop_append, drop_eq_nil_of_le (by omega), nil_append, drop_drop]
      congr 1
      omega
    have hw' : (w ++ slice v pos (m.offset - g - pos) ++ m.data).length =
        m.offset - g + m.size + (g + m.data.length - m.size) := by
      simp only [length_append]
      rw [length_slice (by omega)]
      omega
    rw [splices, splice_of_le _ (by omega), htake, hdrop, ih hrest (by omega) hw', weave]
    simp [append_assoc]

/-! ### The pass from right to left -/

/-- The state of the pass when the entries `ms` have been dealt with, `g` and `pos` as in `Fits`:
below `src` the memory still shows the original value, and from `dst` on it shows the rest of the
new value, up to the block of the original value in front of it. -/
structure PassInv (v rest : List UInt8) (len hi g pos : ℕ) (ms : List Modify)
    (st : NoOverlapState) : Prop where
  own : st.value.page = none
  size_eq : st.value.size = v.length
  length_eq : st.value.region.cells.length = len
  top_le : st.value.region.top ≤ hi
  dst_eq : st.dst = st.src + g
  pos_le : pos ≤ st.src
  src_le : st.src ≤ v.length
  take_eq : st.value.region.cells.take st.src = v.take st.src
  drop_eq : ∃ t, st.value.region.cells.drop st.dst = t ++ rest ∧
    slice v pos (st.src - pos) ++ t = weave v g pos ms

/-- Moving a block towards the end of the memory, or leaving it where it is. -/
lemma moveBlock_own (h : it.page = none) (dst src sz : ℕ) (hle : src ≤ dst)
    (hdst : dst + sz ≤ it.region.cells.length) :
    ∃ r, moveBlock it dst src sz = some { it with region := r } ∧
      r.cells.length = it.region.cells.length ∧
      r.top ≤ max it.region.top (dst + sz) ∧
      r.cells.take src = it.region.cells.take src ∧
      r.cells.drop dst = slice it.region.cells src sz ++ it.region.cells.drop (dst + sz) := by
  have hsl : (slice it.region.cells src sz).length = sz := length_slice (by omega)
  by_cases heq : dst = src
  · subst heq
    exact ⟨it.region, by simp [moveBlock], rfl, le_max_left _ _, rfl,
      (slice_append_drop _ _ _).symm⟩
  · refine ⟨⟨blit it.region.cells dst (slice it.region.cells src sz),
      max (max it.region.top (src + sz)) (dst + sz)⟩, ?_, length_blit (by omega), ?_,
      take_blit_of_le hle (by omega), ?_⟩
    · rw [moveBlock, if_pos heq, memmove_own it h (Region.move_eq_some (by omega) hdst)]
    · simp only
      omega
    · simp only
      rw [drop_blit (by omega), hsl]

/-- One step of the pass. -/
lemma PassInv.step {rest : List UInt8} {g pos : ℕ} {st : NoOverlapState} (hoff : pos + g ≤ m.offset)
    (hsize : m.size ≤ g + m.data.length)
    (h : PassInv v rest len hi (g + m.data.length - m.size) (m.offset - g + m.size) ms st)
    (hdst : st.dst ≤ hi) (hlen : st.dst ≤ len) :
    ∃ st', noOverlapStep st m = some st' ∧ PassInv v rest len hi g pos (m :: ms) st' ∧
      st'.dst ≤ st.dst := by
  obtain ⟨t, hdrop, hweave⟩ := h.drop_eq
  have h₁ := h.dst_eq
  have h₂ := h.pos_le
  have h₃ := h.src_le
  have h₄ := h.size_eq
  have h₅ := h.length_eq
  have h₆ := h.top_le
  -- the block between this entry and the next one
  obtain ⟨sz, hsz⟩ : ∃ sz, sz = st.dst - (m.offset + m.data.length) := ⟨_, rfl⟩
  have hsrc : st.src - sz = m.offset - g + m.size := by omega
  have hdst' : st.dst - sz = m.offset + m.data.length := by omega
  obtain ⟨r, hmove, hrlen, hrtop, hrtake, hrdrop⟩ := moveBlock_own h.own
    (m.offset + m.data.length) (m.offset - g + m.size) sz (by omega) (by omega)
  have hr' : r.write m.offset m.data =
      some ⟨blit r.cells m.offset m.data, max r.top (m.offset + m.data.length)⟩ :=
    Region.write_eq_some (by omega)
  have hcopy := memcpy_own { st.value with region := r } h.own hr'
  refine ⟨⟨m.offset - g, m.offset, { st.value with
    region := ⟨blit r.cells m.offset m.data, max r.top (m.offset + m.data.length)⟩ }⟩,
    ?_, ⟨h.own, h₄, ?_, ?_, ?_, ?_, ?_, ?_, ?_⟩, by simp only; omega⟩
  · have hg₁ : m.offset + m.data.length ≤ st.dst := by omega
    have hg₂ : sz ≤ st.src ∧ sz ≤ st.dst ∧ st.src ≤ st.value.size := by omega
    have hg₃ : m.size ≤ m.offset - g + m.size ∧ m.data.length ≤ m.offset + m.data.length := by
      omega
    simp [noOverlapStep, ← hsz, hsrc, hdst', hg₁, hg₂, hg₃, hmove, hcopy]
  · simp only
    rw [length_blit (by omega), hrlen, h₅]
  · simp only
    omega
  · simp only
    omega
  · simp only
    omega
  · simp only
    omega
  · -- both copies are at or above `dst`
    simp only
    rw [take_blit_of_le (by omega) (by omega), take_eq_of_take_eq hrtake (by omega),
      take_eq_of_take_eq h.take_eq (by omega)]
  · refine ⟨m.data ++ slice v (m.offset - g + m.size) sz ++ t, ?_, ?_⟩
    · simp only
      rw [drop_blit (by omega), hrdrop, slice_eq_of_take_eq h.take_eq (by omega),
        show m.offset + m.data.length + sz = st.dst by omega, hdrop]
      simp [append_assoc]
    · rw [weave, ← hweave, show st.src - (m.offset - g + m.size) = sz by omega]
      simp [append_assoc]

/-- **The pass from right to left.**  Entries that leave one another alone are applied, last one
first, with their data and the blocks of the original value at their final place. -/
lemma foldlM_noOverlapStep {rest : List UInt8} {g pos : ℕ} (hfits : Fits v.length g pos ms)
    (hpos : pos ≤ v.length) (h : Holds sformat it v len hi) (hlen : v.length + growth g ms ≤ len)
    (hhi : v.length + growth g ms ≤ hi)
    (hrest : it.region.cells.drop (v.length + growth g ms) = rest) :
    ∃ st, ms.reverse.foldlM noOverlapStep ⟨it.size, v.length + growth g ms, it⟩ = some st ∧
      PassInv v rest len hi g pos ms st ∧ st.dst ≤ v.length + growth g ms := by
  induction ms generalizing g pos with
  | nil =>
    refine ⟨⟨it.size, v.length + g, it⟩, rfl, ⟨h.own, h.size_eq, h.shows.length_eq,
      h.shows.top_le, by simp only [h.size_eq], by simp only [h.size_eq]; exact hpos,
      h.size_eq.le, ?_, [], hrest, ?_⟩, le_rfl⟩
    · simp only [h.size_eq]
      exact h.shows.take_cells le_rfl
    · simp [h.size_eq, append_nil, slice_length_sub, weave]
  | cons m ms ih =>
    obtain ⟨hoff, hend, hsize, hrest'⟩ := hfits
    obtain ⟨st, hfold, hinv, hdst⟩ := ih hrest' (by omega) hlen hhi hrest
    simp only [growth] at hlen hhi ⊢
    obtain ⟨st', hstep, hinv', hdst'⟩ := hinv.step hoff hsize (by omega) (by omega)
    refine ⟨st', ?_, hinv', le_trans hdst' hdst⟩
    rw [reverse_cons, foldlM_append, hfold]
    simpa using hstep

/-- `__modify_apply_no_overlap` on entries that leave one another alone. -/
lemma modifyApplyNoOverlap_holds {es : List Modify} {k : ℕ} (hms : ms = es.drop k)
    (hk : k ≤ es.length) (hfits : Fits v.length 0 0 ms) (h : Holds sformat it v len hi)
    (hlen : v.length + growth 0 ms + nulSize sformat ≤ len) (hhi : v.length + growth 0 ms ≤ hi) :
    ∃ it', modifyApplyNoOverlap it (modifyPack es) k (es.flatMap Modify.data).length
        (v.length + growth 0 ms) = some it' ∧
      Holds sformat it' (splices (padByte sformat) ms v) len hi ∧
      (splices (padByte sformat) ms v).length = v.length + growth 0 ms := by
  obtain ⟨st, hfold, hinv, hdst⟩ := foldlM_noOverlapStep hfits (zero_le _) h (by omega) hhi rfl
  obtain ⟨t, hdrop, hweave⟩ := hinv.drop_eq
  have hsrc := hinv.dst_eq
  have hcells := hinv.length_eq
  rw [add_zero] at hsrc
  -- the value is the front of the original value and then what the pass has built
  have hval : splices (padByte sformat) ms v = v.take st.src ++ t := by
    have hspl : splices (padByte sformat) ms ([] ++ v.drop 0) = _ :=
      splices_eq_weave hfits (zero_le _) rfl
    simpa [← hweave, slice] using hspl
  have hall : st.value.region.cells = splices (padByte sformat) ms v ++
      it.region.cells.drop (v.length + growth 0 ms) := by
    rw [hval, append_assoc, ← hdrop, hsrc, ← hinv.take_eq, take_append_drop]
  have hvlen : (splices (padByte sformat) ms v).length = v.length + growth 0 ms := by
    have := congrArg length hall
    have hlen' := h.shows.length_eq
    simp only [length_append, length_drop] at this
    omega
  refine ⟨{ st.value with size := v.length + growth 0 ms }, ?_,
    ⟨hinv.own, hvlen.symm, ⟨hcells, by omega, ?_, hinv.top_le⟩, by omega⟩, hvlen⟩
  · rw [modifyApplyNoOverlap, foreachRev_modifyPack es hk, ← hms, hfold]
    rfl
  · simp [hall]

/-! ### The checks -/

lemma fastCheck_none {vsize destoff d : ℕ} (h : fastCheck vsize destoff none m = some d) :
    m.offset + m.size ≤ vsize ∧ (m.size ≠ m.data.length → m.size = 0) ∧
      d = m.offset + m.data.length := by
  simp only [fastCheck, bind_some] at h
  split_ifs at h with h₁ h₂
  cases h
  omega

lemma fastCheck_some {vsize destoff d : ℕ} {prev : Modify}
    (h : fastCheck vsize destoff (some prev) m = some d) :
    prev.offset + prev.size ≤ m.offset ∧ prev.offset + prev.data.length ≤ m.offset ∧
      m.offset + m.size ≤ vsize ∧
      (m.size ≠ m.data.length →
        m.offset + m.size ≤ destoff + (m.offset - (prev.offset + prev.size))) ∧
      d = destoff + (m.offset - (prev.offset + prev.size)) + m.data.length := by
  by_cases h₁ : m.offset < prev.offset + prev.size ∨ m.offset < prev.offset + prev.data.length
  · simp [fastCheck, h₁] at h
  simp only [fastCheck, if_neg h₁, bind_some] at h
  split_ifs at h with h₂ h₃
  cases h
  omega

/-- After the first entry that is not applied in place, `__modify_fast_path` only checks: it
either gives up or establishes `Fits`. -/
lemma fastLoop_checked (ms : List Modify) (g pos : ℕ) (prev : Modify) (st : FastState)
    (hfast : st.fastpath = false) (hprev : st.prev = some prev) (hcur : st.current = some prev)
    (hdest : st.destoff = prev.offset + prev.size + g)
    (hpos : pos + g = prev.offset + prev.data.length) (hend : prev.offset + prev.size ≤ it.size) :
    ∃ sizes, fastLoop ms st it = some ⟨it, st.napplied, sizes⟩ ∧
      ∀ datasz destsz, sizes = some (datasz, destsz) →
        datasz = st.datasz + (ms.flatMap Modify.data).length ∧
        destsz = it.size + growth g ms ∧ Fits it.size g pos ms := by
  induction ms generalizing g pos prev st with
  | nil =>
    refine ⟨_, rfl, ?_⟩
    rintro datasz destsz ⟨⟩
    simp only [hcur, elim_some, hdest, growth, flatMap_nil, length_nil]
    exact ⟨rfl, by omega, trivial⟩
  | cons m ms ih =>
    have hnot : ¬ (st.fastpath ∧ m.data.length = m.size ∧ m.offset + m.size ≤ it.size) := by
      simp [hfast]
    simp only [fastLoop, if_neg hnot, hprev]
    cases hcheck : fastCheck it.size st.destoff (some prev) m with
    | none => exact ⟨none, rfl, by simp⟩
    | some d =>
      obtain ⟨h₁, h₂, h₃, h₄, h₅⟩ := fastCheck_some hcheck
      obtain ⟨sizes, hloop, hsizes⟩ := ih (g + m.data.length - m.size)
        (m.offset - g + m.size) m
        ⟨st.datasz + m.data.length, d, some m, some m, false, st.napplied⟩
        rfl rfl rfl (by simp only; omega) (by omega) h₃
      refine ⟨sizes, hloop, fun datasz destsz hs => ?_⟩
      obtain ⟨hd, hdest', hfits⟩ := hsizes datasz destsz hs
      refine ⟨?_, hdest', by omega, h₃, by omega, hfits⟩
      simp only [hd, flatMap_cons, length_append]
      omega

/-- **The fast path.**  `__modify_fast_path` applies the first `k` entries in place and, unless
it gives up, the others leave one another alone. -/
lemma fastLoop_holds (ms : List Modify) (st : FastState) (h : Holds sformat it v len hi)
    (hhi : v.length ≤ hi) (hfast : st.fastpath = true) (hprev : st.prev = none) :
    ∃ it' k sizes, fastLoop ms st it = some ⟨it', st.napplied + k, sizes⟩ ∧ k ≤ ms.length ∧
      Holds sformat it' (splices (padByte sformat) (ms.take k) v) len hi ∧
      (splices (padByte sformat) (ms.take k) v).length = v.length ∧
      ∀ datasz destsz, sizes = some (datasz, destsz) → k ≠ ms.length →
        datasz = st.datasz + (ms.flatMap Modify.data).length ∧
        destsz = v.length + growth 0 (ms.drop k) ∧ Fits v.length 0 0 (ms.drop k) := by
  induction ms generalizing it v st with
  | nil => exact ⟨it, 0, _, rfl, le_rfl, h, rfl, by simp⟩
  | cons m ms ih =>
    have hs := h.size_eq
    by_cases hin : m.data.length = m.size ∧ m.offset + m.size ≤ it.size
    · -- applied in place
      obtain ⟨it₁, hcopy, h₁⟩ := h.memcpy_inside (i := m.offset) (d := m.data) (by omega) hhi
      have hlen : (blit v m.offset m.data).length = v.length := length_blit (by omega)
      obtain ⟨it', k, sizes, hloop, hk, h', hlen', hsizes⟩ := ih
        ⟨st.datasz + m.data.length, st.destoff, st.prev, some m, st.fastpath, st.napplied + 1⟩
        h₁ (by omega) hfast hprev
      rw [← splice_eq_blit (padByte sformat) hin.1 (by omega)] at h' hlen' hlen
      refine ⟨it', k + 1, sizes, ?_, by simpa using hk, h', ?_, ?_⟩
      · simp only [fastLoop, hfast, hin, hcopy, and_self, if_true, bind_eq_bind,
          bind_some]
        rw [show st.napplied + (k + 1) = st.napplied + 1 + k by omega, ← hin.1, ← hfast]
        exact hloop
      · simpa only [take_succ_cons, splices, hlen] using hlen'
      · intro datasz destsz hsz hne
        obtain ⟨hd, hdest, hfits⟩ := hsizes datasz destsz hsz (by simpa using hne)
        simp only [length_blit (show m.offset + m.data.length ≤ v.length by omega)] at hdest hfits
        refine ⟨?_, hdest, hfits⟩
        simp only [hd, flatMap_cons, length_append]
        omega
    · -- the first entry that is not applied in place
      have hnot : ¬ (st.fastpath ∧ m.data.length = m.size ∧ m.offset + m.size ≤ it.size) :=
        fun hc => hin hc.2
      simp only [fastLoop, if_neg hnot, hprev]
      cases hcheck : fastCheck it.size st.destoff none m with
      | none => exact ⟨it, 0, none, rfl, zero_le _, h, rfl, by simp⟩
      | some d =>
        obtain ⟨h₁, h₂, h₃⟩ := fastCheck_none hcheck
        have hzero : m.size = 0 := h₂ fun heq => hin ⟨heq.symm, h₁⟩
        obtain ⟨sizes, hloop, hsizes⟩ := fastLoop_checked ms m.data.length m.offset m
          ⟨st.datasz + m.data.length, d, some m, some m, false, st.napplied⟩
          rfl rfl rfl (by simp only; omega) rfl h₁
        refine ⟨it, 0, sizes, hloop, zero_le _, h, rfl, fun datasz destsz hsz _ => ?_⟩
        obtain ⟨hd, hdest, hfits⟩ := hsizes datasz destsz hsz
        refine ⟨?_, ?_, by omega, by omega, by omega, ?_⟩
        · simp only [hd, flatMap_cons, length_append]
          omega
        · simpa [growth, hzero, ← hs] using hdest
        · simpa [hzero, ← hs] using hfits

/-! ### The whole operation -/

section

variable (junk : ℕ → UInt8)

/-- Taking the value into the item's own memory. -/
lemma bufGrow_init (hwf : it.WF) :
    ∃ it' len', bufGrow junk it (it.itemOffset + it.size) = some it' ∧
      Holds false it' it.value len' (max it.region.top it.size) := by
  have hvlen := hwf.length_value
  by_cases hd : it.dataInItem
  · have hpage : it.page = none := by
      simp only [Item.dataInItem, Bool.and_eq_true] at hd
      simpa using hd.1
    have hlen : it.size ≤ it.region.cells.length := by
      simpa [Item.WF, Item.data, hpage] using hwf
    have h : Holds false it it.value it.region.cells.length (max it.region.top it.size) := by
      refine ⟨hpage, hvlen.symm, ⟨rfl, by omega, ?_, le_max_left _ _⟩, by simp [nulSize]; omega⟩
      rw [hvlen]
      simp [Item.value, Item.data, hpage]
    obtain ⟨it', len', hgrow, h', -⟩ := h.bufGrow junk (it.itemOffset + it.size)
    exact ⟨it', len', hgrow, h'⟩
  · -- the data is copied to the start of the item's own memory
    have hoff : it.itemOffset = 0 := by simp [Item.itemOffset, hd]
    obtain ⟨mem, hmem⟩ : ∃ mem : Region UInt8, mem =
        (⟨it.lead ++ it.region.cells, it.region.top⟩ : Region UInt8).extend junk it.size :=
      ⟨_, rfl⟩
    have htop : mem.top = it.region.top := by rw [hmem]; rfl
    have hlen : it.size ≤ mem.cells.length := by
      rw [hmem, Region.extend_length]
      omega
    have hwrite := Region.write_eq_some (r := mem) (i := 0) (d := it.value) (by omega)
    refine ⟨⟨[], ⟨blit mem.cells 0 it.value, max mem.top (0 + it.value.length)⟩, none, it.size⟩,
      mem.cells.length, ?_, rfl, hvlen.symm,
      ⟨length_blit (by omega), by omega, ?_, by simp only; omega⟩, by simp [nulSize]; omega⟩
    · simp only [WiredTiger.bufGrow, hd, hoff, zero_add, ← hmem, hwrite, map_some]
      rfl
    · have := take_blit_end (l := mem.cells) (d := it.value) (zero_le _)
      simpa using this

/-- Discarding the trailing nul leaves room to restore it. -/
lemma modifyStart_holds {fmt : ValueFormat} (hwf : it.WF) (hS : fmt = .S → 0 < it.size) :
    ∃ it' len', modifyStart junk fmt.sformat it = some it' ∧
      Holds fmt.sformat it' (if fmt.sformat then it.value.dropLast else it.value) len'
        (max it.region.top it.size) := by
  obtain ⟨it₁, len₁, hgrow, h₁⟩ := bufGrow_init junk hwf
  have hsize := h₁.size_eq
  have hroom := h₁.room
  cases fmt with
  | u => exact ⟨it₁, len₁, by simp [modifyStart, hgrow, sformat], h₁⟩
  | S =>
    have hlen : it.value.dropLast.length = it.value.length - 1 := length_dropLast
    refine ⟨{ it₁ with size := it₁.size - 1 }, len₁, by
      simp [modifyStart, hgrow, sformat], h₁.own, ?_, ⟨h₁.shows.length_eq, ?_, ?_,
        h₁.shows.top_le⟩, ?_⟩
    · simp [sformat, hsize]
    · simp [sformat]
      omega
    · simp only [sformat, if_true, hlen]
      rw [h₁.shows.take_cells (by omega), dropLast_eq_take]
    · have hpos : 0 < it.value.length := by
        have := hS rfl
        rw [hwf.length_value]
        omega
      simp only [sformat, if_true, hlen, nulSize]
      omega

/-- Restoring the trailing nul. -/
lemma restoreNul_holds (h : Holds sformat it v len hi) :
    ∃ it', restoreNul sformat it = some it' ∧
      Holds false it' (if sformat then v ++ [0] else v) len
        (max hi (v.length + nulSize sformat)) := by
  have hroom := h.room
  cases sformat with
  | false => exact ⟨it, rfl, h.mono (le_max_left _ _)⟩
  | true =>
    obtain ⟨r, hr, hshows⟩ := h.shows.write_behind (d := [0]) hroom
    rw [← h.size_eq] at hr
    exact ⟨{ it with region := r, size := it.size + 1 },
      by simp [restoreNul, memcpy_own it h.own hr], h.own, by simp [h.size_eq], hshows,
      by simpa [nulSize] using hroom⟩

/-- What is left after the fast path comes to the same value on every path; where the checks have
computed a destination size, the value gets that size and no access reaches beyond it. -/
lemma modifyRemaining_holds (off : ℕ) {es : List Modify} {k : ℕ} {sizes : Option (ℕ × ℕ)}
    (hk : k ≤ es.length) (h : Holds sformat it v len hi)
    (hsizes : ∀ datasz destsz, sizes = some (datasz, destsz) → k ≠ es.length →
      datasz = (es.flatMap Modify.data).length ∧ destsz = v.length + growth 0 (es.drop k) ∧
        Fits v.length 0 0 (es.drop k)) :
    ∃ it' len', modifyRemaining junk sformat off ⟨it, k, sizes⟩ (modifyPack es) = some it' ∧
      Holds sformat it' (splices (padByte sformat) (es.drop k) v) len'
        (max hi (peak (padByte sformat) (es.drop k) v)) ∧
      ∀ datasz destsz, sizes = some (datasz, destsz) → k ≠ es.length →
        (splices (padByte sformat) (es.drop k) v).length = destsz ∧
          it'.region.top ≤ max hi destsz := by
  by_cases hall : k = es.length
  · refine ⟨it, len, by simp [modifyRemaining, hall, modifyPack], ?_, by simp [hall]⟩
    simp only [hall, drop_length, splices]
    exact h.mono (le_max_left _ _)
  have hne : k ≠ (modifyPack es).nentries := by simpa [modifyPack] using hall
  cases sizes with
  | none =>
    obtain ⟨it', len', hloop, h'⟩ := modifyApplyLoop_holds h junk (es.drop k)
    refine ⟨it', len', ?_, h', by simp⟩
    simp [modifyRemaining, if_neg hne, foreach_modifyPack, hloop]
  | some p =>
    obtain ⟨datasz, destsz⟩ := p
    obtain ⟨rfl, rfl, hfits⟩ := hsizes datasz destsz rfl hall
    obtain ⟨it₁, len₁, hgrow, h₁, hlen₁⟩ := h.bufGrow junk
      (off + max (v.length + growth 0 (es.drop k)) it.size + (if sformat then 1 else 0))
    have hroom : v.length + growth 0 (es.drop k) + nulSize sformat ≤ len₁ := by
      simp only [nulSize]
      omega
    obtain ⟨it', hpass, h', hlen⟩ := modifyApplyNoOverlap_holds rfl hk hfits
      (h₁.mono (le_max_left hi (v.length + growth 0 (es.drop k)))) hroom (le_max_right _ _)
    have hpeak := length_splices_le_peak (padByte sformat) (es.drop k) v
    refine ⟨it', len₁, ?_, h'.mono (by omega), ?_⟩
    · simp only [modifyRemaining, if_neg hne, hgrow, bind_eq_bind, bind_some, hpass]
    · rintro datasz destsz ⟨⟩ -
      exact ⟨hlen, h'.shows.top_le⟩

/-- The largest size of the value, with the trailing nul of a string, while an operation is
applied to it. -/
def peakSize (fmt : ValueFormat) (es : List Modify) (v : List UInt8) : ℕ :=
  peak (padByte fmt.sformat) es (if fmt.sformat then v.dropLast else v) + nulSize fmt.sformat

section

variable (fmt : ValueFormat) (es : List Modify)

lemma applyModifies_eq (v : List UInt8) :
    applyModifies fmt es v =
      if fmt.sformat then
        splices (padByte fmt.sformat) es (if fmt.sformat then v.dropLast else v) ++ [0]
      else splices (padByte fmt.sformat) es (if fmt.sformat then v.dropLast else v) := by
  cases fmt <;> rfl

/-- The part of the value that the entries see, and the trailing nul. -/
lemma length_visible {fmt : ValueFormat} (hwf : it.WF) (hS : fmt = .S → 0 < it.size) :
    (if fmt.sformat then it.value.dropLast else it.value).length + nulSize fmt.sformat =
      it.size := by
  have hvlen := hwf.length_value
  cases fmt with
  | u => simpa [sformat, nulSize] using hvlen
  | S =>
    have := hS rfl
    simp [sformat, nulSize, length_dropLast]
    omega

/-- The stages of `__wt_modify_apply_item`: in place, then one of the ways to the end, then the
trailing nul.  `v` is what the entries see of the value. -/
lemma modifyApplyItem_run (h : Holds fmt.sformat it v len hi) (hhi : v.length ≤ hi) {it₀ : Item}
    (hstart : modifyStart junk fmt.sformat it₀ = some it) :
    ∃ fast done it' len', modifyFastPath it (modifyPack es) = some fast ∧
      Holds fmt.sformat done (splices (padByte fmt.sformat) es v) len'
        (max hi (peak (padByte fmt.sformat) es v)) ∧
      restoreNul fmt.sformat done = some it' ∧
      modifyApplyItem junk fmt it₀ (modifyPack es) = some it' ∧
      ∀ datasz destsz, fast.sizes = some (datasz, destsz) → fast.napplied ≠ es.length →
        v.length ≤ destsz ∧ (splices (padByte fmt.sformat) es v).length = destsz ∧
        done.region.top ≤ max hi destsz := by
  obtain ⟨it₁, k, sizes, hfast, hk, h₁, hlen₁, hsizes⟩ :=
    fastLoop_holds es ⟨0, 0, none, none, true, 0⟩ h hhi rfl rfl
  simp only [zero_add] at hfast hsizes
  have hpath : modifyFastPath it (modifyPack es) = some ⟨it₁, k, sizes⟩ := by
    simpa [modifyFastPath] using hfast
  have hsplit : splices (padByte fmt.sformat) (es.drop k)
      (splices (padByte fmt.sformat) (es.take k) v) = splices (padByte fmt.sformat) es v := by
    rw [← splices_append, take_append_drop]
  have hpeak := peak_splices_le (padByte fmt.sformat) (es.take k) (es.drop k) v
  rw [take_append_drop] at hpeak
  obtain ⟨done, len', hrem, h₂, hdest⟩ := modifyRemaining_holds junk it₀.itemOffset hk h₁
    (by simpa only [hlen₁] using hsizes)
  rw [hsplit] at h₂ hdest
  obtain ⟨it', hnul, -⟩ := restoreNul_holds h₂
  refine ⟨⟨it₁, k, sizes⟩, done, it', len', hpath, h₂.mono (by omega), hnul, ?_, ?_⟩
  · simp [modifyApplyItem, hstart, hpath, hrem, hnul, bind_eq_bind, bind_some]
  · intro datasz destsz hsz hne
    have hgrow := (hsizes datasz destsz hsz hne).2.1
    exact ⟨by omega, hdest datasz destsz hsz hne⟩

/-- The value that `__wt_modify_apply_item` leaves in the buffer. -/
lemma modifyApplyItem_value (hwf : it.WF) (hS : fmt = .S → 0 < it.size) :
    ∃ it', modifyApplyItem junk fmt it (modifyPack es) = some it' ∧
      it'.value = applyModifies fmt es it.value := by
  obtain ⟨start, len, hstart, h⟩ := modifyStart_holds junk hwf hS
  have hlen := length_visible hwf hS
  obtain ⟨fast, done, it', len', -, hdone, hnul, happly, -⟩ :=
    modifyApplyItem_run junk fmt es h (by omega) hstart
  obtain ⟨it₁, hnul₁, h₁⟩ := restoreNul_holds hdone
  obtain rfl : it' = it₁ := some.inj (hnul.symm.trans hnul₁)
  exact ⟨it', happly, by rw [applyModifies_eq, h₁.value_eq]⟩

end

end

/-- **Applying an operation is splicing.**  For every value in every kind of buffer (a string has
at least its trailing nul) and every list of entries, `__wt_modify_apply_item` on the packed
entries runs without leaving the buffer, and the buffer holds exactly what the entries describe as
splices, one after another.

No access goes beyond the largest size of the value on the way; where the checks have computed a
destination size, that is the size of the result, and no access goes beyond it.  Applying all
entries one by one gives the same value. -/
theorem modifyApplyItem_eq_applyModifies (junk : ℕ → UInt8) (fmt : ValueFormat) (it : Item)
    (es : List Modify) (hwf : it.WF) (hS : fmt = .S → 0 < it.size) :
    ∃ start fast it' it'', modifyStart junk fmt.sformat it = some start ∧
      modifyFastPath start (modifyPack es) = some fast ∧
      modifyApplyItem junk fmt it (modifyPack es) = some it' ∧
      it'.value = applyModifies fmt es it.value ∧
      it'.region.top ≤ max it.region.top (peakSize fmt es it.value) ∧
      (∀ datasz destsz, fast.sizes = some (datasz, destsz) → fast.napplied ≠ es.length →
        it'.size = destsz + nulSize fmt.sformat ∧
        it'.region.top ≤ max it.region.top (destsz + nulSize fmt.sformat)) ∧
      (modifyApplyLoop junk fmt.sformat es start).bind (restoreNul fmt.sformat) = some it'' ∧
      it''.value = it'.value := by
  obtain ⟨start, len, hstart, h⟩ := modifyStart_holds junk hwf hS
  have hlen := length_visible hwf hS
  obtain ⟨fast, done, it', len', hfast, hdone, hnul, happly, hdest⟩ :=
    modifyApplyItem_run junk fmt es h (by omega) hstart
  obtain ⟨it₁, hnul₁, h₁⟩ := restoreNul_holds hdone
  obtain rfl : it' = it₁ := some.inj (hnul.symm.trans hnul₁)
  -- the loop over all entries, for comparison
  obtain ⟨done₂, len₂, hloop, hdone₂⟩ := modifyApplyLoop_holds h junk es
  obtain ⟨it₂, hnul₂, h₂⟩ := restoreNul_holds hdone₂
  have hend := length_splices_le_peak (padByte fmt.sformat) es
    (if fmt.sformat then it.value.dropLast else it.value)
  have hbase := length_le_peak (padByte fmt.sformat) es
    (if fmt.sformat then it.value.dropLast else it.value)
  have htop := h₁.shows.top_le
  refine ⟨start, fast, it', it₂, hstart, hfast, happly, by rw [applyModifies_eq, h₁.value_eq],
    by rw [peakSize]; omega, ?_, by rw [hloop, bind_some, hnul₂],
    by rw [h₁.value_eq, h₂.value_eq]⟩
  intro datasz destsz hsz hne
  obtain ⟨hle, hsize, htop₁⟩ := hdest datasz destsz hsz hne
  obtain ⟨it₃, hnul₃, h₃⟩ := restoreNul_holds (hdone.with_top_le htop₁)
  obtain rfl : it' = it₃ := some.inj (hnul.symm.trans hnul₃)
  have htop₃ := h₃.shows.top_le
  refine ⟨?_, by omega⟩
  rw [h₃.size_eq, ← hsize]
  cases fmt.sformat <;> simp [nulSize]

/-- A string on a page: the gap is filled with spaces and the nul stays at the end. -/
theorem modifyApplyItem_string_past_end :
    ∃ it', modifyApplyItem (fun _ => 7) .S ⟨[], ⟨[], 0⟩, some [97, 98, 0], 3⟩
        (modifyPack [⟨[120, 121], 4, 0⟩, ⟨[], 0, 1⟩]) = some it' ∧
      it'.value = [98, 32, 32, 120, 121, 0] := by
  obtain ⟨-, -, it', -, -, -, happly, hval, -⟩ := modifyApplyItem_eq_applyModifies (fun _ => 7) .S
    ⟨[], ⟨[], 0⟩, some [97, 98, 0], 3⟩ [⟨[120, 121], 4, 0⟩, ⟨[], 0, 1⟩] (by decide) (by decide)
  exact ⟨it', happly, hval.trans (by decide)⟩

end WiredTiger
