/-
# Bulk loads that are not faithful

If the records of a page do not end on a byte boundary, the first record of the second page is taken
from the byte behind the one that it starts in.  And the number of records of a chunk is taken as 32
bits.  There is no other way for a load not to be faithful.
-/
import WiredTiger.Column.BulkFaithful
import WiredTiger.Lib.Fallible

namespace WiredTiger

open Lib List FixBtree BitmapChunk

namespace FixBtree

variable {t : FixBtree} {bytes : List UInt8} {c : CursorBulk} {c' : CursorBulk} {data : List UInt8}
  {fuel n : ℕ} {chunks : List t.BitmapChunk}

/-! ### What every load keeps -/

lemma copyRecords_ok {n : ℕ}
    (h : t.copyRecords c data n = .ok c') :
    bitstrSize (n * t.bitcnt) ≤ data.length ∧
      bitstrSize (c.entry * t.bitcnt) + bitstrSize (n * t.bitcnt) ≤ c.image.length ∧
      c' = { c with
        image := blit c.image (bitstrSize (c.entry * t.bitcnt))
          (data.take (bitstrSize (n * t.bitcnt)))
        entry := c.entry + n
        recno := c.recno + n } := by
  unfold copyRecords at h
  dsimp only at h
  split_ifs at h with hroom
  exact ⟨hroom.1, hroom.2, (Except.ok.inj h).symm⟩

/-- The loop ends at once, or takes a turn. -/
lemma bitmapLoop_ok
    (h : t.bitmapLoop fuel c data n = .ok c') :
    (n = 0 ∧ c' = c) ∨ (0 < n ∧ ∃ fuel' m c₁, fuel = fuel' + 1 ∧
      m = min n ((t.splitCheck c).nrecs - (t.splitCheck c).entry) ∧
      t.copyRecords (t.splitCheck c) data m = .ok c₁ ∧
      t.bitmapLoop fuel' c₁ (data.drop (bitstrSize (m * t.bitcnt))) (n - m) = .ok c') := by
  rcases eq_zero_or_pos n with rfl | hn
  · cases fuel with
    | zero | succ => exact .inl ⟨rfl, (Except.ok.inj h).symm⟩
  · refine .inr ⟨hn, ?_⟩
    cases fuel with
    | zero =>
      rw [bitmapLoop, if_neg hn.ne'] at h
      cases h
    | succ fuel =>
      rw [bitmapLoop, if_neg hn.ne'] at h
      dsimp only at h
      obtain ⟨c₁, hcopy, h⟩ := exists_of_bind_ok h
      exact ⟨fuel, _, c₁, rfl, rfl, hcopy, h⟩

/-- What a turn of the loop keeps, a load keeps; `k` counts the records. -/
structure Kept (t : FixBtree) (P : ℕ → CursorBulk → Prop) : Prop where
  split : ∀ k c, P k c → P k (t.splitCheck c)
  copy : ∀ k c data n c', P k c → t.copyRecords c data n = .ok c' → P (k + n) c'

lemma Kept.bitmapLoop {P : ℕ → CursorBulk → Prop} (hP : Kept t P) {k : ℕ} (hc : P k c)
    (h : t.bitmapLoop fuel c data n = .ok c') : P (k + n) c' := by
  induction fuel using Nat.strong_induction_on generalizing k c data n with
  | _ fuel ih =>
    rcases bitmapLoop_ok h with ⟨rfl, rfl⟩ | ⟨-, fuel', m, c₁, rfl, hm, hcopy, hrest⟩
    · exact hc
    · have h' := ih fuel' (Nat.lt_succ_self _) (hP.copy _ _ _ _ _ (hP.split k c hc) hcopy) hrest
      rwa [Nat.add_assoc, Nat.add_sub_of_le (by omega)] at h'

lemma load_cons_ok {b : t.BitmapChunk}
    (h : (b :: chunks).foldlM t.bulkInsertFixBitmap c = .ok c') :
    (c.recno - 1) * t.bitcnt % 8 = 0 ∧
      ∃ c₁, t.bitmapLoop (b.size % 2 ^ 32) c b.data (b.size % 2 ^ 32) = .ok c₁ ∧
        chunks.foldlM t.bulkInsertFixBitmap c₁ = .ok c' := by
  rw [foldlM_cons, bulkInsertFixBitmap] at h
  split_ifs at h with haligned
  · cases h
  · exact ⟨not_not.mp haligned, exists_of_bind_ok h⟩

lemma Kept.load {P : ℕ → CursorBulk → Prop} (hP : Kept t P) {k : ℕ} (hc : P k c)
    (h : chunks.foldlM t.bulkInsertFixBitmap c = .ok c') :
    P (k + (chunks.map fun b => b.size % 2 ^ 32).sum) c' := by
  induction chunks generalizing k c with
  | nil => exact Except.ok.inj h ▸ hc
  | cons b chunks ih =>
    obtain ⟨-, c₁, hb, h⟩ := load_cons_ok h
    rw [map_cons, sum_cons, ← add_assoc]
    exact ih (hP.bitmapLoop hc hb) h

/-! ### Records that are lost -/

lemma kept_recno : Kept t fun k c => c.recno = k where
  split k c h := by
    rw [← h]
    unfold splitCheck writeChunk
    split_ifs <;> rfl
  copy k c data n c' h hc := by
    obtain ⟨-, -, rfl⟩ := copyRecords_ok hc
    exact congrArg (· + n) h

/-- The pages have the record numbers in front of the next one. -/
structure Counted (c : CursorBulk) : Prop where
  pages : ∀ p ∈ c.pages, p.recno + p.entries ≤ c.chunkRecno
  recno : c.recno = c.chunkRecno + c.entry

lemma counted_writeChunk (h : Counted c) :
    ∀ p ∈ (t.writeChunk c).pages, p.recno + p.entries ≤ c.recno := by
  have hold : ∀ p ∈ c.pages, p.recno + p.entries ≤ c.recno := by
    intro p hp
    have := h.pages p hp
    have := h.recno
    omega
  unfold writeChunk
  split_ifs
  · intro p hp
    rcases mem_append.mp hp with hp | hp
    · exact hold p hp
    · obtain rfl := mem_singleton.mp hp
      exact h.recno.ge
  · exact hold

lemma kept_counted : Kept t fun _ => Counted where
  split _ c h := by
    unfold splitCheck
    split_ifs with heq
    · by_cases hentry : c.entry = 0
      · unfold writeChunk
        rw [if_neg (not_not.mpr hentry)]
        exact ⟨h.pages, by rw [h.recno, hentry]⟩
      · have hpages := counted_writeChunk (t := t) h
        unfold writeChunk at hpages ⊢
        rw [if_pos hentry] at hpages ⊢
        exact ⟨hpages, rfl⟩
    · exact h
  copy _ c data n c' h hc := by
    obtain ⟨-, -, rfl⟩ := copyRecords_ok hc
    refine ⟨h.pages, ?_⟩
    rw [h.recno, add_assoc]

/-- There are no more records than have been counted. -/
lemma read_none (h : Counted c) {recno : ℕ} (hrecno : c.recno ≤ recno) :
    t.readRecno (t.bulkWrapup c) recno = none := by
  rw [readRecno, Option.map_eq_none_iff, find?_eq_none]
  intro p hp
  have := counted_writeChunk h p hp
  simp only [decide_eq_true_eq, not_and, not_lt]
  omega

lemma sum_mod_lt {l : List ℕ} {n : ℕ} (h : ∃ a ∈ l, n ≤ a) (hn : 0 < n) :
    (l.map (· % n)).sum < l.sum := by
  have hlt : (l.map (· % n)).sum < (l.map id).sum := by
    refine sum_lt_sum _ _ (fun a _ => Nat.mod_le a n) ?_
    obtain ⟨a, ha, hle⟩ := h
    exact ⟨a, ha, (Nat.mod_lt a hn).trans_le hle⟩
  rwa [map_id] at hlt

/-- A chunk of 2^32 records or more is not loaded faithfully. -/
lemma not_faithful_of_large (h : ∃ b ∈ chunks, 2 ^ 32 ≤ b.size) :
    ¬t.Faithful chunks := by
  rintro ⟨pages, hload, hread⟩
  have hlt : (chunks.map fun b => b.size % 2 ^ 32).sum < (chunks.map size).sum := by
    obtain ⟨b, hb, hle⟩ := h
    have := sum_mod_lt (l := chunks.map size) ⟨_, mem_map_of_mem hb, hle⟩
      (by decide)
    rwa [map_map] at this
  obtain ⟨c, hc, rfl⟩ := exists_of_map_ok hload
  have hcounted : Counted c := kept_counted.load (k := 0) ⟨by simp [bulkInit], rfl⟩ hc
  have hrecno : c.recno = 1 + _ := kept_recno.load rfl hc
  have := hread ((chunks.map size).sum - 1) (by omega)
  rw [read_none hcounted (by omega)] at this
  cases this

/-! ### The second page -/

/-- The first page has the first records, and the second page starts with a byte. -/
def SecondStarts (t : FixBtree) (x : UInt8) (c : CursorBulk) : Prop :=
  ∃ p, p.recno = 1 ∧ p.entries = t.room ∧
    ((c.pages = [p] ∧ c.chunkRecno = t.room + 1 ∧ 0 < c.entry ∧ c.image[0]? = some x) ∨
      ∃ q rest, c.pages = p :: q :: rest ∧ q.recno = t.room + 1 ∧ 0 < q.entries ∧
        q.bitf[0]? = some x)

lemma SecondStarts.writeChunk {x : UInt8} (h : SecondStarts t x c) :
    ∃ p q rest, p.recno = 1 ∧ p.entries = t.room ∧ (t.writeChunk c).pages = p :: q :: rest ∧
      q.recno = t.room + 1 ∧ 0 < q.entries ∧ q.bitf[0]? = some x := by
  obtain ⟨p, hrecno, hentries, ⟨hpages, hchunk, hpos, himage⟩ | ⟨q, rest, hpages, hq⟩⟩ := h
  · refine ⟨p, t.chunk c, [], hrecno, hentries, ?_, hchunk, hpos, ?_⟩
    · unfold FixBtree.writeChunk
      rw [if_pos hpos.ne', hpages]
      rfl
    · have hsize := bitstrSize_pos (mul_pos hpos t.bitcnt_pos)
      exact (getElem?_take_of_lt hsize).trans himage
  · unfold FixBtree.writeChunk
    split_ifs
    · exact ⟨p, q, rest ++ [t.chunk c], hrecno, hentries, by rw [hpages]; rfl, hq⟩
    · exact ⟨p, q, rest, hrecno, hentries, hpages, hq⟩

/-- The first byte of the second page is not written again. -/
lemma kept_secondStarts {x : UInt8} : Kept t fun _ => SecondStarts t x where
  split _ c h := by
    unfold splitCheck
    split_ifs
    · obtain ⟨p, q, rest, hrecno, hentries, hpages, hq⟩ := h.writeChunk
      exact ⟨p, hrecno, hentries, .inr ⟨q, rest, hpages, hq⟩⟩
    · exact h
  copy _ c data n c' h hc := by
    obtain ⟨-, hroom, rfl⟩ := copyRecords_ok hc
    obtain ⟨p, hrecno, hentries, ⟨hpages, hchunk, hpos, himage⟩ | hsecond⟩ := h
    · refine ⟨p, hrecno, hentries, .inl ⟨hpages, hchunk, Nat.add_pos_left hpos n, ?_⟩⟩
      have hsize := bitstrSize_pos (Nat.mul_pos hpos t.bitcnt_pos)
      have htake := take_blit_of_le (l := c.image) (d := data.take (bitstrSize (n * t.bitcnt)))
        (n := 1) hsize (by omega)
      rw [← himage, ← getElem?_take_of_lt (Nat.zero_lt_one), htake,
        getElem?_take_of_lt (Nat.zero_lt_one)]
    · exact ⟨p, hrecno, hentries, .inr hsecond⟩

/-- The first record of the second page is read from its first byte. -/
lemma SecondStarts.read (h : SecondStarts t 0 c) :
    t.readRecno (t.bulkWrapup c) (t.room + 1) = some 0 := by
  obtain ⟨p, q, rest, hrecno, hentries, hpages, hq, hpos, hbyte⟩ := h.writeChunk
  have hvalue : bitGetv q.bitf 0 t.bitcnt = 0 := by
    refine bitGetv_eq_zero fun b hb => ?_
    have hlt : (0 * t.bitcnt + b) / 8 = 0 := by
      have := t.bitcnt_le
      omega
    unfold bitTest
    rw [hlt, getD_eq_getElem?_getD, hbyte]
    simp
  rw [readRecno, bulkWrapup, hpages, find?_cons_of_neg (by simp; omega),
    find?_cons_of_pos (by simp; omega), Option.map_some, hq, Nat.sub_self, hvalue]

/-- The turn that starts the second page copies the byte there that follows the whole bytes of the
first page. -/
lemma loop_secondStarts (h : Loaded t bytes c) (hpages : c.pages = [])
    (hentry : c.entry < t.room) (hn : t.room < c.entry + n)
    (hloop : t.bitmapLoop fuel c data n = .ok c') {x : UInt8}
    (hx : ∀ y, data[bitstrSize ((t.room - c.entry) * t.bitcnt)]? = some y → y = x) :
    SecondStarts t x c' := by
  obtain ⟨h₁, hrecno₁, hnrecs₁, hlt₁, hentry₁⟩ := h.splitCheck fun heq => absurd heq hentry.ne
  have hpages₁ : (t.splitCheck c).pages = [] := by
    unfold splitCheck writeChunk
    split_ifs with heq hzero
    · have := h.nrecs
      omega
    · exact hpages
    · exact hpages
  have heq₁ : (t.splitCheck c).entry = c.entry := by
    have := h.recno_eq
    have := h₁.recno_eq
    rw [hpages₁] at this
    rw [hpages] at *
    omega
  -- the first turn takes what the first page has room for
  rcases bitmapLoop_ok hloop with ⟨rfl, -⟩ | ⟨-, fuel₁, m, c₁, rfl, hm, hcopy₁, hrest₁⟩
  · omega
  rw [hnrecs₁, heq₁, min_eq_right (by omega)] at hm
  subst hm
  obtain ⟨-, -, rfl⟩ := copyRecords_ok hcopy₁
  set c₂ : CursorBulk := { t.splitCheck c with
    image := blit (t.splitCheck c).image (bitstrSize ((t.splitCheck c).entry * t.bitcnt))
      (data.take (bitstrSize ((t.room - c.entry) * t.bitcnt)))
    entry := (t.splitCheck c).entry + (t.room - c.entry)
    recno := (t.splitCheck c).recno + (t.room - c.entry) }
  have hentry₂ : c₂.entry = t.room := by
    show (t.splitCheck c).entry + (t.room - c.entry) = _
    omega
  have hrecno₂ : c₂.recno = t.room + 1 := by
    show (t.splitCheck c).recno + (t.room - c.entry) = _
    have := h.recno_eq
    rw [hpages] at this
    simp only [length_nil, zero_mul] at this
    omega
  have hsplit₂ : t.splitCheck c₂ =
      ⟨[t.chunk c₂], 0, t.room, t.room + 1, t.room + 1, t.freshImage⟩ := by
    unfold splitCheck writeChunk
    rw [if_pos (hentry₂.trans hnrecs₁.symm), if_pos (by omega)]
    rw [hpages₁, hrecno₂]
    rfl
  -- the second turn starts the second page
  rcases bitmapLoop_ok hrest₁ with ⟨hzero, -⟩ | ⟨-, fuel₂, m₂, c₃, rfl, hm₂, hcopy₂, hrest₂⟩
  · omega
  refine kept_secondStarts.bitmapLoop (k := 0) ?_ hrest₂
  rw [hsplit₂] at hcopy₂ hm₂
  obtain ⟨hdata, himage, rfl⟩ := copyRecords_ok hcopy₂
  have hm₂pos : 0 < m₂ := by
    dsimp only at hm₂
    omega
  have hsize := bitstrSize_pos (mul_pos hm₂pos t.bitcnt_pos)
  refine ⟨t.chunk c₂, ?_, hentry₂, .inl ⟨rfl, rfl, by dsimp only; omega, ?_⟩⟩
  · show (t.splitCheck c).chunkRecno = 1
    rw [h₁.chunkRecno, hpages₁]
    simp
  · rw [zero_mul, bitstrSize_zero, blit, take_zero, nil_append,
      getElem?_append_left (by rw [length_take]; omega),
      getElem?_take_of_lt hsize, getElem?_drop, add_zero]
    rw [length_drop] at hdata
    have hget := getElem?_eq_getElem (l := data)
      (i := bitstrSize ((t.room - c.entry) * t.bitcnt)) (by omega)
    rw [hget, hx _ hget]

/-- A bitmap in chunks. -/
def chunksOf (t : FixBtree) (f : ℕ → UInt8) : ℕ → List ℕ → List t.BitmapChunk
  | _, [] => []
  | off, size :: sizes =>
    ⟨size, (range (bitstrSize (size * t.bitcnt))).map fun j => f (off + j), by simp⟩ ::
      chunksOf t f (off + bitstrSize (size * t.bitcnt)) sizes

lemma map_size_chunksOf (f : ℕ → UInt8) (off : ℕ) (sizes : List ℕ) :
    (chunksOf t f off sizes).map size = sizes := by
  induction sizes generalizing off with
  | nil => rfl
  | cons size sizes ih => rw [chunksOf, map_cons, ih]

/-- The bytes of the chunks are those of the bitmap. -/
lemma getD_chunksOf (f : ℕ → UInt8) (off : ℕ) (sizes : List ℕ) {j : ℕ}
    (hj : 8 * j < sizes.sum * t.bitcnt) :
    ((chunksOf t f off sizes).flatMap BitmapChunk.data).getD j 0 = f (off + j) := by
  induction sizes generalizing off j with
  | nil => simp at hj
  | cons size sizes ih =>
    rw [chunksOf, flatMap_cons]
    rw [sum_cons, add_mul] at hj
    rcases lt_or_ge j (bitstrSize (size * t.bitcnt)) with hlt | hge
    · rw [getD_append _ _ _ _ (by simpa using hlt), getD_eq_getElem?_getD,
        getElem?_map, getElem?_range hlt]
      rfl
    · have hsize : size * t.bitcnt ≤ 8 * bitstrSize (size * t.bitcnt) :=
        bitstrSize_le_iff.mp le_rfl
      have hlen : ((range (bitstrSize (size * t.bitcnt))).map fun j => f (off + j)).length =
          bitstrSize (size * t.bitcnt) := by simp
      rw [getD_append_right _ _ _ _ (by rw [hlen]; exact hge), hlen, ih]
      · congr 1
        omega
      · omega

/-- Once the records of the chunks go to the second page, it starts with the byte that follows the
whole bytes of the first page. -/
lemma load_secondStarts (hmod : t.room * t.bitcnt % 8 ≠ 0) (f : ℕ → UInt8) {sizes : List ℕ}
    (h : Loaded t bytes c) (hsizes : ∀ s ∈ sizes, s < 2 ^ 32)
    (hcross : t.room < c.recno - 1 + sizes.sum)
    (hload : (chunksOf t f (bitstrSize (c.entry * t.bitcnt)) sizes).foldlM
      t.bulkInsertFixBitmap c = .ok c') :
    SecondStarts t (f (t.room * t.bitcnt / 8 + 1)) c' := by
  have hnopages : ∀ {bytes c}, Loaded t bytes c → c.pages = [] ∧ c.recno - 1 = c.entry := by
    intro bytes c h
    have hpages : c.pages = [] := by
      by_contra hne
      have := h.fills hne
      omega
    have := h.recno_eq
    rw [hpages] at this
    simp only [length_nil, Nat.zero_mul] at this
    exact ⟨hpages, by omega⟩
  induction sizes generalizing bytes c with
  | nil =>
    have := h.entry_le
    rw [(hnopages h).2, sum_nil] at hcross
    omega
  | cons size sizes ih =>
    rw [chunksOf] at hload
    obtain ⟨haligned, c₁, hloop, hrest⟩ := load_cons_ok hload
    obtain ⟨hpages, hrecno⟩ := hnopages h
    rw [Nat.mod_eq_of_lt (hsizes size mem_cons_self)] at hloop
    have hentry := haligned
    rw [hrecno] at hentry
    rcases le_or_gt (c.recno - 1 + size) t.room with hle | hgt
    · obtain ⟨c₂, hc₂, h₂, hrecno₂⟩ := h.bitmapLoop
        ((List.range (bitstrSize (size * t.bitcnt))).map fun j =>
          f (bitstrSize (c.entry * t.bitcnt) + j)) (le_refl size) (fun _ => haligned) (.inr hle)
        (by simp)
      obtain rfl := Except.ok.inj (hc₂.symm.trans hloop)
      have hentry₂ : c₂.entry = c.entry + size := by
        have := (hnopages h₂).2
        have := h.recno_eq
        omega
      refine ih h₂ (fun s hs => hsizes s (mem_cons_of_mem _ hs)) ?_ ?_
      · rw [sum_cons] at hcross
        have := h.recno_eq
        omega
      · rw [hentry₂, Nat.add_mul, bitstrSize_add hentry]
        exact hrest
    · have hlt : c.entry < t.room := by
        rcases lt_or_eq_of_le h.entry_le with hlt | heq
        · exact hlt
        · rw [heq] at hentry
          exact absurd hentry hmod
      refine kept_secondStarts.load (k := 0)
        (loop_secondStarts h hpages hlt (by omega) hloop ?_) hrest
      intro y hy
      rw [getElem?_map, Option.map_eq_some_iff] at hy
      obtain ⟨j, hj, rfl⟩ := hy
      obtain ⟨hlen, rfl⟩ := List.getElem?_eq_some_iff.mp hj
      rw [getElem_range, ← bitstrSize_add hentry, ← Nat.add_mul,
        Nat.add_sub_cancel' h.entry_le]
      congr 1
      unfold bitstrSize
      omega

/-- If the records of a page do not end on a byte boundary, and there is a second page, there are
chunks that are not loaded faithfully. -/
lemma exists_not_faithful (hmod : t.room * t.bitcnt % 8 ≠ 0) {sizes : List ℕ}
    (hsizes : ∀ s ∈ sizes, s < 2 ^ 32) (hcross : t.room < sizes.sum) :
    ∃ chunks : List t.BitmapChunk, chunks.map BitmapChunk.size = sizes ∧ ¬t.Faithful chunks := by
  -- the only byte that is not 0 is the one that the first record of the second page starts in
  let f : ℕ → UInt8 := fun j => if j = t.room * t.bitcnt / 8 then 0xff else 0
  refine ⟨chunksOf t f 0 sizes, map_size_chunksOf f 0 sizes, ?_⟩
  rintro ⟨pages, hload, hread⟩
  obtain ⟨c, hc, rfl⟩ := exists_of_map_ok hload
  have hstart : bitstrSize (t.bulkInit.entry * t.bitcnt) = 0 := by simp [bulkInit]
  have hsecond := load_secondStarts hmod f (loaded_init t) hsizes (by simpa [bulkInit])
    (by rw [hstart]; exact hc)
  rw [show f (t.room * t.bitcnt / 8 + 1) = 0 from if_neg (by omega)] at hsecond
  have hvalue := hread t.room (by rwa [map_size_chunksOf])
  rw [hsecond.read, Option.some.injEq] at hvalue
  refine bitGetv_ne_zero t.bitcnt_pos ?_ hvalue.symm
  have hlt : t.room * t.bitcnt < sizes.sum * t.bitcnt :=
    Nat.mul_lt_mul_of_pos_right hcross t.bitcnt_pos
  rw [bitTest, getD_chunksOf f 0 sizes (by omega), Nat.zero_add]
  have hbit : ∀ b < 8, (0xff : UInt8).toNat.testBit b = true := by decide
  rw [show f (t.room * t.bitcnt / 8) = 0xff from if_pos rfl]
  exact hbit _ (Nat.mod_lt _ (by decide))

/-- **Chunks of a bitmap that are accepted are loaded faithfully, whatever their bits, exactly if
each has less than 2^32 records and either records fill a page or all of them are on one page.** -/
theorem bulkLoad_faithful_iff (t : FixBtree) (sizes : List ℕ) (haccepted : t.Accepted sizes) :
    (∀ chunks : List t.BitmapChunk, chunks.map size = sizes → t.Faithful chunks) ↔
      (∀ s ∈ sizes, s < 2 ^ 32) ∧ (t.bitcnt ∣ 8 * t.space ∨ sizes.sum ≤ t.room) := by
  constructor
  · intro hfaithful
    have hsizes : ∀ s ∈ sizes, s < 2 ^ 32 := by
      intro s hs
      by_contra hlarge
      have hmap := map_size_chunksOf (t := t) (fun _ => 0) 0 sizes
      rw [← hmap] at hs
      obtain ⟨b, hb, rfl⟩ := mem_map.mp hs
      exact not_faithful_of_large ⟨b, hb, not_lt.mp hlarge⟩ (hfaithful _ hmap)
    refine ⟨hsizes, ?_⟩
    by_contra hno
    obtain ⟨hdvd, hsum⟩ := not_or.mp hno
    obtain ⟨chunks, hmap, hnot⟩ := exists_not_faithful (fun h => hdvd (room_mul_mod.mp h)) hsizes
      (not_le.mp hsum)
    exact hnot (hfaithful chunks hmap)
  · rintro ⟨hsizes, hfits⟩ chunks rfl
    exact faithful_of_fits haccepted (fun b hb => hsizes _ (mem_map_of_mem hb)) hfits

/-- Two pages of a table with 4 bits a record. -/
theorem bulkLoad_faithful_iff_four_bits :
    let t : FixBtree := ⟨4, 2, by decide, by decide, by decide, by decide⟩
    t.Accepted [2, 5] ∧ ∀ chunks : List t.BitmapChunk,
      chunks.map size = [2, 5] → t.Faithful chunks := by
  have haccepted : FixBtree.Accepted ⟨4, 2, by decide, by decide, by decide, by decide⟩ [2, 5] := by
    intro k hk
    have hk : k < 2 := hk
    interval_cases k
    · rfl
    · rfl
  refine ⟨haccepted, (bulkLoad_faithful_iff _ _ haccepted).mpr ⟨by decide, .inl ?_⟩⟩
  decide

/-- The smallest pages, with 3 bits a record: a page has room for 1258 records, which is 471 bytes
and 6 bits. -/
theorem bulkLoad_loses_bits :
    let t : FixBtree := ⟨3, 472, by decide, by decide, by decide, by decide⟩
    t.Accepted [1259] ∧ ∃ chunks : List t.BitmapChunk,
      chunks.map size = [1259] ∧ ¬t.Faithful chunks := by
  refine ⟨?_, exists_not_faithful (by decide) (by decide) (by decide)⟩
  intro k hk
  obtain rfl : k = 0 := by simpa using hk
  rfl

end FixBtree

end WiredTiger
