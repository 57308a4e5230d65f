/-
# Packed integers: round trip, size and order

A packed integer is a first byte and a big-endian number of so many bytes.  The first bytes ascend
with the numbers, and where two are the same, so are the lengths and the numbers that follow
ascend.  Hence packed integers sort as the integers do, whatever is behind them.
-/
import WiredTiger.Pack.IntPack

namespace WiredTiger

open Lib Nat

variable {x y maxlen : ℕ}

/-! ### Codes -/

/-- A first byte and the number that follows it in `len` bytes. -/
structure Code where
  first : ℕ
  len : ℕ
  rest : ℕ

def Code.bytes (c : Code) : List UInt8 := UInt8.ofNat c.first :: beBytes c.len c.rest

/-- One code sorts before another. -/
def Code.Before (c d : Code) : Prop :=
  c.first < d.first ∨
    c.first = d.first ∧ c.len = d.len ∧ c.rest % 256 ^ c.len < d.rest % 256 ^ c.len

lemma Code.Before.decides {c d : Code} (h : c.Before d) (hd : d.first < 256) :
    Decides .lt c.bytes d.bytes := by
  rcases h with h | ⟨hf, hl, hr⟩
  · exact decides_cons_of_lt (ofNat_lt_ofNat h hd) _ _
  · rw [Code.bytes, Code.bytes, hf, ← hl]
    exact (decides_beBytes_of_lt hr).cons _

@[simp] lemma Code.length_bytes (c : Code) : c.bytes.length = c.len + 1 := by
  simp [Code.bytes]

/-- The code of an unsigned integer. -/
def codeUint (x : ℕ) : Code :=
  if x ≤ pos1ByteMax then ⟨0x80 + x, 0, 0⟩
  else if x ≤ pos2ByteMax then ⟨0xc0 + (x - 64) / 256, 1, x - 64⟩
  else
    let len := max 1 (8 - leadingZeros (x - 8256))
    ⟨0xe0 + len, len, x - 8256⟩

/-- The code of a signed integer. -/
def codeInt (x : ℤ) : Code :=
  if x < neg2ByteMin then
    let lz := leadingZeros (2 ^ 64 - 1 - toUint64 x)
    ⟨0x10 + lz, 8 - lz, toUint64 x⟩
  else if x < neg1ByteMin then ⟨0x20 + (x + 8256).toNat / 256, 1, (x + 8256).toNat⟩
  else if x < 0 then ⟨0x40 + (x + 64).toNat, 0, 0⟩
  else codeUint (toUint64 x)

lemma not_le_pos1ByteMax (h : 63 < x) : ¬ x ≤ pos1ByteMax := not_le.mpr h

lemma not_le_pos2ByteMax (h : 8255 < x) : ¬ x ≤ pos2ByteMax := not_le.mpr h

lemma not_lt_neg1ByteMin {x : ℤ} (h : -64 ≤ x) : ¬ x < neg1ByteMin := not_lt.mpr h

lemma not_lt_neg2ByteMin {x : ℤ} (h : -8256 ≤ x) : ¬ x < neg2ByteMin := not_lt.mpr h

lemma codeUint_one (h : x ≤ 63) : codeUint x = ⟨0x80 + x, 0, 0⟩ := if_pos h

lemma codeUint_two (h : 63 < x) (h' : x ≤ 8255) :
    codeUint x = ⟨0xc0 + (x - 64) / 256, 1, x - 64⟩ := by
  rw [codeUint, if_neg (not_le_pos1ByteMax h),
    if_pos (show x ≤ pos2ByteMax from h')]

lemma codeUint_multi (h : 8255 < x) :
    codeUint x = ⟨0xe0 + max 1 (8 - leadingZeros (x - 8256)),
      max 1 (8 - leadingZeros (x - 8256)), x - 8256⟩ := by
  rw [codeUint, if_neg (not_le_pos1ByteMax (by omega)), if_neg (not_le_pos2ByteMax (by omega))]

lemma codeInt_nonneg {x : ℤ} (h : 0 ≤ x) : codeInt x = codeUint (toUint64 x) := by
  rw [codeInt, if_neg (not_lt_neg2ByteMin (by omega)), if_neg (not_lt_neg1ByteMin (by omega)),
    if_neg (not_lt.mpr h)]

lemma codeInt_one {x : ℤ} (h : -64 ≤ x) (h' : x < 0) :
    codeInt x = ⟨0x40 + (x + 64).toNat, 0, 0⟩ := by
  rw [codeInt, if_neg (not_lt_neg2ByteMin (by omega)), if_neg (not_lt_neg1ByteMin (by omega)),
    if_pos h']

lemma codeInt_two {x : ℤ} (h : -8256 ≤ x) (h' : x < -64) :
    codeInt x = ⟨0x20 + (x + 8256).toNat / 256, 1, (x + 8256).toNat⟩ := by
  rw [codeInt, if_neg (not_lt_neg2ByteMin (by omega)), if_pos (show x < neg1ByteMin from h')]

lemma codeInt_multi {x : ℤ} (h : x < -8256) :
    codeInt x = ⟨0x10 + leadingZeros (2 ^ 64 - 1 - toUint64 x),
      8 - leadingZeros (2 ^ 64 - 1 - toUint64 x), toUint64 x⟩ := if_pos h

/-! ### Leading zero bytes -/

lemma leadingZeros_le (x : ℕ) : leadingZeros x ≤ 8 := by
  unfold leadingZeros
  split_ifs <;> omega

lemma lt_pow_leadingZeros (hx : x < 2 ^ 64) : x < 256 ^ (8 - leadingZeros x) := by
  by_cases h0 : x = 0
  · simp [h0, leadingZeros]
  · have hlog : x.log2 < 64 := (log2_lt h0).mpr hx
    have : x.log2 < 8 * (8 - leadingZeros x) := by
      simp only [leadingZeros, h0, if_false]
      omega
    have := (log2_lt h0).mp this
    rwa [pow_mul] at this

lemma lt_pow_max_leadingZeros (hx : x < 2 ^ 64) : x < 256 ^ max 1 (8 - leadingZeros x) := by
  refine (lt_pow_leadingZeros hx).trans_le (Nat.pow_le_pow_right (by decide) ?_)
  exact le_max_right _ _

lemma pow_leadingZeros_le (h0 : x ≠ 0) : leadingZeros x ≤ 7 ∧ 256 ^ (7 - leadingZeros x) ≤ x := by
  have hlz : leadingZeros x ≤ 7 ∧ 8 * (7 - leadingZeros x) ≤ x.log2 := by
    simp only [leadingZeros, h0, if_false]
    omega
  refine ⟨hlz.1, ?_⟩
  have := (le_log2 h0).mp hlz.2
  rwa [pow_mul] at this

lemma leadingZeros_anti (h : x ≤ y) (hy : y < 2 ^ 64) : leadingZeros y ≤ leadingZeros x := by
  by_cases h0 : x = 0
  · simpa [h0, leadingZeros] using leadingZeros_le y
  · obtain ⟨hlx, hpx⟩ := pow_leadingZeros_le h0
    have hlt : 256 ^ (7 - leadingZeros x) < 256 ^ (8 - leadingZeros y) :=
      hpx.trans_lt (h.trans_lt (lt_pow_leadingZeros hy))
    have := (Nat.pow_lt_pow_iff_right (by decide)).mp hlt
    omega

lemma one_le_of_ne_zero (h0 : x ≠ 0) : max 1 (8 - leadingZeros x) = 8 - leadingZeros x := by
  have := (pow_leadingZeros_le h0).1
  omega

/-! ### The order -/

lemma codeUint_first_lt (x : ℕ) : 0x80 ≤ (codeUint x).first ∧ (codeUint x).first < 256 := by
  unfold codeUint pos2ByteMax pos1ByteMax
  split_ifs with h1 h2
  · constructor <;> dsimp only <;> omega
  · constructor <;> dsimp only <;> omega
  · have := leadingZeros_le (x - 8256)
    constructor <;> dsimp only <;> omega

lemma codeInt_first_lt (x : ℤ) : (codeInt x).first < 256 := by
  unfold codeInt neg2ByteMin neg1ByteMin
  split_ifs with h1 h2 h3
  · have := leadingZeros_le (2 ^ 64 - 1 - toUint64 x)
    dsimp only
    omega
  · dsimp only
    omega
  · dsimp only
    omega
  · exact (codeUint_first_lt _).2

lemma mod_lt_mod {m : ℕ} (h : x < y) (hy : y < m) : x % m < y % m := by
  rwa [mod_eq_of_lt hy, mod_eq_of_lt (h.trans hy)]

section

variable (h : x < y) (hy : y < 2 ^ 64)
include h hy

lemma codePosint_before :
    Code.Before ⟨0xe0 + max 1 (8 - leadingZeros x), max 1 (8 - leadingZeros x), x⟩
      ⟨0xe0 + max 1 (8 - leadingZeros y), max 1 (8 - leadingZeros y), y⟩ := by
  have hlz := leadingZeros_anti h.le hy
  by_cases hlen : max 1 (8 - leadingZeros x) = max 1 (8 - leadingZeros y)
  · refine .inr ⟨by dsimp only; rw [hlen], hlen, ?_⟩
    rw [hlen]
    exact mod_lt_mod h (lt_pow_max_leadingZeros hy)
  · refine .inl ?_
    dsimp only
    omega

lemma codeUint_before : (codeUint x).Before (codeUint y) := by
  unfold codeUint pos2ByteMax pos1ByteMax
  split_ifs with hx1 hy1 hy2 hx2 hy1 hy2 hy1 hy2 <;> try omega
  -- codes of different lengths differ in the first byte
  all_goals try exact .inl (by dsimp only; omega)
  · unfold Code.Before
    dsimp only
    omega
  · exact codePosint_before (by omega) (by omega)

/-- Numbers near the top of the 64-bit range compare by their low bytes. -/
lemma mod_pow_lt_of_top {n : ℕ} (hn : n ≤ 8) (hx : 2 ^ 64 - 1 - x < 256 ^ n) :
    x % 256 ^ n < y % 256 ^ n := by
  interval_cases n <;> omega

lemma codeNegint_before :
    Code.Before
      ⟨0x10 + leadingZeros (2 ^ 64 - 1 - x), 8 - leadingZeros (2 ^ 64 - 1 - x), x⟩
      ⟨0x10 + leadingZeros (2 ^ 64 - 1 - y), 8 - leadingZeros (2 ^ 64 - 1 - y), y⟩ := by
  obtain ⟨x', hx'⟩ : ∃ x', x' = 2 ^ 64 - 1 - x := ⟨_, rfl⟩
  obtain ⟨y', hy'⟩ : ∃ y', y' = 2 ^ 64 - 1 - y := ⟨_, rfl⟩
  rw [← hx', ← hy']
  have hle : y' ≤ x' := by omega
  have hlt : x' < 2 ^ 64 := by omega
  have hlz := leadingZeros_anti hle hlt
  rcases hlz.lt_or_eq with hlz | hlz
  · refine .inl ?_
    dsimp only
    omega
  · refine .inr ⟨by dsimp only; rw [hlz], by dsimp only; rw [hlz], ?_⟩
    refine mod_pow_lt_of_top h hy (by dsimp only; omega) ?_
    rw [← hx']
    exact lt_pow_leadingZeros hlt

end

lemma codeInt_before {x y : ℤ} (h : x < y) (hx : -2 ^ 63 ≤ x) (hy : y < 2 ^ 63) :
    (codeInt x).Before (codeInt y) := by
  unfold codeInt neg2ByteMin neg1ByteMin
  have hux : x < 0 → toUint64 x = (x + 2 ^ 64).toNat := by unfold toUint64; omega
  have huy : y < 0 → toUint64 y = (y + 2 ^ 64).toNat := by unfold toUint64; omega
  have hfy := codeUint_first_lt (toUint64 y)
  have hlzx := leadingZeros_le (2 ^ 64 - 1 - toUint64 x)
  split_ifs with hx1 hy1 hy2 hy3 hx2 hy1 hy2 hy3 hx3 hy1 hy2 hy3 hy1 hy2 hy3 <;> try omega
  all_goals try exact .inl (by dsimp only; omega)
  · exact codeNegint_before (by omega) (by omega)
  · unfold Code.Before
    dsimp only
    omega
  · exact codeUint_before (by unfold toUint64; omega) (by unfold toUint64; omega)

/-- Codes of unsigned integers sort as the integers. -/
lemma decides_codeUint (hx : x < 2 ^ 64) (hy : y < 2 ^ 64) :
    Decides (compare x y) (codeUint x).bytes (codeUint y).bytes :=
  @decides_compare UInt8 _ ℕ _ (fun x => x < 2 ^ 64) (fun x => (codeUint x).bytes)
    (fun _ y _ hy h => (codeUint_before h hy).decides (codeUint_first_lt y).2) x y hx hy

/-- Codes of signed integers sort as the integers. -/
lemma decides_codeInt {x y : ℤ} (hx : -2 ^ 63 ≤ x ∧ x < 2 ^ 63) (hy : -2 ^ 63 ≤ y ∧ y < 2 ^ 63) :
    Decides (compare x y) (codeInt x).bytes (codeInt y).bytes :=
  @decides_compare UInt8 _ ℤ _ (fun x => -2 ^ 63 ≤ x ∧ x < 2 ^ 63) (fun x => (codeInt x).bytes)
    (fun _ y hx hy h => (codeInt_before h hx.1 hy.2).decides (codeInt_first_lt y)) x y hx hy

/-! ### Packing writes the code -/

lemma sizeFails.mono {l l' : ℕ} (h : sizeFails l maxlen) (hl : l ≤ l') :
    sizeFails l' maxlen := ⟨h.1, h.2.trans_le hl⟩

lemma getBits_eq (x start stop : ℕ) : getBits x start stop = x % 2 ^ start / 2 ^ stop := by
  rw [getBits, and_two_pow_sub_one_eq_mod, shiftRight_eq_div_pow]

lemma oneByteMarker_or : ∀ m ∈ [pos1ByteMarker, neg1ByteMarker], ∀ y < 64,
    m ||| UInt8.ofNat y = UInt8.ofNat (m.toNat + y) := by
  decide +kernel

lemma twoByteMarker_or : ∀ m ∈ [pos2ByteMarker, neg2ByteMarker], ∀ y < 32,
    m ||| UInt8.ofNat y = UInt8.ofNat (m.toNat + y) := by
  decide +kernel

lemma multiMarker_or : ∀ m ∈ [posMultiMarker, negMultiMarker], ∀ y < 16,
    m ||| UInt8.ofNat (y &&& 0xf) = UInt8.ofNat (m.toNat + y) := by
  decide +kernel

lemma beBytes_one (x : ℕ) : beBytes 1 x = [UInt8.ofNat (getBits x 8 0)] := by
  have : UInt8.ofNat (x >>> 0) = UInt8.ofNat (getBits x 8 0) := by
    rw [← UInt8.toNat_inj, UInt8.toNat_ofNat', UInt8.toNat_ofNat', getBits_eq]
    simp
  simpa [beBytes] using this

lemma vsizeUint_eq {x : ℕ} : vsizeUint x = (codeUint x).len + 1 := by
  unfold vsizeUint codeUint vsizePosint intpack64Maxsize pos2ByteMax pos1ByteMax
  split_ifs with h1 h2 h3
  · rfl
  · rfl
  · obtain rfl : x = 8256 := by omega
    rfl
  · omega
  · have hlz := (pow_leadingZeros_le (x := x - 8256) (by omega)).1
    show 9 - leadingZeros (x - 8256) = max 1 (8 - leadingZeros (x - 8256)) + 1
    omega

lemma vsizeInt_eq {x : ℤ} : vsizeInt x = (codeInt x).len + 1 := by
  unfold vsizeInt codeInt vsizeNegint intpack64Maxsize
  have hlz := leadingZeros_le (2 ^ 64 - 1 - toUint64 x)
  split_ifs with h1 h2 h3
  · dsimp only
    omega
  · rfl
  · rfl
  · exact vsizeUint_eq

lemma vsizeUint_pos (x : ℕ) : 1 ≤ vsizeUint x := by
  rw [vsizeUint_eq]
  omega

lemma vsizeInt_pos (x : ℤ) : 1 ≤ vsizeInt x := by
  rw [vsizeInt_eq]
  omega

lemma vpackUint_of_fits (h : ¬ sizeFails (vsizeUint x) maxlen) :
    vpackUint maxlen x = ⟨(codeUint x).bytes, none⟩ := by
  rw [vsizeUint_eq] at h
  rw [vpackUint, if_neg (fun hf => h (hf.mono (by omega)))]
  rcases le_or_gt x 63 with h1 | h1
  · rw [codeUint_one h1, if_pos (show x ≤ pos1ByteMax from h1), getBits_eq,
      show x % 2 ^ 6 / 2 ^ 0 = x by omega, oneByteMarker_or _ (by decide) x (by omega)]
    rfl
  · rw [if_neg (not_le_pos1ByteMax (by omega))]
    rcases le_or_gt x 8255 with h2 | h2
    · rw [codeUint_two h1 h2] at h ⊢
      rw [if_pos (show x ≤ pos2ByteMax from h2), if_neg h, Code.bytes, beBytes_one]
      show Written.mk [_ ||| UInt8.ofNat (getBits (x - 64) 13 8), _] none = _
      rw [show getBits (x - 64) 13 8 = (x - 64) / 256 by rw [getBits_eq]; omega,
        twoByteMarker_or _ (by decide) _ (by omega)]
      rfl
    · rw [codeUint_multi h2] at h ⊢
      rw [if_neg (not_le_pos2ByteMax (by omega))]
      by_cases h3 : x = 8256
      · subst h3
        rfl
      · rw [one_le_of_ne_zero (by omega)] at h ⊢
        rw [if_neg (show ¬ x = pos2ByteMax + 1 from h3), vpackPosint]
        show (if sizeFails (8 - leadingZeros (x - 8256) + 1) maxlen then _ else _) = _
        rw [if_neg h, multiMarker_or _ (by decide) _ (by omega)]
        rfl

lemma vpackInt_of_fits {x : ℤ} (h : ¬ sizeFails (vsizeInt x) maxlen) :
    vpackInt maxlen x = ⟨(codeInt x).bytes, none⟩ := by
  rw [vsizeInt_eq] at h
  rw [vpackInt, if_neg (fun hf => h (hf.mono (by omega)))]
  rcases lt_or_ge x (-8256) with h1 | h1
  · rw [codeInt_multi h1] at h ⊢
    have hlz := leadingZeros_le (2 ^ 64 - 1 - toUint64 x)
    rw [if_pos (show x < neg2ByteMin from h1), vpackNegint, if_neg h,
      multiMarker_or _ (by decide) _ (by omega)]
    rfl
  · rw [if_neg (not_lt_neg2ByteMin (by omega))]
    rcases lt_or_ge x (-64) with h2 | h2
    · rw [codeInt_two h1 h2] at h ⊢
      rw [if_pos (show x < neg1ByteMin from h2), if_neg h, Code.bytes, beBytes_one]
      show Written.mk [_ ||| UInt8.ofNat (getBits (x + 8256).toNat 13 8), _] none = _
      rw [show getBits (x + 8256).toNat 13 8 = (x + 8256).toNat / 256 by rw [getBits_eq]; omega,
        twoByteMarker_or _ (by decide) _ (by omega)]
      rfl
    · rw [if_neg (not_lt_neg1ByteMin (by omega))]
      rcases lt_or_ge x 0 with h3 | h3
      · rw [codeInt_one h2 h3, if_pos h3]
        show Written.mk [_ ||| UInt8.ofNat (getBits (x + 64).toNat 6 0)] none = _
        rw [show getBits (x + 64).toNat 6 0 = (x + 64).toNat by rw [getBits_eq]; omega,
          oneByteMarker_or _ (by decide) _ (by omega)]
        rfl
      · rw [codeInt_nonneg h3] at h ⊢
        rw [if_neg (not_lt.mpr h3), vpackUint_of_fits (by rwa [vsizeUint_eq])]

/-! ### Unpacking reads it back -/

lemma shiftLeft_or_mod (acc : ℕ) (b : UInt8) :
    ((acc % 2 ^ 64) <<< 8 ||| b.toNat) % 2 ^ 64 = (acc * 256 + b.toNat) % 2 ^ 64 := by
  have hb : b.toNat < 2 ^ 8 := b.toNat_lt
  rw [← shiftLeft_add_eq_or_of_lt hb, shiftLeft_eq]
  omega

lemma readBe_append (acc : ℕ) (bs rest : List UInt8) :
    readBe (acc % 2 ^ 64) bs.length (bs ++ rest) = .ok (beValue acc bs % 2 ^ 64) := by
  induction bs generalizing acc with
  | nil => rfl
  | cons b bs ih =>
    show readBe (((acc % 2 ^ 64) <<< 8 ||| b.toNat) % 2 ^ 64) bs.length (bs ++ rest) = _
    rw [shiftLeft_or_mod, ih]
    rfl

lemma readBe_beBytes (acc n x : ℕ) (rest : List UInt8) :
    readBe (acc % 2 ^ 64) n (beBytes n x ++ rest) =
      .ok ((acc * 256 ^ n + x % 256 ^ n) % 2 ^ 64) := by
  have := readBe_append acc (beBytes n x) rest
  rwa [length_beBytes, beValue_beBytes] at this

/-- The first half of a byte tells which marker it has. -/
lemma marker_iff : ∀ n < 256, ∀ m, m = UInt8.ofNat n &&& 0xf0 →
    (m = negMultiMarker ↔ n / 16 = 1) ∧
    (m = neg2ByteMarker ∨ m = neg2ByteMarker ||| 0x10 ↔ n / 32 = 1) ∧
    (m = neg1ByteMarker ∨ m = neg1ByteMarker ||| 0x10 ∨ m = neg1ByteMarker ||| 0x20 ∨
      m = neg1ByteMarker ||| 0x30 ↔ n / 64 = 1) ∧
    (m = pos1ByteMarker ∨ m = pos1ByteMarker ||| 0x10 ∨ m = pos1ByteMarker ||| 0x20 ∨
      m = pos1ByteMarker ||| 0x30 ↔ n / 64 = 2) ∧
    (m = pos2ByteMarker ∨ m = pos2ByteMarker ||| 0x10 ↔ n / 32 = 6) ∧
    (m = posMultiMarker ↔ n / 16 = 14) := by
  rintro n hn _ rfl
  revert n
  decide +kernel

lemma getBits_ofNat {n : ℕ} (hn : n < 256) (k : ℕ) :
    getBits (UInt8.ofNat n).toNat k 0 = n % 2 ^ k := by
  rw [getBits_eq, UInt8.toNat_ofNat', Nat.mod_eq_of_lt hn, pow_zero, Nat.div_one]

lemma vunpackUint_one (h : ¬ sizeFails 1 maxlen) (hy : y < 64) (q : List UInt8) :
    vunpackUint maxlen (UInt8.ofNat (0x80 + y) :: q) = .ok (y, 1) := by
  obtain ⟨-, -, -, hone, -⟩ := marker_iff (0x80 + y) (by omega) _ rfl
  unfold vunpackUint
  rw [if_neg h]
  dsimp only
  rw [if_pos (hone.mpr (by omega)), getBits_ofNat (by omega), show (0x80 + y) % 2 ^ 6 = y by omega]

lemma vunpackUint_two (h : ¬ sizeFails 2 maxlen) (hy : y < 32) (c : UInt8) (q : List UInt8) :
    vunpackUint maxlen (UInt8.ofNat (0xc0 + y) :: c :: q) = .ok (y * 256 + c.toNat + 64, 2) := by
  obtain ⟨-, -, -, hone, htwo, -⟩ := marker_iff (0xc0 + y) (by omega) _ rfl
  have hc : c.toNat < 2 ^ 8 := c.toNat_lt
  unfold vunpackUint
  rw [if_neg (fun hf => h (hf.mono (by omega)))]
  dsimp only
  rw [if_neg (mt hone.mp (by omega)), if_pos (htwo.mpr (by omega)), if_neg h,
    getBits_ofNat (by omega), show (0xc0 + y) % 2 ^ 5 = y by omega,
    ← shiftLeft_add_eq_or_of_lt hc, shiftLeft_eq]
  rfl

lemma posMulti_len : ∀ n < 16, ((UInt8.ofNat (0xe0 + n)) &&& 0xf).toNat = n := by
  decide

lemma vunpackUint_multi {n : ℕ} (h : ¬ sizeFails (n + 1) maxlen) (hn : n < 16) (x : ℕ)
    (q : List UInt8) :
    vunpackUint maxlen (UInt8.ofNat (0xe0 + n) :: (beBytes n x ++ q)) =
      .ok ((x % 256 ^ n % 2 ^ 64 + 8256) % 2 ^ 64, n + 1) := by
  obtain ⟨-, -, -, hone, htwo, hmulti⟩ := marker_iff (0xe0 + n) (by omega) _ rfl
  have hread := readBe_beBytes 0 n x q
  unfold vunpackUint
  rw [if_neg (fun hf => h (hf.mono (by omega)))]
  dsimp only
  rw [if_neg (mt hone.mp (by omega)), if_neg (mt htwo.mp (by omega)),
    if_pos (hmulti.mpr (by omega)), vunpackPosint, posMulti_len n hn, if_neg h,
    show (0 : ℕ) = 0 % 2 ^ 64 from rfl, hread, zero_mul, zero_add]
  rfl

lemma vunpackUint_code (hx : x < 2 ^ 64) (h : ¬ sizeFails (vsizeUint x) maxlen)
    (rest : List UInt8) :
    vunpackUint maxlen ((codeUint x).bytes ++ rest) = .ok (x, vsizeUint x) := by
  rw [vsizeUint_eq] at h ⊢
  rcases le_or_gt x 63 with h1 | h1
  · rw [codeUint_one h1] at h ⊢
    exact vunpackUint_one h (by omega) rest
  · rcases le_or_gt x 8255 with h2 | h2
    · rw [codeUint_two h1 h2] at h ⊢
      rw [Code.bytes, beBytes_one]
      refine (vunpackUint_two h (by omega) _ rest).trans ?_
      rw [UInt8.toNat_ofNat', getBits_eq]
      dsimp only
      congr 2
      omega
    · obtain ⟨y, rfl⟩ : ∃ y, x = y + 8256 := ⟨x - 8256, by omega⟩
      rw [codeUint_multi h2, Nat.add_sub_cancel] at h ⊢
      have hy : y < 2 ^ 64 := by omega
      refine (vunpackUint_multi h (by dsimp only; omega) y rest).trans ?_
      rw [Nat.mod_eq_of_lt (lt_pow_max_leadingZeros hy), Nat.mod_eq_of_lt hy, Nat.mod_eq_of_lt hx]

lemma negMulti_len : ∀ n < 9, (8 - ((UInt8.ofNat (0x10 + n)) &&& 0xf)).toNat = 8 - n := by
  decide

lemma vunpackInt_multi {lz : ℕ} (h : ¬ sizeFails (8 - lz + 1) maxlen) (hlz : lz ≤ 8) (x : ℕ)
    (q : List UInt8) :
    vunpackInt maxlen (UInt8.ofNat (0x10 + lz) :: (beBytes (8 - lz) x ++ q)) =
      .ok (toInt64 (((2 ^ 64 - 1) * 256 ^ (8 - lz) + x % 256 ^ (8 - lz)) % 2 ^ 64),
        8 - lz + 1) := by
  obtain ⟨hmulti, -⟩ := marker_iff (0x10 + lz) (by omega) _ rfl
  have hread := readBe_beBytes (2 ^ 64 - 1) (8 - lz) x q
  unfold vunpackInt
  rw [if_neg (fun hf => h (hf.mono (by omega)))]
  dsimp only
  rw [if_pos (hmulti.mpr (by omega)), vunpackNegint, negMulti_len lz (by omega), if_neg h,
    show 2 ^ 64 - 1 = (2 ^ 64 - 1) % 2 ^ 64 from rfl, hread]
  rfl

lemma vunpackInt_two (h : ¬ sizeFails 2 maxlen) (hy : y < 32) (c : UInt8) (q : List UInt8) :
    vunpackInt maxlen (UInt8.ofNat (0x20 + y) :: c :: q) =
      .ok (((y * 256 + c.toNat : ℕ) : ℤ) - 8256, 2) := by
  obtain ⟨hmulti, htwo, -⟩ := marker_iff (0x20 + y) (by omega) _ rfl
  have hc : c.toNat < 2 ^ 8 := c.toNat_lt
  unfold vunpackInt
  rw [if_neg (fun hf => h (hf.mono (by omega)))]
  dsimp only
  rw [if_neg (mt hmulti.mp (by omega)), if_pos (htwo.mpr (by omega)), if_neg h,
    getBits_ofNat (by omega), show (0x20 + y) % 2 ^ 5 = y by omega,
    ← shiftLeft_add_eq_or_of_lt hc, shiftLeft_eq]
  rfl

lemma vunpackInt_one (h : ¬ sizeFails 1 maxlen) (hy : y < 64) (q : List UInt8) :
    vunpackInt maxlen (UInt8.ofNat (0x40 + y) :: q) = .ok (-64 + (y : ℤ), 1) := by
  obtain ⟨hmulti, htwo, hone, -⟩ := marker_iff (0x40 + y) (by omega) _ rfl
  unfold vunpackInt
  rw [if_neg h]
  dsimp only
  rw [if_neg (mt hmulti.mp (by omega)), if_neg (mt htwo.mp (by omega)),
    if_pos (hone.mpr (by omega)), getBits_ofNat (by omega), show (0x40 + y) % 2 ^ 6 = y by omega]
  rfl

lemma vunpackInt_nonneg (h : ¬ sizeFails 1 maxlen) (hy : 128 ≤ y) (hy' : y < 256) (q : List UInt8) :
    vunpackInt maxlen (UInt8.ofNat y :: q) =
      (vunpackUint maxlen (UInt8.ofNat y :: q)).map fun xn => (toInt64 xn.1, xn.2) := by
  obtain ⟨hmulti, htwo, hone, -⟩ := marker_iff y hy' _ rfl
  conv_lhs => unfold vunpackInt
  rw [if_neg h]
  dsimp only
  rw [if_neg (mt hmulti.mp (by omega)), if_neg (mt htwo.mp (by omega)),
    if_neg (mt hone.mp (by omega))]

lemma toInt64_toUint64 {x : ℤ} (h : -2 ^ 63 ≤ x) (h' : x < 2 ^ 63) : toInt64 (toUint64 x) = x := by
  unfold toInt64 toUint64
  split_ifs <;> omega

/-- A number near the top of the 64-bit range is its low bytes below ones. -/
lemma top_mod_eq {n : ℕ} (hn : n ≤ 8) (hx : 2 ^ 64 - 1 - x < 256 ^ n) (hx' : x < 2 ^ 64) :
    ((2 ^ 64 - 1) * 256 ^ n + x % 256 ^ n) % 2 ^ 64 = x := by
  interval_cases n <;> omega

lemma vunpackInt_code {x : ℤ} (hx : -2 ^ 63 ≤ x) (hx' : x < 2 ^ 63)
    (h : ¬ sizeFails (vsizeInt x) maxlen) (rest : List UInt8) :
    vunpackInt maxlen ((codeInt x).bytes ++ rest) = .ok (x, vsizeInt x) := by
  rw [vsizeInt_eq] at h ⊢
  have hu : toUint64 x < 2 ^ 64 := by unfold toUint64; omega
  rcases lt_or_ge x (-8256) with h1 | h1
  · rw [codeInt_multi h1] at h ⊢
    have hlz := leadingZeros_le (2 ^ 64 - 1 - toUint64 x)
    refine (vunpackInt_multi h hlz (toUint64 x) rest).trans ?_
    rw [top_mod_eq (by omega) (lt_pow_leadingZeros (by omega)) hu, toInt64_toUint64 hx hx']
  · rcases lt_or_ge x (-64) with h2 | h2
    · rw [codeInt_two h1 h2] at h ⊢
      rw [Code.bytes, beBytes_one]
      refine (vunpackInt_two h (by omega) _ rest).trans ?_
      rw [UInt8.toNat_ofNat', getBits_eq]
      dsimp only
      congr 2
      omega
    · rcases lt_or_ge x 0 with h3 | h3
      · rw [codeInt_one h2 h3] at h ⊢
        refine (vunpackInt_one h (by omega) rest).trans ?_
        congr 2
        omega
      · rw [codeInt_nonneg h3] at h ⊢
        obtain ⟨hf, hf'⟩ := codeUint_first_lt (toUint64 x)
        have hs : ¬ sizeFails 1 maxlen := fun hs => h (hs.mono (by omega))
        rw [← vsizeUint_eq] at h ⊢
        have hread := vunpackUint_code hu h rest
        rw [Code.bytes, List.cons_append] at hread ⊢
        rw [vunpackInt_nonneg hs hf hf', hread]
        simp [Except.map, toInt64_toUint64 hx hx']

/-! ### The properties of packed integers -/

/-- **Packed integers are read back, have the size that is computed, and sort as the integers.**
A length allows a packed integer if it is 0, which means no limit, or at least its size. -/
theorem vpack_roundTrip_sorts :
    (∀ x < 2 ^ 64, ∀ maxlen, ¬ sizeFails (vsizeUint x) maxlen →
      ∃ bytes, vpackUint maxlen x = ⟨bytes, none⟩ ∧ bytes.length = vsizeUint x ∧
        ∀ rest maxlen', ¬ sizeFails (vsizeUint x) maxlen' →
          vunpackUint maxlen' (bytes ++ rest) = .ok (x, bytes.length)) ∧
    (∀ y, -2 ^ 63 ≤ y → y < 2 ^ 63 → ∀ maxlen, ¬ sizeFails (vsizeInt y) maxlen →
      ∃ bytes, vpackInt maxlen y = ⟨bytes, none⟩ ∧ bytes.length = vsizeInt y ∧
        ∀ rest maxlen', ¬ sizeFails (vsizeInt y) maxlen' →
          vunpackInt maxlen' (bytes ++ rest) = .ok (y, bytes.length)) ∧
    (∀ x < 2 ^ 64, ∀ x' < 2 ^ 64, ∀ maxlen maxlen', ¬ sizeFails (vsizeUint x) maxlen →
      ¬ sizeFails (vsizeUint x') maxlen' →
      lexCmp (vpackUint maxlen x).bytes (vpackUint maxlen' x').bytes = compare x x') ∧
    (∀ y, -2 ^ 63 ≤ y → y < 2 ^ 63 → ∀ y', -2 ^ 63 ≤ y' → y' < 2 ^ 63 → ∀ maxlen maxlen',
      ¬ sizeFails (vsizeInt y) maxlen → ¬ sizeFails (vsizeInt y') maxlen' →
      lexCmp (vpackInt maxlen y).bytes (vpackInt maxlen' y').bytes = compare y y') ∧
    ∀ y : ℤ, 0 ≤ y → y < 2 ^ 63 → ∀ maxlen, vpackInt maxlen y = vpackUint maxlen y.toNat := by
  refine ⟨?_, ?_, ?_, ?_, ?_⟩
  · intro x hx maxlen h
    refine ⟨_, vpackUint_of_fits h, ?_, ?_⟩
    · rw [Code.length_bytes, vsizeUint_eq]
    · intro rest maxlen' h'
      rw [vunpackUint_code hx h', Code.length_bytes, vsizeUint_eq]
  · intro y hy hy' maxlen h
    refine ⟨_, vpackInt_of_fits h, ?_, ?_⟩
    · rw [Code.length_bytes, vsizeInt_eq]
    · intro rest maxlen' h'
      rw [vunpackInt_code hy hy' h', Code.length_bytes, vsizeInt_eq]
  · intro x hx x' hx' maxlen maxlen' h h'
    rw [vpackUint_of_fits h, vpackUint_of_fits h']
    exact (decides_codeUint hx hx').lexCmp_eq
  · intro y hy hy2 y' hy' hy2' maxlen maxlen' h h'
    rw [vpackInt_of_fits h, vpackInt_of_fits h']
    exact (decides_codeInt ⟨hy, hy2⟩ ⟨hy', hy2'⟩).lexCmp_eq
  · intro y hy hy' maxlen
    have hu : toUint64 y = y.toNat := by unfold toUint64; omega
    unfold vpackInt
    rw [if_neg (not_lt_neg2ByteMin (by omega)),
      if_neg (not_lt_neg1ByteMin (by omega)), if_neg (not_lt.mpr hy), hu]
    by_cases h1 : sizeFails 1 maxlen
    · rw [if_pos h1, vpackUint, if_pos h1]
    · rw [if_neg h1]

end WiredTiger
