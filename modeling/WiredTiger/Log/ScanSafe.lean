/-
# The scan of any file (`__wt_log_scan`)

A file may hold anything.  A turn of the loop of the scan trusts the length that it finds in front of
a record: the length is rounded up to whole blocks and added to the offset, with 32 bits for either.
Where these wrap, the check that the file ends in the middle of the record lets it through.
-/
import WiredTiger.Log.ReadOne

namespace WiredTiger

variable {c : LogConf} {compressor wasBackup : Bool} {file : List UInt8} {off : ℕ}

/-- The flags say that the record is compressed, and not encrypted. -/
def CompressedOnly (block : List UInt8) : Prop := leField block 8 2 % 4 = 1

/-- What a turn of the loop finds is within what it has read, and the offset behind it is greater by
whole blocks.  The decompressor gets what is behind the header of the record. -/
def LookWithin (c : LogConf) (compressor : Bool) (block : List UInt8) (off : ℕ) : LogLook → Prop
  | .overrun => False
  | .header next => off < next ∧ c.allocsize ∣ next - off
  | .record rec next => (off < next ∧ c.allocsize ∣ next - off) ∧
    (compressor = true → CompressedOnly block → logRecordSize ≤ rec.length)
  | _ => True

/-- If there is a block to be read at an offset, then its record and the length of that satisfy a
property. -/
def AtRecord (c : LogConf) (file : List UInt8) (off : ℕ) (P : List UInt8 → ℕ → Prop) : Prop :=
  let block := (file.drop off).take c.allocsize
  off + c.allocsize ≤ file.length → recLen block ≠ 0 → P block (recLen block)

/-- A turn of the loop is safe. -/
structure TurnSafe (c : LogConf) (compressor wasBackup : Bool) (file : List UInt8) (off : ℕ) :
    Prop where
  /-- The end of the first block does not wrap. -/
  block : off + c.allocsize < 2 ^ 32
  /-- Nor do the length of the record, rounded up, and its end. -/
  rounded : AtRecord c file off fun _ reclen => off + rduppo2 reclen c.allocsize < 2 ^ 32
  within : LookWithin c compressor ((file.drop off).take c.allocsize) off
    (logLook c wasBackup file off)

/-- The block at an offset and the record in it end in front of 4 GB, the record one block earlier;
and a compressed record whose checksum matches is not shorter than its header. -/
structure TurnFits (c : LogConf) (compressor : Bool) (file : List UInt8) (off : ℕ) : Prop where
  block : off + c.allocsize < 2 ^ 32
  length : AtRecord c file off fun _ reclen => off + reclen + c.allocsize ≤ 2 ^ 32
  compressed : AtRecord c file off fun block reclen => off ≠ 0 → compressor = true →
    CompressedOnly block → c.checksumMatch block reclen = true → logRecordSize ≤ reclen

/-- The offset of the next turn in the file, if there is one. -/
def scanTurn (c : LogConf) (wasBackup : Bool) (file : List UInt8) (off : ℕ) : Option ℕ :=
  match logLook c wasBackup file off with
  | .header next | .record _ next => some (next % 2 ^ 32)
  | _ => none

/-- The offset of the turn `k` of a scan that starts at an offset. -/
def scanOffset (c : LogConf) (wasBackup : Bool) (file : List UInt8) (start : ℕ) : ℕ → Option ℕ
  | 0 => some start
  | k + 1 => (scanOffset c wasBackup file start k).bind (scanTurn c wasBackup file)

lemma lookAdvance_within (block : List UInt8) :
    LookWithin c compressor block off (lookAdvance c wasBackup file off) := by
  simp only [lookAdvance]
  split_ifs <;> trivial

/-- Rounding up to blocks wraps from the last block on. -/
lemma add_rduppo2_lt_iff {a n off : ℕ} (ha : a ∣ 2 ^ 32) (hoff : a ∣ off) :
    off + rduppo2 n a < 2 ^ 32 ↔ off + n + a ≤ 2 ^ 32 := by
  obtain ⟨m, hm⟩ := ha
  obtain ⟨k, rfl⟩ := hoff
  have ha : 0 < a := by
    by_contra h
    simp [Nat.eq_zero_of_not_pos h] at hm
  rw [hm, rduppo2, Nat.mul_comm (_ / a), ← Nat.mul_add, Nat.mul_lt_mul_left ha,
    ← Nat.lt_sub_iff_add_lt', Nat.div_lt_iff_lt_mul ha, Nat.sub_mul, Nat.mul_comm m, Nat.mul_comm k]
  omega

lemma self_le_rduppo2 {a : ℕ} (ha : 0 < a) (n : ℕ) : n ≤ rduppo2 n a := by
  have := Nat.lt_div_mul_add ha (a := n + a - 1)
  rw [rduppo2]
  omega

/-- Where nothing wraps, what a turn finds is within what it has read unless a record is
decompressed that ends in its header. -/
lemma lookWithin_iff (hblock : off + c.allocsize < 2 ^ 32)
    (hround : AtRecord c file off fun _ reclen => off + rduppo2 reclen c.allocsize < 2 ^ 32) :
    LookWithin c compressor ((file.drop off).take c.allocsize) off
        (logLook c wasBackup file off) ↔
      AtRecord c file off fun block reclen => off ≠ 0 → compressor = true →
        CompressedOnly block → c.checksumMatch block reclen = true → logRecordSize ≤ reclen := by
  rw [AtRecord] at hround ⊢
  have halloc := c.align_le
  unfold logLook
  rw [Nat.mod_eq_of_lt hblock]
  by_cases hadvance : file.length < off + c.allocsize
  · rw [if_pos hadvance]
    exact iff_of_true (lookAdvance_within _) fun hin => absurd hadvance (Nat.not_lt.mpr hin)
  rw [if_neg hadvance, if_neg hadvance]
  have hin := Nat.le_of_not_lt hadvance
  simp only
  generalize recLen ((file.drop off).take c.allocsize) = reclen at hround ⊢
  by_cases hzero : reclen = 0
  · refine iff_of_true ?_ fun _ hne => absurd hzero hne
    rw [if_pos hzero]
    split_ifs
    · trivial
    · trivial
    · exact lookAdvance_within _
  rw [if_neg hzero]
  have hself := self_le_rduppo2 (by omega : 0 < c.allocsize) reclen
  have hround := hround hin hzero
  -- the record is within its blocks, and a short one has only one
  obtain ⟨rdupLen, hrdup, hle, hdvd, hone⟩ : ∃ rdupLen,
      (if c.allocsize < reclen then rduppo2 reclen c.allocsize % 2 ^ 32 else c.allocsize) = rdupLen ∧
        reclen ≤ rdupLen ∧ c.allocsize ∣ rdupLen ∧
          (reclen ≤ c.allocsize → rdupLen = c.allocsize) := by
    refine ⟨_, rfl, ?_⟩
    split_ifs
    · rw [Nat.mod_eq_of_lt (by omega)]
      exact ⟨hself, Nat.dvd_mul_left .., by omega⟩
    · exact ⟨by omega, Nat.dvd_refl _, fun _ => rfl⟩
  have hshort : logRecordSize ≤ c.allocsize := halloc.trans' (by decide)
  rw [hrdup]
  split_ifs with hends hcut hover hsum hoff
  · exact iff_of_true trivial fun _ _ _ _ _ _ => by omega
  · exact iff_of_true trivial fun _ _ _ _ _ _ => by omega
  · omega
  · refine iff_of_true trivial fun _ _ _ _ _ hmatch => ?_
    by_contra hlt
    rw [hone (by omega), hmatch] at hsum
    cases hsum
  · exact iff_of_true ⟨by omega, by rwa [hoff]⟩ fun _ _ h => absurd hoff h
  · have hrec : (((file.drop off).take rdupLen).take reclen).length = reclen := by
      rw [List.length_take, List.length_take, List.length_drop]
      omega
    rw [LookWithin, hrec]
    constructor
    · exact fun h _ _ _ hcomp hflags _ => h.2 hcomp hflags
    · refine fun h => ⟨⟨by omega, by rwa [Nat.add_sub_cancel_left]⟩, fun hcomp hflags => ?_⟩
      by_contra hlt
      rw [hone (by omega), Bool.not_eq_false] at hsum
      exact hlt (h hin hzero hoff hcomp hflags hsum)

/-- A turn is safe exactly if what it reads fits. -/
lemma turnSafe_iff (ha : c.allocsize ∣ 2 ^ 32) (hoff : c.allocsize ∣ off) :
    TurnSafe c compressor wasBackup file off ↔ TurnFits c compressor file off := by
  constructor
  · rintro ⟨hblock, hround, hwithin⟩
    exact ⟨hblock, fun hin hlen => (add_rduppo2_lt_iff ha hoff).mp (hround hin hlen),
      (lookWithin_iff hblock hround).mp hwithin⟩
  · rintro ⟨hblock, hlength, hcompressed⟩
    have hround := fun hin hlen => (add_rduppo2_lt_iff ha hoff).mpr (hlength hin hlen)
    exact ⟨hblock, hround, (lookWithin_iff hblock hround).mpr hcompressed⟩

lemma TurnSafe.dvd (h : TurnSafe c compressor wasBackup file off) (ha : c.allocsize ∣ 2 ^ 32)
    (hoff : c.allocsize ∣ off) {next : ℕ} (hnext : scanTurn c wasBackup file off = some next) :
    c.allocsize ∣ next := by
  have hstep : ∀ {n}, off < n ∧ c.allocsize ∣ n - off → c.allocsize ∣ n % 2 ^ 32 := by
    intro n hn
    rw [Nat.dvd_mod_iff ha, ← Nat.add_sub_cancel' hn.1.le]
    exact Nat.dvd_add hoff hn.2
  have hwithin := h.within
  rw [scanTurn] at hnext
  split at hnext
  · rename_i hlook
    rw [hlook] at hwithin
    cases hnext
    exact hstep hwithin
  · rename_i hlook
    rw [hlook] at hwithin
    cases hnext
    exact hstep hwithin.1
  · cases hnext

/-- A scan stays at the start of blocks as long as its turns are safe. -/
lemma scanOffset_dvd {start : ℕ} (ha : c.allocsize ∣ 2 ^ 32) (hstart : c.allocsize ∣ start) (k : ℕ)
    (h : ∀ j < k, ∀ off ∈ scanOffset c wasBackup file start j,
      TurnSafe c compressor wasBackup file off) :
    ∀ off ∈ scanOffset c wasBackup file start k, c.allocsize ∣ off := by
  induction k with
  | zero =>
    rintro off ⟨⟩
    exact hstart
  | succ k ih =>
    intro off hoff
    obtain ⟨off', hoff', hturn⟩ := Option.bind_eq_some_iff.mp hoff
    have hdvd := ih (fun j hj => h j (by omega)) off' hoff'
    exact (h k (by omega) off' hoff').dvd ha hdvd hturn

/-- **The scan of a file is safe exactly if the records it comes to fit.**  For any contents, the
first `n` turns of a scan checksum, decompress and hand out only what has been read, go forward, and
do not wrap if and only if at each of them the record ends in front of the last block of 4 GB, and is
not compressed and shorter than its header. -/
theorem logScan_safe_iff (c : LogConf) (compressor wasBackup : Bool) (file : List UInt8) {start : ℕ}
    (ha : c.allocsize ∣ 2 ^ 32) (hstart : c.allocsize ∣ start) (n : ℕ) :
    (∀ k < n, ∀ off ∈ scanOffset c wasBackup file start k,
      TurnSafe c compressor wasBackup file off) ↔
    ∀ k < n, ∀ off ∈ scanOffset c wasBackup file start k, TurnFits c compressor file off := by
  constructor
  · intro h k hk off hoff
    have hdvd := scanOffset_dvd ha hstart k (fun j hj => h j (by omega)) off hoff
    exact (turnSafe_iff ha hdvd).mp (h k hk off hoff)
  · intro h k
    induction k using Nat.strong_induction_on with
    | _ k ih =>
      intro hk off hoff
      have hdvd := scanOffset_dvd ha hstart k (fun j hj => ih j hj (by omega)) off hoff
      exact (turnSafe_iff ha hdvd).mpr (h k hk off hoff)

/-- The first block of a file, with a length of some 16 MB. -/
theorem logScan_safe_block : TurnSafe sumConf true false (List.replicate 128 1) 0 := by
  refine (logScan_safe_iff sumConf true false _ (by decide) (by decide) 1).mpr ?_ 0
    Nat.one_pos 0 rfl
  intro k hk off hoff
  obtain rfl : k = 0 := by omega
  cases hoff
  exact ⟨by decide, fun _ _ => by decide, fun _ _ h => absurd rfl h⟩

set_option maxRecDepth 4000 in
/-- Behind the header of a file, a length of all ones is rounded up to 0, and the checksum is taken
over 4 GB. -/
theorem logScan_overruns :
    let file := [24, 0, 0, 0, 157, 0, 0, 0, 0, 0, 0, 0, 0, 0, 0, 0, 0x64, 0x10, 0x10, 0, 1, 0, 0, 0] ++
      List.replicate 104 0 ++ ([255, 255, 255, 255] ++ List.replicate 124 0)
    scanOffset sumConf false file 0 1 = some 128 ∧ logLook sumConf false file 128 = .overrun ∧
      ¬ TurnSafe sumConf false false file 128 := by
  intro file
  have hlook : logLook sumConf false file 128 = .overrun := by decide
  refine ⟨by decide, hlook, fun h => ?_⟩
  have hwithin := h.within
  rw [hlook] at hwithin
  exact hwithin

end WiredTiger
