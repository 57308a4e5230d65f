/-
# The state word of a log slot

The state of a slot is one 64-bit word: the bytes joined in its upper half, the bytes released in
its lower half, and two bits at the top that say that it is closed, or in a special state.  A
record that is written unbuffered counts for a fixed number of bytes, which is a bit of its own.

A word of a slot in use is described by the two numbers and whether it is closed; the macros read
them off, and what joining, releasing and closing do to the word is what they do to the numbers.
-/
import Mathlib

namespace WiredTiger

open Nat

/-! ### The macros -/

/-- `WT_LOG_SLOT_BUF_SIZE`. -/
def slotBufSize : ℕ := 256 * 1024

/-- `WT_LOG_SLOT_UNBUFFERED`. -/
def slotUnbuffered : ℕ := slotBufSize <<< 1

/-- `WT_LOG_SLOT_FREE`. -/
def slotFree : BitVec 64 := -1

/-- `WT_LOG_SLOT_WRITTEN`. -/
def slotWritten : BitVec 64 := -2

/-- `WT_LOG_SLOT_CLOSE`. -/
def slotClose : BitVec 64 := 0x4000000000000000#64

/-- `WT_LOG_SLOT_RESERVED`. -/
def slotReserved : BitVec 64 := 0x8000000000000000#64

/-- `WT_LOG_SLOT_MASK_OFF`. -/
def slotMaskOff : BitVec 64 := 0x3fffffffffffffff#64

/-- `WT_LOG_SLOT_JOIN_MASK`. -/
def slotJoinMask : BitVec 64 := slotMaskOff >>> 32

/-- `FLD_LOG_SLOT_ISSET`. -/
def slotIsset (state mask : BitVec 64) : Bool := state &&& mask ≠ 0

/-- `WT_LOG_SLOT_UNBUFFERED_ISSET`. -/
def slotUnbufferedIsset (state : BitVec 64) : Bool :=
  state &&& (BitVec.ofNat 64 slotUnbuffered <<< 32) ≠ 0

/-- `WT_LOG_SLOT_FLAGS`. -/
def slotFlags (state : BitVec 64) : BitVec 64 := state &&& ~~~slotMaskOff

/-- `WT_LOG_SLOT_JOINED`.  The word is not negative under the mask. -/
def slotJoined (state : BitVec 64) : BitVec 64 := (state &&& slotMaskOff) >>> 32

/-- `WT_LOG_SLOT_JOINED_BUFFERED`. -/
def slotJoinedBuffered (state : BitVec 64) : BitVec 64 :=
  slotJoined state &&& BitVec.ofNat 64 (slotUnbuffered - 1)

/-- `WT_LOG_SLOT_JOIN_REL`. -/
def slotJoinRel (j r s : BitVec 64) : BitVec 64 := (j <<< 32) + r + s

/-- `WT_LOG_SLOT_RELEASED`. -/
def slotReleased (state : BitVec 64) : BitVec 64 := (state.setWidth 32).signExtend 64

/-- `WT_LOG_SLOT_ACTIVE`. -/
def slotActive (state : BitVec 64) : Bool := slotJoined state ≠ slotJoinMask

/-- `WT_LOG_SLOT_CLOSED`. -/
def slotClosed (state : BitVec 64) : Bool :=
  slotActive state && (slotIsset state slotClose && !slotIsset state slotReserved)

/-- `WT_LOG_SLOT_INPROGRESS`. -/
def slotInprogress (state : BitVec 64) : Bool := slotReleased state ≠ slotJoined state

/-- `WT_LOG_SLOT_DONE`. -/
def slotDone (state : BitVec 64) : Bool := slotClosed state && !slotInprogress state

/-- `WT_LOG_SLOT_OPEN`, with `WT_LOG_SLOT_BUF_MAX`. -/
def slotOpen (bufMax : ℕ) (state : BitVec 64) : Bool :=
  slotActive state && !slotUnbufferedIsset state && !slotIsset state slotClose &&
    (slotJoined state).toInt < bufMax

/-- The new state of a join, in 32-bit arithmetic for the bytes joined. -/
def slotJoinState (old : BitVec 64) (unbuffered : Bool) (size : ℕ) : BitVec 64 :=
  let joinOffset : BitVec 32 := (slotJoined old).setWidth 32
  let newJoin := joinOffset + BitVec.ofNat 32 (if unbuffered then slotUnbuffered else size)
  slotJoinRel (newJoin.signExtend 64) (slotReleased old) (slotFlags old)

/-- What a release adds to the state. -/
def slotRelSize (unbuffered : Bool) (size : ℕ) : BitVec 64 :=
  slotJoinRel 0 (BitVec.ofNat 64 (if unbuffered then slotUnbuffered else size)) 0

/-! ### Words in use -/

/-- The word of a slot in use. -/
def slotWord (j r : ℕ) (closed : Bool) : BitVec 64 :=
  BitVec.ofNat 64 (closed.toNat * 2 ^ 62 + j * 2 ^ 32 + r)

/-- The numbers are within what the slot can hold. -/
def SlotFits (j r : ℕ) : Prop := j < 2 ^ 29 ∧ r < 2 ^ 29

variable {j r : ℕ} {closed : Bool}

lemma toNat_and_slotMaskOff (s : BitVec 64) : (s &&& slotMaskOff).toNat = s.toNat % 2 ^ 62 := by
  rw [BitVec.toNat_and]
  exact and_two_pow_sub_one_eq_mod s.toNat 62

lemma toNat_slotJoined (s : BitVec 64) : (slotJoined s).toNat = s.toNat % 2 ^ 62 / 2 ^ 32 := by
  rw [slotJoined, BitVec.toNat_ushiftRight, toNat_and_slotMaskOff, shiftRight_eq_div_pow]

/-- A bit of a word. -/
lemma slotIsset_two_pow (s : BitVec 64) {i : ℕ} (hi : i < 64) :
    slotIsset s (BitVec.ofNat 64 (2 ^ i)) = s.toNat.testBit i := by
  have hval : (s &&& BitVec.ofNat 64 (2 ^ i)).toNat = (s.toNat.testBit i).toNat * 2 ^ i := by
    rw [BitVec.toNat_and, BitVec.toNat_ofNat, Nat.mod_eq_of_lt (Nat.pow_lt_pow_right (by omega) hi),
      Nat.and_two_pow]
  cases hbit : s.toNat.testBit i with
  | true =>
    rw [hbit] at hval
    have hne : s &&& BitVec.ofNat 64 (2 ^ i) ≠ 0 := by
      intro h0
      have hpos := Nat.two_pow_pos i
      rw [h0] at hval
      simp only [Bool.toNat_true, one_mul] at hval
      exact absurd hval.symm hpos.ne'
    exact decide_eq_true hne
  | false =>
    rw [hbit] at hval
    have h0 : s &&& BitVec.ofNat 64 (2 ^ i) = 0 := BitVec.eq_of_toNat_eq (by simpa using hval)
    exact decide_eq_false (not_not.mpr h0)

section

variable (h : SlotFits j r)
include h

lemma toNat_slotWord :
    (slotWord j r closed).toNat = closed.toNat * 2 ^ 62 + j * 2 ^ 32 + r := by
  obtain ⟨hj, hr⟩ := h
  rw [slotWord, BitVec.toNat_ofNat]
  have := closed.toNat_le
  omega

lemma slotJoined_word : (slotJoined (slotWord j r closed)).toNat = j := by
  rw [toNat_slotJoined, toNat_slotWord h]
  obtain ⟨hj, hr⟩ := h
  omega

lemma slotReleased_word : (slotReleased (slotWord j r closed)).toNat = r := by
  have hlow : ((slotWord j r closed).setWidth 32).toNat = r := by
    rw [BitVec.toNat_setWidth, toNat_slotWord h]
    obtain ⟨hj, hr⟩ := h
    omega
  have hmsb : ((slotWord j r closed).setWidth 32).msb = false := by
    rw [BitVec.msb_eq_false_iff_two_mul_lt, hlow]
    have := h.2
    omega
  rw [slotReleased, BitVec.signExtend_eq_setWidth_of_msb_false hmsb, BitVec.toNat_setWidth, hlow]
  omega

lemma slotIsset_close_word : slotIsset (slotWord j r closed) slotClose = closed := by
  refine (slotIsset_two_pow _ (by omega : 62 < 64)).trans ?_
  rw [testBit_eq_decide_div_mod_eq, toNat_slotWord h]
  obtain ⟨hj, hr⟩ := h
  cases closed with
  | true => exact decide_eq_true (by simp only [Bool.toNat_true]; omega)
  | false => exact decide_eq_false (by simp only [Bool.toNat_false]; omega)

lemma slotIsset_reserved_word :
    slotIsset (slotWord j r closed) slotReserved = false := by
  refine (slotIsset_two_pow _ (by omega : 63 < 64)).trans ?_
  rw [testBit_eq_decide_div_mod_eq, toNat_slotWord h]
  obtain ⟨hj, hr⟩ := h
  refine decide_eq_false ?_
  have := closed.toNat_le
  omega

/-- The unbuffered bit is one of the bytes joined. -/
lemma slotUnbufferedIsset_word :
    slotUnbufferedIsset (slotWord j r closed) = decide (j / 2 ^ 19 % 2 = 1) := by
  refine (slotIsset_two_pow (slotWord j r closed) (by omega : 51 < 64)).trans ?_
  rw [testBit_eq_decide_div_mod_eq, toNat_slotWord h]
  obtain ⟨hj, hr⟩ := h
  congr 1
  cases closed <;> simp only [Bool.toNat_false, Bool.toNat_true, eq_iff_iff] <;> omega

lemma slotActive_word : slotActive (slotWord j r closed) = true := by
  refine decide_eq_true fun heq => ?_
  have hval := congrArg BitVec.toNat heq
  rw [slotJoined_word h] at hval
  have hmask : slotJoinMask.toNat = 2 ^ 30 - 1 := by decide
  have := h.1
  omega

lemma slotClosed_word : slotClosed (slotWord j r closed) = closed := by
  simp [slotClosed, slotActive_word h, slotIsset_close_word h, slotIsset_reserved_word h]

lemma slotInprogress_word :
    slotInprogress (slotWord j r closed) = decide (r ≠ j) := by
  have hiff : slotReleased (slotWord j r closed) = slotJoined (slotWord j r closed) ↔ r = j := by
    rw [← BitVec.toNat_inj, slotReleased_word h, slotJoined_word h]
  simp [slotInprogress, ne_eq, hiff]

/-- A slot is done if it is closed and all that was joined is released. -/
lemma slotDone_word :
    slotDone (slotWord j r closed) = (closed && decide (r = j)) := by
  rw [slotDone, slotClosed_word h, slotInprogress_word h]
  simp

lemma slotOpen_word (bufMax : ℕ) :
    slotOpen bufMax (slotWord j r closed) = true ↔
      closed = false ∧ j / 2 ^ 19 % 2 = 0 ∧ j < bufMax := by
  have hint : (slotJoined (slotWord j r closed)).toInt = (j : ℤ) := by
    rw [BitVec.toInt_eq_toNat_of_lt, slotJoined_word h]
    rw [slotJoined_word h]
    have := h.1
    omega
  have hbit : ¬j / 2 ^ 19 % 2 = 1 ↔ j / 2 ^ 19 % 2 = 0 := by omega
  simp only [slotOpen, slotActive_word h, slotUnbufferedIsset_word h, slotIsset_close_word h, hint,
    Bool.true_and, Bool.and_eq_true, Bool.not_eq_true', decide_eq_false_iff_not, decide_eq_true_eq,
    Int.ofNat_lt, hbit]
  constructor
  · rintro ⟨⟨hu, hc⟩, hlt⟩
    exact ⟨hc, hu, hlt⟩
  · rintro ⟨hc, hu, hlt⟩
    exact ⟨⟨hu, hc⟩, hlt⟩

lemma slotJoinedBuffered_word :
    (slotJoinedBuffered (slotWord j r closed)).toNat = j % 2 ^ 19 := by
  rw [slotJoinedBuffered, BitVec.toNat_and, slotJoined_word h]
  exact and_two_pow_sub_one_eq_mod j 19

/-- Closing sets the flag. -/
lemma slotClose_word : slotWord j r false ||| slotClose = slotWord j r true := by
  refine BitVec.eq_of_toNat_eq ?_
  rw [BitVec.toNat_or, toNat_slotWord h, toNat_slotWord h]
  obtain ⟨hj, hr⟩ := h
  have hlow : j * 2 ^ 32 + r < 2 ^ 62 := by omega
  have hor := Nat.two_pow_add_eq_or_of_lt hlow 1
  have hclose : slotClose.toNat = 2 ^ 62 * 1 := by decide
  rw [hclose, Nat.or_comm]
  simp only [Bool.toNat_false, Bool.toNat_true, Nat.zero_mul, Nat.zero_add]
  rw [← hor]
  omega

end

/-! ### What is done to a word -/

/-- Joining adds to the bytes joined. -/
lemma slotJoinState_word {unbuffered : Bool} {size : ℕ} (h : SlotFits j r)
    (h' : SlotFits (j + if unbuffered then slotUnbuffered else size) r) :
    slotJoinState (slotWord j r false) unbuffered size =
      slotWord (j + if unbuffered then slotUnbuffered else size) r false := by
  set add := if unbuffered then slotUnbuffered else size with hadd
  have hlow : ((slotJoined (slotWord j r false)).setWidth 32 + BitVec.ofNat 32 add).toNat =
      j + add := by
    rw [BitVec.toNat_add, BitVec.toNat_setWidth, slotJoined_word h, BitVec.toNat_ofNat]
    have := h'.1
    omega
  have hmsb :
      ((slotJoined (slotWord j r false)).setWidth 32 + BitVec.ofNat 32 add).msb = false := by
    rw [BitVec.msb_eq_false_iff_two_mul_lt, hlow]
    have := h'.1
    omega
  have hflags : slotFlags (slotWord j r false) = 0#64 := by
    have hlt : (slotWord j r false).toNat < 2 ^ 62 := by
      rw [toNat_slotWord h]
      obtain ⟨hj, hr⟩ := h
      simp only [Bool.toNat_false]
      omega
    have hself : slotWord j r false &&& slotMaskOff = slotWord j r false :=
      BitVec.eq_of_toNat_eq (by rw [toNat_and_slotMaskOff, mod_eq_of_lt hlt])
    rw [slotFlags, ← hself, BitVec.and_assoc, BitVec.and_not_self]
    exact BitVec.and_zero
  refine BitVec.eq_of_toNat_eq ?_
  dsimp only [slotJoinState]
  rw [← hadd, BitVec.signExtend_eq_setWidth_of_msb_false hmsb, slotJoinRel, BitVec.toNat_add,
    BitVec.toNat_add, BitVec.toNat_shiftLeft, BitVec.toNat_setWidth, hlow, hflags,
    slotReleased_word h, toNat_slotWord h', shiftLeft_eq, BitVec.toNat_zero]
  have := h'.2
  simp only [Bool.toNat_false]
  omega

/-- Releasing adds to the bytes released. -/
lemma slotRelease_word {unbuffered : Bool} {size : ℕ} (h : SlotFits j r)
    (h' : SlotFits j (r + if unbuffered then slotUnbuffered else size)) :
    slotWord j r closed + slotRelSize unbuffered size =
      slotWord j (r + if unbuffered then slotUnbuffered else size) closed := by
  set add := if unbuffered then slotUnbuffered else size with hadd
  refine BitVec.eq_of_toNat_eq ?_
  rw [BitVec.toNat_add, toNat_slotWord h, toNat_slotWord h', slotRelSize, ← hadd, slotJoinRel,
    BitVec.toNat_add, BitVec.toNat_add, BitVec.toNat_ofNat]
  obtain ⟨hj, hr⟩ := h'
  cases closed <;> simp <;> omega

end WiredTiger
