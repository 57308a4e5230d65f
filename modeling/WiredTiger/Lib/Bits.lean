/-
# Numbers as strings of bits

The low bits of a number, highest first.  Shifting and or-ing numbers together is concatenation of
such strings.
-/
import Mathlib

namespace Lib

open List Nat

/-- The low `w` bits of a number, highest first. -/
def bitsOf : ℕ → ℕ → List Bool
  | 0, _ => []
  | w + 1, n => n.testBit w :: bitsOf w n

variable {w n m : ℕ}

@[simp] lemma length_bitsOf (w n : ℕ) : (bitsOf w n).length = w := by
  induction w with
  | zero => rfl
  | succ w ih => rw [bitsOf, length_cons, ih]

lemma bitsOf_zero_right (w : ℕ) : bitsOf w 0 = replicate w false := by
  induction w with
  | zero => rfl
  | succ w ih => rw [bitsOf, ih, zero_testBit, replicate_succ]

/-- The high bits in front of the low bits. -/
lemma bitsOf_add (v w n : ℕ) : bitsOf (v + w) n = bitsOf v (n / 2 ^ w) ++ bitsOf w n := by
  induction v with
  | zero => rw [zero_add, bitsOf, nil_append]
  | succ v ih =>
    rw [succ_add, bitsOf, bitsOf, ih, cons_append, testBit_div_two_pow]

lemma bitsOf_eq_iff : bitsOf w m = bitsOf w n ↔ m % 2 ^ w = n % 2 ^ w := by
  induction w with
  | zero => simp [bitsOf, mod_one]
  | succ w ih =>
    rw [bitsOf, bitsOf, cons_eq_cons, ih]
    constructor
    · rintro ⟨hbit, hmod⟩
      refine eq_of_testBit_eq fun i => ?_
      rw [testBit_mod_two_pow, testBit_mod_two_pow]
      rcases lt_trichotomy i w with hi | rfl | hi
      · have h := congrArg (fun x => x.testBit i) hmod
        simp only [testBit_mod_two_pow, hi, decide_true, Bool.true_and] at h
        rw [h]
      · rw [hbit]
      · rw [decide_eq_false (by omega), Bool.false_and, Bool.false_and]
    · intro h
      have hdvd : 2 ^ w ∣ 2 ^ (w + 1) := pow_dvd_pow 2 (le_succ w)
      refine ⟨?_, ?_⟩
      · have h := congrArg (fun x => x.testBit w) h
        simpa only [testBit_mod_two_pow, lt_succ_self, decide_true, Bool.true_and] using h
      · rw [← mod_mod_of_dvd m hdvd, h, mod_mod_of_dvd n hdvd]

lemma bitsOf_congr (h : m % 2 ^ w = n % 2 ^ w) : bitsOf w m = bitsOf w n := bitsOf_eq_iff.mpr h

/-- Only the low bits count. -/
lemma bitsOf_mod {k : ℕ} (h : w ≤ k) (n : ℕ) : bitsOf w (n % 2 ^ k) = bitsOf w n :=
  bitsOf_congr (mod_mod_of_dvd n (pow_dvd_pow 2 h))

lemma eq_of_bitsOf_eq (hm : m < 2 ^ w) (hn : n < 2 ^ w) (h : bitsOf w m = bitsOf w n) : m = n := by
  rwa [bitsOf_eq_iff, mod_eq_of_lt hm, mod_eq_of_lt hn] at h

/-- Bits shifted in from the right. -/
lemma bitsOf_shiftLeft_or {l p : ℕ} (v n : ℕ) (hp : p < 2 ^ l) :
    bitsOf (v + l) (n <<< l ||| p) = bitsOf v n ++ bitsOf l p := by
  have heq : n <<< l ||| p = 2 ^ l * n + p := by
    rw [Nat.shiftLeft_eq, Nat.mul_comm, Nat.two_pow_add_eq_or_of_lt hp]
  have hdiv : (2 ^ l * n + p) / 2 ^ l = n := by
    rw [Nat.mul_add_div (Nat.two_pow_pos l), Nat.div_eq_of_lt hp, Nat.add_zero]
  rw [heq, bitsOf_add, hdiv]
  refine congrArg _ (bitsOf_congr ?_)
  rw [Nat.mul_add_mod]

lemma bitsOf_shiftLeft (v l n : ℕ) :
    bitsOf (v + l) (n <<< l) = bitsOf v n ++ replicate l false := by
  rw [← bitsOf_zero_right l, ← bitsOf_shiftLeft_or v n (Nat.two_pow_pos l), Nat.or_zero]

/-- The bits in front. -/
lemma take_bitsOf {l : ℕ} (h : l ≤ w) (n : ℕ) :
    (bitsOf w n).take l = bitsOf l (n / 2 ^ (w - l)) := by
  obtain ⟨k, rfl⟩ := Nat.exists_eq_add_of_le h
  rw [bitsOf_add, take_left' (length_bitsOf _ _), Nat.add_sub_cancel_left]

lemma drop_bitsOf {l : ℕ} (h : l ≤ w) (n : ℕ) : (bitsOf w n).drop l = bitsOf (w - l) n := by
  obtain ⟨k, rfl⟩ := Nat.exists_eq_add_of_le h
  rw [bitsOf_add, drop_left' (length_bitsOf _ _), Nat.add_sub_cancel_left]

/-- The bits of bytes. -/
def bitsOfBytes (bytes : List UInt8) : List Bool := bytes.flatMap fun b => bitsOf 8 b.toNat

@[simp] lemma bitsOfBytes_nil : bitsOfBytes [] = [] := rfl

lemma bitsOfBytes_cons (b : UInt8) (bs : List UInt8) :
    bitsOfBytes (b :: bs) = bitsOf 8 b.toNat ++ bitsOfBytes bs := rfl

lemma bitsOfBytes_append (bs cs : List UInt8) :
    bitsOfBytes (bs ++ cs) = bitsOfBytes bs ++ bitsOfBytes cs := flatMap_append

@[simp] lemma length_bitsOfBytes (bs : List UInt8) : (bitsOfBytes bs).length = 8 * bs.length := by
  induction bs with
  | nil => rfl
  | cons b bs ih =>
    rw [bitsOfBytes_cons, length_append, ih, length_bitsOf, length_cons]
    omega

lemma bitsOf_ofNat (n : ℕ) : bitsOf 8 (UInt8.ofNat n).toNat = bitsOf 8 n := by
  rw [UInt8.toNat_ofNat']
  exact bitsOf_mod le_rfl n

end Lib
