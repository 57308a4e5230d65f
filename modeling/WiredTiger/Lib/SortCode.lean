/-
# Codes that sort

Two codes decide a comparison if, whatever follows them, the bytes compare as the values do, and
what follows counts only if the values are equal.  Codes of columns one after the other then
compare column by column.  Big-endian numbers of one length decide the comparison of numbers.
-/
import WiredTiger.Lib.Lex

namespace Lib

open List Nat UInt8

section Decides

variable {α : Type*} [LinearOrder α]

/-- The comparison `o` is decided by the codes `a` and `b`. -/
def Decides (o : Ordering) (a b : List α) : Prop :=
  ∀ c d, lexCmp (a ++ c) (b ++ d) = o.then (lexCmp c d)

lemma Decides.lexCmp_eq {o : Ordering} {a b : List α} (h : Decides o a b) : lexCmp a b = o := by
  have := h [] []
  simpa [lexCmp] using this

lemma decides_self (a : List α) : Decides .eq a a := by
  intro c d
  induction a with
  | nil => rfl
  | cons x a ih => simpa [lexCmp] using ih

lemma decides_cons_of_lt {x y : α} (h : x < y) (a b : List α) :
    Decides .lt (x :: a) (y :: b) := by
  intro c d
  simp [lexCmp, h.ne, h]

lemma decides_cons_of_gt {x y : α} (h : y < x) (a b : List α) :
    Decides .gt (x :: a) (y :: b) := by
  intro c d
  simp [lexCmp, h.ne', h.not_gt]

/-- Columns one after the other compare one after the other. -/
lemma Decides.append {o o' : Ordering} {a a' b b' : List α} (h : Decides o a b)
    (h' : Decides o' a' b') : Decides (o.then o') (a ++ a') (b ++ b') := by
  intro c d
  rw [append_assoc, append_assoc, h, h', Ordering.then_assoc]

lemma Decides.cons {o : Ordering} {a b : List α} (h : Decides o a b) (x : α) :
    Decides o (x :: a) (x :: b) := by
  have := (decides_self [x]).append h
  simpa using this

/-- Codes of one length decide: at the first difference, or by being equal. -/
lemma decides_of_length_eq {a b : List α} (h : a.length = b.length) :
    Decides (lexCmp a b) a b := by
  induction a generalizing b with
  | nil =>
    obtain rfl : b = [] := eq_nil_of_length_eq_zero h.symm
    exact decides_self []
  | cons x a ih =>
    cases b with
    | nil => simp at h
    | cons y b =>
      rcases lt_trichotomy x y with hlt | rfl | hgt
      · simpa [lexCmp, hlt.ne, hlt] using decides_cons_of_lt hlt a b
      · simpa [lexCmp] using (ih (by simpa using h)).cons x
      · simpa [lexCmp, hgt.ne', hgt.not_gt] using decides_cons_of_gt hgt a b

lemma Decides.swap {o : Ordering} {a b : List α} (h : Decides o a b) : Decides o.swap b a := by
  intro c d
  rw [← lexCmp_swap, h, Ordering.swap_then, lexCmp_swap]

/-- A code under which smaller values come first decides the comparison of the values. -/
lemma decides_compare {β : Type*} [LinearOrder β] {P : β → Prop} {enc : β → List α}
    (h : ∀ x y, P x → P y → x < y → Decides .lt (enc x) (enc y)) {x y : β} (hx : P x)
    (hy : P y) : Decides (compare x y) (enc x) (enc y) := by
  rcases lt_trichotomy x y with hlt | rfl | hgt
  · rw [compare_lt_iff_lt.mpr hlt]
    exact h x y hx hy hlt
  · rw [compare_eq_iff_eq.mpr rfl]
    exact decides_self _
  · rw [compare_gt_iff_gt.mpr hgt]
    exact (h y x hy hx hgt).swap

section Terminated

variable {z : α} {a b : List α}

/-- Texts with a smallest symbol behind them compare as the texts. -/
lemma decides_terminated (ha : ∀ x ∈ a, z < x) (hb : ∀ x ∈ b, z < x) :
    Decides (lexCmp a b) (a ++ [z]) (b ++ [z]) := by
  induction a generalizing b with
  | nil =>
    cases b with
    | nil => exact decides_self [z]
    | cons y b => exact decides_cons_of_lt (hb y mem_cons_self) _ _
  | cons x a ih =>
    cases b with
    | nil => exact decides_cons_of_gt (ha x mem_cons_self) _ _
    | cons y b =>
      rcases lt_trichotomy x y with hlt | rfl | hgt
      · simpa [lexCmp, hlt.ne, hlt] using decides_cons_of_lt hlt (a ++ [z]) (b ++ [z])
      · have := ih (fun x hx => ha x (mem_cons_of_mem _ hx))
          (fun x hx => hb x (mem_cons_of_mem _ hx))
        simpa [lexCmp] using this.cons x
      · simpa [lexCmp, hgt.ne', hgt.not_gt] using
          decides_cons_of_gt hgt (a ++ [z]) (b ++ [z])

/-- Filled up to one length with a smallest symbol, texts compare as before. -/
lemma lexCmp_filled {n : ℕ} (ha : ∀ x ∈ a, z < x) (hb : ∀ x ∈ b, z < x) (hla : a.length ≤ n)
    (hlb : b.length ≤ n) :
    lexCmp (a ++ replicate (n - a.length) z) (b ++ replicate (n - b.length) z) =
      lexCmp a b := by
  induction a generalizing b n with
  | nil =>
    cases b with
    | nil => exact lexCmp_eq_eq_iff.mpr rfl
    | cons y b =>
      obtain ⟨m, rfl⟩ : ∃ m, n = m + 1 := ⟨n - 1, by simp at hlb; omega⟩
      have hy := hb y mem_cons_self
      simp [lexCmp, replicate_succ, hy.ne, hy]
  | cons x a ih =>
    obtain ⟨m, rfl⟩ : ∃ m, n = m + 1 := ⟨n - 1, by simp at hla; omega⟩
    cases b with
    | nil =>
      have hx := ha x mem_cons_self
      simp [lexCmp, replicate_succ, hx.ne', hx.not_gt]
    | cons y b =>
      have := @ih b m (fun x hx => ha x (mem_cons_of_mem _ hx))
        (fun x hx => hb x (mem_cons_of_mem _ hx)) (by simpa using hla)
        (by simpa using hlb)
      simp [lexCmp, this]

end Terminated

end Decides

/-! ### Big-endian numbers -/

/-- The low `n` bytes of a number, the highest first. -/
def beBytes : ℕ → ℕ → List UInt8
  | 0, _ => []
  | n + 1, x => ofNat (x >>> (8 * n)) :: beBytes n x

/-- The number that bytes continue. -/
def beValue (acc : ℕ) : List UInt8 → ℕ
  | [] => acc
  | b :: bs => beValue (acc * 256 + b.toNat) bs

@[simp] lemma length_beBytes (n x : ℕ) : (beBytes n x).length = n := by
  induction n with
  | zero => rfl
  | succ n ih => simp [beBytes, ih]

lemma toNat_ofNat_shiftRight (n x : ℕ) :
    (ofNat (x >>> (8 * n))).toNat = x / 256 ^ n % 256 := by
  rw [toNat_ofNat', shiftRight_eq_div_pow, pow_mul]
  rfl

lemma mod_pow_succ (n x : ℕ) :
    x % 256 ^ (n + 1) = x / 256 ^ n % 256 * 256 ^ n + x % 256 ^ n := by
  rw [pow_succ, mod_mul, mul_comm (256 ^ n), add_comm]

lemma beValue_beBytes (acc n x : ℕ) :
    beValue acc (beBytes n x) = acc * 256 ^ n + x % 256 ^ n := by
  induction n generalizing acc with
  | zero => simp [beBytes, beValue, mod_one]
  | succ n ih =>
    rw [beBytes, beValue, ih, toNat_ofNat_shiftRight, mod_pow_succ, pow_succ]
    ring

lemma ofNat_lt_ofNat {a b : ℕ} (h : a < b) (hb : b < 256) :
    ofNat a < ofNat b := by
  rw [lt_iff_toNat_lt, toNat_ofNat', toNat_ofNat', mod_eq_of_lt hb,
    mod_eq_of_lt (h.trans hb)]
  exact h

lemma decides_beBytes_of_lt {n x y : ℕ} (h : x % 256 ^ n < y % 256 ^ n) :
    Decides .lt (beBytes n x) (beBytes n y) := by
  induction n with
  | zero => simp [mod_one] at h
  | succ n ih =>
    have hxt := toNat_ofNat_shiftRight n x
    have hyt := toNat_ofNat_shiftRight n y
    rw [mod_pow_succ n x, mod_pow_succ n y] at h
    -- the highest byte decides, unless it is the same
    rcases lt_trichotomy (x / 256 ^ n % 256) (y / 256 ^ n % 256) with hlt | heq | hgt
    · exact decides_cons_of_lt (by rw [UInt8.lt_iff_toNat_lt, hxt, hyt]; exact hlt) _ _
    · have hbyte : UInt8.ofNat (x >>> (8 * n)) = UInt8.ofNat (y >>> (8 * n)) := by
        rw [← UInt8.toNat_inj, hxt, hyt, heq]
      rw [beBytes, beBytes, hbyte]
      exact (ih (by rw [heq] at h; omega)).cons _
    · have := mul_le_mul_right (256 ^ n) (succ_le_of_lt hgt)
      rw [succ_mul] at this
      omega

end Lib
